import OrderedTable.Kind.Order
import OrderedTable.Kind.Copy
import OrderedTable.Wire.Decode
import OrderedTable.Markup.Export
import OrderedTable.Json.Export

/-!
# Specimens

A small catalogue with extensions that go to the limits of what an extension may do: one that takes no
bytes in the binary form, one whose hash never tells values apart, one that decodes to values it does
not accept, one that can be neither copied nor written, and three that are not registered, two of which
have the same name. But for what is said of each, they treat values as the kind `i32` does.
-/

namespace OrderedTable

namespace Extension

/-- The kind of the value that says nothing. Only that value is accepted, and not in a box. -/
def unit : Extension where
  name := "unit"
  accepts d := d matches .unit
  initial := .unit
  copy _ := some .unit
  order _ _ := .eq
  hash _ := none
  size _ := 0
  format _ := "()"
  encode _ := .ok []
  decode _ := .ok (.unit, 0)
  cleared d := d
  toXml _ _ := ""
  toJson _ := .null

/-- The catalogue without extensions. -/
def builtinOnly : Catalogue := ⟨fun _ => unit, []⟩

/-- An extension that treats values as the kind `i32` does. -/
def integer (name : String) : Extension where
  name := name
  accepts := Kind.i32.accepts builtinOnly
  initial := Kind.i32.initial builtinOnly
  copy := Kind.i32.copy builtinOnly
  order := Kind.i32.order builtinOnly
  hash _ := none
  size := Kind.i32.size builtinOnly
  format := Kind.i32.format builtinOnly
  encode := Kind.i32.encode builtinOnly
  decode := Kind.i32.decode builtinOnly
  cleared := Kind.i32.cleared builtinOnly
  toXml := Kind.i32.toXml builtinOnly
  toJson := Kind.i32.toJsonLeaf builtinOnly

/-- Every value, accepted or not, has the hash zero. -/
def colliding : Extension := { integer "colliding_i32" with hash := fun _ => some 0 }

/-- Whatever the input is, a value of another kind is decoded from one byte of it. -/
def liar : Extension :=
  { integer "liar" with decode := fun _ => .ok (.scalar (.int .u8 7), 1) }

/-- No value is copied or written. -/
def failing : Extension :=
  { integer "fail" with
    copy := fun _ => none
    encode := fun _ => .error (.mismatch "fail") }

end Extension

namespace Catalogue

/-- The extensions by number. -/
def specimen : Nat → Extension
  | 0 => .unit
  | 1 => .colliding
  | 2 => .liar
  | 3 => .failing
  | 4 => .integer "ghost_a"
  | 5 => .integer "ghost_b"
  | _ => .integer "ghost_a"

/-- The catalogue of specimens, of which the first three are registered. -/
def specimens : Catalogue := ⟨specimen, [0, 1, 2]⟩

end Catalogue

end OrderedTable
