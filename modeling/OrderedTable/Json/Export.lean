import OrderedTable.Kind.Format

/-!
# Values as JSON

A table becomes the object into which its values are inserted one after another, each under the text of
its key; a list becomes the array of its values. An integer that 64 bits cannot hold
becomes the string of its digits, bytes become the string they spell, and what is no number or is not
accepted by its kind becomes `null`.
-/

namespace OrderedTable

namespace Json

/-- A 64-bit float, if it is a number. -/
def ofFloat (bits : BitVec 64) : Json :=
  if finite : FloatKind.f64.isFinite bits.toNat then .number (.float bits finite) else .null

/-- The 64-bit float of the same value. -/
def widen (bits : BitVec 32) : BitVec 64 :=
  (Float32.ofBits (.ofBitVec bits)).toFloat.toBits.toBitVec

/-- An integer as a number, unless it is of 128 bits and the kind of 64 bits with as many signs cannot hold
it: then its digits. -/
def ofInteger (k : IntKind) (x : BitVec k.bits) : Json :=
  if narrow : k.bytes ≤ 8 then .number (.int (k.toInt x) (IntKind.holds_toInt_of_le narrow x))
  else if k.isSigned then
    if held : IntKind.i64.holds (k.toInt x) then .number (.int (k.toInt x) (.inl held))
    else .string (toString (k.toInt x))
  else
    if held : IntKind.u64.holds (k.toInt x) then .number (.int (k.toInt x) (.inr held))
    else .string (toString (k.toInt x))

/-- A scalar as JSON. -/
def ofScalar : Scalar → Json
  | .bool b => .bool b
  | .int k x => ofInteger k x
  | .float .f32 x => ofFloat (widen x)
  | .float .f64 x => ofFloat x

/-- What a value is in JSON: its text, should it be a key, and its form as a value. -/
structure Part where
  text : String
  json : Json

end Json

variable (L : Json.Library) (C : Catalogue)

/-- A value that is no list or table as JSON. -/
def Kind.toJsonLeaf (k : Kind) (d : Datum) : Json :=
  match k.base with
  | .scalar s => ((d.scalarOf? s).map Json.ofScalar).getD .null
  | .text _ => (d.text?.map Json.string).getD .null
  | .bytes => (d.bytes?.map fun bs => Json.string (Utf8.decodeLossy bs)).getD .null
  | .list | .table => .null
  | .extension id => (C.extension id).toJson d

/-- The reading that makes JSON of values. -/
def jsonExport : Reading Json.Part where
  leaf k d := ⟨k.formatLeaf C d, k.toJsonLeaf C d⟩
  list l := ⟨(l.map fun _ p => p.text).render, .array (l.entries.map fun e => e.value.json)⟩
  table t :=
    ⟨(t.map fun _ p => p.text).render,
      L.object (t.entries.map fun e => (e.key.text, e.value.json))⟩

/-- A value as JSON. -/
def Kind.toJson (k : Kind) (d : Datum) : Json := (k.read (jsonExport L C) d).json

/-- A list as JSON. -/
def Listing.toJson (l : Listing Datum) : Json :=
  ((jsonExport L C).list (l.map (Kind.read (jsonExport L C)))).json

/-- A table as JSON. -/
def Table.toJson (t : Table Datum) : Json :=
  ((jsonExport L C).table (t.map (Kind.read (jsonExport L C)))).json

end OrderedTable
