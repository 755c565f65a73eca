import OrderedTable.Kind.Scalar

/-!
# JSON values

A JSON number is an integer that 64 bits can hold or a 64-bit float that is a number, and no other can be
built. `Json` is what a JSON library takes a text for; what the library does is its own affair, so it is a
parameter, `Json.Library`.
-/

namespace OrderedTable

/-- A JSON number: an integer if 64 bits can hold it, and a float only if it is finite. -/
inductive Json.Number where
  | int (n : Int) (held : IntKind.i64.holds n ∨ IntKind.u64.holds n)
  | float (bits : BitVec 64) (finite : FloatKind.f64.isFinite bits.toNat)
  deriving DecidableEq, Repr

/-- A JSON value. -/
inductive Json where
  | null
  | bool (b : Bool)
  | number (n : Json.Number)
  | string (s : String)
  | array (items : List Json)
  | object (members : List (String × Json))
  deriving Repr

namespace Json

/-- The JSON library that texts are read and objects are built with. -/
structure Library where
  /-- The first value of a text and the position behind it in bytes, or in what way it is malformed. There is
  none if the text ends before a value starts. -/
  first? : List Char → Option (Except String (Json × Nat))
  /-- The members of an object once the name was given a value. -/
  insert : String → Json → List (String × Json) → List (String × Json)

/-- The object whose members are inserted in the given order. -/
def Library.object (L : Library) (members : List (String × Json)) : Json :=
  .object (members.foldl (fun done m => L.insert m.1 m.2 done) [])

end Json

end OrderedTable
