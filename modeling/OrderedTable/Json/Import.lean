import OrderedTable.Json.Basic
import OrderedTable.Table.Placement
import OrderedTable.Text.Blank

/-!
# Tables from JSON

A JSON object becomes a table with text keys, one entry per member. Strings become byte strings,
integers signed ones of 64 bits or, where only these hold them, unsigned ones, other numbers floats,
objects tables, and arrays lists keyed by the place of each item. What is `null` is left out, and an
array's other items keep their places.

A `Json.Cursor` reads one object after another from a text. Behind blanks there has to be an opening
brace; then the library reads the first value that is there. The cursor moves as soon as a value was read,
and only then is the table made, member by member, by insertions that may be refused (`Json.fill`).
-/

namespace OrderedTable

section
variable (C : Catalogue)

mutual

/-- The value of a JSON value and its kind, unless a table in it refuses an entry; `null` has none. -/
def Json.make : Json → Except TableFault (Option (Datum × Kind))
  | .null => .ok none
  | .bool b => .ok (some (.scalar (.bool b), .bool))
  | .number (.int n _) =>
    if IntKind.i64.holds n then .ok (some (.scalar (.int .i64 (BitVec.ofInt _ n)), .i64))
    else .ok (some (.scalar (.int .u64 (BitVec.ofInt _ n)), .u64))
  | .number (.float bits _) => .ok (some (.scalar (.float .f64 bits), .f64))
  | .string s => .ok (some (.ofBytes (Utf8.encode s), .bytes))
  | .array items => do
    let entries ← Json.makeItems 0 items
    return some (.list ⟨.u64, entries⟩, .list)
  | .object members => do
    let t ← Json.fill (.empty .text Table.minCapacity) members
    return some (.table t, .table)

/-- The entries of an array's items from a place on, unless one of them cannot be made. -/
def Json.makeItems (place : Nat) : List Json → Except TableFault (List (Entry Datum))
  | [] => .ok []
  | item :: rest => do
    match ← Json.make item with
    | none => Json.makeItems (place + 1) rest
    | some (value, kind) =>
      let entries ← Json.makeItems (place + 1) rest
      return ⟨.scalar (.int .u64 (BitVec.ofNat _ place)), value, kind⟩ :: entries

/-- A table with an object's members inserted one after another, up to one that is refused. -/
def Json.fill (t : Table Datum) : List (String × Json) → Except TableFault (Table Datum)
  | [] => .ok t
  | (name, member) :: rest => do
    match ← Json.make member with
    | none => Json.fill t rest
    | some (value, kind) => Json.fill (← t.add C ⟨.ofText name, value, kind⟩) rest

end

/-- The table of an object's members. -/
def Json.toTable (members : List (String × Json)) : Except TableFault (Table Datum) :=
  Json.fill C (.empty .text Table.minCapacity) members

end

namespace Text

/-- The text after its first `n` bytes, unless it is shorter or they end inside a character. -/
def afterBytes? : Nat → List Char → Option (List Char)
  | 0, cs => some cs
  | _ + 1, [] => none
  | n + 1, c :: cs => if c.utf8Size ≤ n + 1 then afterBytes? (n + 1 - c.utf8Size) cs else none

/-- How many bytes a text is written in. -/
def byteLength (cs : List Char) : Nat := cs.foldr (fun c n => c.utf8Size + n) 0

end Text

section
variable (L : Json.Library) (C : Catalogue)

/-- A place in a text, counted in bytes, from which JSON objects are read. -/
structure Json.Cursor where
  text : String
  position : Nat
  deriving DecidableEq, Repr

/-- The table of the object at a cursor, and the cursor afterwards. Once a value was read the cursor is
behind it, whatever becomes of the value. -/
def Json.Cursor.next (c : Json.Cursor) : Except TableFault (Table Datum) × Json.Cursor :=
  match Text.afterBytes? c.position c.text.toList with
  | none => (.error (.json (.outOfRange c.position)), c)
  | some cs =>
    match Text.dropBlanks cs with
    | '\x7b' :: _ =>
      match L.first? cs with
      | none => (.error (.json .ended), c)
      | some (.error message) => (.error (.json (.malformed message)), c)
      | some (.ok (value, length)) =>
        let moved : Json.Cursor := { c with position := c.position + length }
        match value with
        | .object members => (Json.toTable C members, moved)
        | _ => (.error (.json .notAnObject), moved)
    | _ => (.error (.json .notAnObject), c)

/-- The table of the JSON object that a text starts with. -/
def Table.ofJson (text : String) : Except TableFault (Table Datum) :=
  (Json.Cursor.next L C ⟨text, 0⟩).1

end

end OrderedTable
