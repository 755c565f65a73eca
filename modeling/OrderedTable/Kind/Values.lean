import OrderedTable.Catalogue.Basic

/-!
# The values of a kind

Which values a kind accepts, the value it starts from, what a value is emptied to, and how much room
it takes. A kind and its twin agree on all of this.
-/

namespace OrderedTable

variable (C : Catalogue)

/-- Whether a value is one of the kind. -/
def Kind.accepts (k : Kind) (d : Datum) : Bool :=
  match k.base with
  | .scalar s => (d.scalarOf? s).isSome
  | .text _ => d.textBytes?.isSome
  | .bytes => d.bytes?.isSome
  | .list => d.list?.isSome
  | .table => d.table?.isSome
  | .extension id => (C.extension id).accepts d

/-- The value of the kind that stands for none in particular: zero, empty. -/
def Kind.initial (k : Kind) : Datum :=
  match k.base with
  | .scalar s => .scalar (.zero s)
  | .text _ => .ofText ""
  | .bytes => .ofBytes []
  | .list => .list (.empty .text)
  | .table => .table (.empty .text Table.minCapacity)
  | .extension id => (C.extension id).initial

/-- A value emptied. Scalars, lists and tables are emptied where they stand, so a box around one
keeps it; a text or bytes are replaced, with the box they are in. What the kind does not accept
stays as it is. -/
def Kind.cleared (k : Kind) (d : Datum) : Datum :=
  match k.base, d with
  | .scalar s, .scalar x => if x.kind = s then .scalar (.zero s) else d
  | .scalar _, _ => d
  | .text _, _ | .bytes, _ => if k.accepts C d then k.initial C else d
  | .list, .list l => .list (.empty l.keyKind)
  | .list, _ => d
  | .table, .table t => .table t.clear
  | .table, _ => d
  | .extension id, _ => (C.extension id).cleared d

/-- The room a value takes: bytes of scalars, text and byte strings, machine words of lists and
tables. Nested values are not counted. -/
def Kind.size (k : Kind) (d : Datum) : Nat :=
  match k.base with
  | .scalar s => s.bytes
  | .text _ => (d.textBytes?.map List.length).getD 0
  | .bytes => (d.bytes?.map List.length).getD 0
  | .list => (d.list?.map fun l => 5 + 6 * l.entries.length).getD 0
  | .table => (d.table?.map fun t => 12 + 3 * t.capacity + 9 * t.size).getD 0
  | .extension id => (C.extension id).size d

end OrderedTable
