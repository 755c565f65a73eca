import OrderedTable.Table.Placement

/-!
# Copying values

An owning kind copies text and bytes into storage of the copy's own, whatever form they had; a
borrowing kind keeps the storage of text and bytes in this library's form, so that value and copy
share it. Lists and tables are copied entry by entry, each key under the kind of the keys and each
value under its own; an entry that cannot be copied is left out. A table's copy has its capacity and
is filled in global order.
-/

namespace OrderedTable

/-- An entry whose key and value both are there. -/
def Entry.whole? {δ : Type} (e : Entry (Option δ)) : Option (Entry δ) :=
  match e.key, e.value with
  | some key, some value => some ⟨key, value, e.kind⟩
  | _, _ => none

variable (C : Catalogue)

/-- A copy of a value that is no list or table. -/
def Kind.copyLeaf (k : Kind) (d : Datum) : Option Datum :=
  match k.base with
  | .scalar s => (d.scalarOf? s).map .scalar
  | .text _ =>
    match k.borrowing, d.peel with
    | true, .text s => some (.text s)
    | _, _ => d.textBytes?.map fun bs => .text (.owned bs)
  | .bytes =>
    match k.borrowing, d.peel with
    | true, .bytes s => some (.bytes s)
    | _, _ => d.bytes?.map fun bs => .bytes (.owned bs)
  | .list | .table => none
  | .extension id => (C.extension id).copy d

/-- The list of the entries that were copied. -/
def Listing.gather {δ : Type} (l : Listing (Option δ)) : Listing δ :=
  ⟨l.keyKind, l.entries.filterMap Entry.whole?⟩

/-- A table of the same capacity, filled with the entries that were copied. -/
def Table.rebuild (t : Table (Option Datum)) : Table Datum :=
  (Table.empty t.keyKind t.capacity).addAll C (t.entries.filterMap Entry.whole?)

/-- The reading that copies a value. -/
def copying : Reading (Option Datum) where
  leaf := Kind.copyLeaf C
  list l := some (.list l.gather)
  table t := some (.table (t.rebuild C))

/-- A copy of a value, if the kind can copy it. -/
def Kind.copy (k : Kind) (d : Datum) : Option Datum := k.read (copying C) d

/-- A copy of a value that shares its storage where there is any to share. -/
def Kind.share (k : Kind) (d : Datum) : Option Datum := k.twin.copy C d

/-- A copy of a list. -/
def Listing.copy (l : Listing Datum) : Listing Datum := (l.map (Kind.copy C)).gather

/-- A copy of a table. -/
def Table.copy (t : Table Datum) : Table Datum := (t.map (Kind.copy C)).rebuild C

namespace Entry

/-- A copy of an entry, its key copied under `keyKind` and its value under its own kind. -/
def copied (keyKind : Kind) (e : Entry Datum) : Except TableFault (Entry Datum) :=
  match keyKind.copy C e.key with
  | none => .error (.keyKind (C.name keyKind))
  | some key =>
    match e.kind.copy C e.value with
    | none => .error (.valueKind (C.name e.kind))
    | some value => .ok ⟨key, value, e.kind⟩

end Entry

/-- Inserts copies of a key and a value. -/
def Table.addCopied (t : Table Datum) (e : Entry Datum) : Except TableFault (Table Datum) :=
  (e.copied C t.keyKind).bind (t.add C)

/-- Puts an entry at the end, whatever its key and value are. -/
def Listing.push {δ : Type} (l : Listing δ) (e : Entry δ) : Listing δ :=
  { l with entries := l.entries ++ [e] }

/-- Puts a copy of an entry at the end. -/
def Listing.pushCopied (l : Listing Datum) (e : Entry Datum) : Except TableFault (Listing Datum) :=
  (e.copied C l.keyKind).map l.push

end OrderedTable
