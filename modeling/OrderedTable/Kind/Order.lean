import OrderedTable.Kind.Digest

/-!
# Comparing values

Every kind orders all values: among themselves those that it accepts, and before these, as equals,
all others. Lists are compared by the kind of their keys, then by length, then entry by entry from the
left: by the kind of the value, then by the value. Keys do not count, and twins count as one. Tables
are compared in the same way, in their global order.
-/

namespace OrderedTable

/-- Two views compared, of which either may be missing: a missing one comes first. -/
def orderViews {α : Type} (order : α → α → Ordering) : Option α → Option α → Ordering
  | some a, some b => order a b
  | some _, none => .gt
  | none, some _ => .lt
  | none, none => .eq

variable (C : Catalogue)

/-- A value that is no list or table compared with another. -/
def Kind.orderLeaf (k : Kind) (a b : Datum) : Ordering :=
  match k.base with
  | .scalar s => orderViews Scalar.order (a.scalarOf? s) (b.scalarOf? s)
  | .text caseBlind =>
    orderViews (fun x y => Bytes.order (foldCase caseBlind x) (foldCase caseBlind y))
      a.textBytes? b.textBytes?
  | .bytes => orderViews Bytes.order a.bytes? b.bytes?
  | .list => if b.list?.isSome then .lt else .eq
  | .table => if b.table?.isSome then .lt else .eq
  | .extension id => (C.extension id).order a b

/-- Entries compared from the left, where each value on the left is ready to be compared. -/
def orderEntries : List (Entry (Datum → Ordering)) → List (Entry Datum) → Ordering
  | a :: as, b :: bs =>
    if a.kind.base = b.kind.base then (a.value b.value).then (orderEntries as bs)
    else C.orderKinds a.kind b.kind
  | _, _ => .eq

/-- Lists or tables compared, where each value on the left is ready to be compared. -/
def orderBlocks (keyKind : Kind) (entries : List (Entry (Datum → Ordering))) (otherKeyKind : Kind)
    (others : List (Entry Datum)) : Ordering :=
  if keyKind.base = otherKeyKind.base then
    (compare entries.length others.length).then (orderEntries C entries others)
  else C.orderKinds keyKind otherKeyKind

/-- The reading that makes a value ready to be compared. -/
def ordering : Reading (Datum → Ordering) where
  leaf := Kind.orderLeaf C
  list l b :=
    match b.list? with
    | some m => orderBlocks C l.keyKind l.entries m.keyKind m.entries
    | none => .gt
  table t b :=
    match b.table? with
    | some u => orderBlocks C t.keyKind t.entries u.keyKind u.entries
    | none => .gt

/-- Two values compared. -/
def Kind.order (k : Kind) (a b : Datum) : Ordering := k.read (ordering C) a b

/-- Two lists compared. -/
def Listing.order (l m : Listing Datum) : Ordering :=
  (ordering C).list (l.map (Kind.order C)) (.list m)

/-- Two tables compared. -/
def Table.order (t u : Table Datum) : Ordering :=
  (ordering C).table (t.map (Kind.order C)) (.table u)

/-- Two tables compared, of which either may be missing. -/
def Table.orderOptional (t u : Option (Table Datum)) : Ordering := orderViews (Table.order C) t u

end OrderedTable
