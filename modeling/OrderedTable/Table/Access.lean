import OrderedTable.Table.Placement

/-!
# Finding and changing rows

A row is found by its key or by its handle. Of several rows with one key the oldest is found, and it
is the one that is removed. Removal by handle looks for the row in the bucket that its key belongs to
now; where the kind of the keys was changed since, that may be another bucket than the one the row
was filed under, and then the row is not removed.
-/

namespace OrderedTable.Table

variable {δ : Type}

/-- The row with a handle. -/
def row? (t : Table δ) (h : Handle) : Option (Row δ) :=
  t.rows.find? (·.handle = h)

/-- The table without the row with a handle. -/
def erase (t : Table δ) (h : Handle) : Table δ :=
  { t with rows := t.rows.filter (·.handle ≠ h) }

/-- The table with the row of a handle changed. -/
def modify (t : Table δ) (h : Handle) (change : Row δ → Row δ) : Table δ :=
  { t with rows := t.rows.map fun r => if r.handle = h then change r else r }

/-- Has the keys read under another kind. No row moves. -/
def setKeyKind (t : Table δ) (k : Kind) : Table δ := { t with keyKind := k }

variable (C : Catalogue)

/-- The oldest row with a key. A key that the kind of the keys does not accept has none. -/
def find? (t : Table Datum) (key : Datum) : Option (Row Datum) :=
  let key := key.peel
  if t.keyKind.accepts C key then
    let rows := t.bucketRows (t.bucketOf C key)
    rows[partitionPoint (fun r => t.keyKind.order C r.key key == .lt) rows]?.filter
      fun r => t.keyKind.order C r.key key = .eq
  else none

/-- Whether there is a row with a key. -/
def contains (t : Table Datum) (key : Datum) : Bool := (t.find? C key).isSome

/-- The value of the oldest row with a key. -/
def get? (t : Table Datum) (key : Datum) : Option Datum := (t.find? C key).map (·.value)

/-- Gives the oldest row with a key another value, which its kind need not accept. -/
def setValue? (t : Table Datum) (key value : Datum) : Option (Table Datum) :=
  (t.find? C key).map fun found => t.modify found.handle fun r => { r with value }

/-- Gives a row another kind, if that accepts the value of the row. -/
def setValueKind (t : Table Datum) (h : Handle) (k : Kind) : Except TableFault (Table Datum) :=
  match t.row? h with
  | some r =>
    if k.accepts C r.value then .ok (t.modify h fun r => { r with kind := k })
    else .error (.valueKind (C.name k))
  | none => .error (.valueKind (C.name k))

/-- Removes the oldest row with a key: what it held, and the table without it. -/
def remove? (t : Table Datum) (key : Datum) : Option (Entry Datum × Table Datum) :=
  (t.find? C key).map fun r => (r.toEntry, t.erase r.handle)

/-- Removes the row with a handle: what it held, and the table without it. -/
def removeRow? (t : Table Datum) (h : Handle) : Option (Entry Datum × Table Datum) :=
  (t.row? h).bind fun r =>
    if r.bucket = t.bucketOf C r.key then some (r.toEntry, t.erase h) else none

end OrderedTable.Table
