import OrderedTable.Table.Access

/-!
# Walking a table

The rows form one chain in global order. It can be followed from handle to handle in either direction
(`next?`, `previous?`), or taken off row by row at both ends (`Span`).
-/

namespace OrderedTable

namespace Table

variable {δ : Type}

/-- The handle of the first row. -/
def head? (t : Table δ) : Option Handle := t.rows.head?.map (·.handle)

/-- The handle of the last row. -/
def tail? (t : Table δ) : Option Handle := t.rows.getLast?.map (·.handle)

/-- The handle after the given one in a run of rows. -/
def handleAfter (h : Handle) : List (Row δ) → Option Handle
  | r :: rest => if r.handle = h then rest.head?.map (·.handle) else handleAfter h rest
  | [] => none

/-- The handle of the row after the given one. -/
def next? (t : Table δ) (h : Handle) : Option Handle := handleAfter h t.rows

/-- The handle of the row before the given one. -/
def previous? (t : Table δ) (h : Handle) : Option Handle := handleAfter h t.rows.reverse

/-- The handles met from `start` on by taking `step` again and again, at most `limit` of them. -/
def follow (step : Handle → Option Handle) : (limit : Nat) → (start : Option Handle) → List Handle
  | limit + 1, some h => h :: follow step limit (step h)
  | _, _ => []

/-- The handles from the first row on, following `next?`. -/
def forward (t : Table δ) : List Handle := follow t.next? t.size t.head?

/-- The handles from the last row back, following `previous?`. -/
def backward (t : Table δ) : List Handle := follow t.previous? t.size t.tail?

end Table

/-- The rows of a table that an iteration has not given out yet. -/
structure Span (δ : Type) where
  rows : List (Row δ)

/-- An iteration over all rows. -/
def Table.span {δ : Type} (t : Table δ) : Span δ := ⟨t.rows⟩

namespace Span

variable {δ : Type}

/-- How many rows are left. -/
def length (s : Span δ) : Nat := s.rows.length

/-- The first of the rows left, and the others. -/
def next (s : Span δ) : Option (Row δ) × Span δ := (s.rows.head?, ⟨s.rows.tail⟩)

/-- The last of the rows left, and the others. -/
def nextBack (s : Span δ) : Option (Row δ) × Span δ := (s.rows.getLast?, ⟨s.rows.dropLast⟩)

end Span

end OrderedTable
