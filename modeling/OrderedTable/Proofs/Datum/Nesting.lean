import OrderedTable.Proofs.Datum.Parts

/-!
# How deep data nest

The *nesting* of a datum is the greatest number of lists and tables that lie one inside another in it, whether
through keys or through values; a box is no level. Only what has parts nests (`Datum.nesting_of_views`), one level
deeper than the deepest of its entries (`Datum.nesting_of_parts`).
-/

namespace OrderedTable

mutual

/-- How many lists and tables lie one inside another, the datum itself included. -/
def Datum.nesting : Datum → Nat
  | .list l => Listing.nesting l + 1
  | .table t => Table.nesting t + 1
  | .boxed d => Datum.nesting d
  | .scalar _ | .text _ | .bytes _ | .plainText .. | .plainBytes .. | .unit => 0

/-- How many lists and tables lie one inside another within a list. -/
def Listing.nesting : Listing Datum → Nat
  | ⟨_, entries⟩ => Entry.deepest entries

/-- How many lists and tables lie one inside another within a table. -/
def Table.nesting : Table Datum → Nat
  | ⟨_, _, _, _, rows⟩ => Row.deepest rows

/-- The nesting of the keys and values of entries. -/
def Entry.deepest : List (Entry Datum) → Nat
  | [] => 0
  | ⟨key, value, _⟩ :: rest => max (max (Datum.nesting key) (Datum.nesting value)) (Entry.deepest rest)

/-- The nesting of the keys and values of rows. -/
def Row.deepest : List (Row Datum) → Nat
  | [] => 0
  | ⟨⟨key, value, _⟩, _, _⟩ :: rest =>
    max (max (Datum.nesting key) (Datum.nesting value)) (Row.deepest rest)

end

/-- The nesting of an entry, in its key or its value. -/
def Entry.nesting (e : Entry Datum) : Nat := max e.key.nesting e.value.nesting

/-- The deepest of some entries is the first one or one of the others. -/
theorem Entry.deepest_cons (e : Entry Datum) (es : List (Entry Datum)) :
    Entry.deepest (e :: es) = max e.nesting (Entry.deepest es) := by
  rw [deepest]
  rfl

/-- Entries are no deeper than a number if none of them is. -/
theorem Entry.deepest_le {es : List (Entry Datum)} {n : Nat} :
    Entry.deepest es ≤ n ↔ ∀ e ∈ es, e.nesting ≤ n := by
  induction es with
  | nil => simp [deepest]
  | cons e es ih => rw [deepest_cons, Nat.max_le, ih, List.forall_mem_cons]

/-- Rows are as deep as their entries. -/
theorem Row.deepest_eq (rows : List (Row Datum)) : Row.deepest rows = Entry.deepest (rows.map Row.toEntry) := by
  induction rows with
  | nil => rw [deepest, List.map_nil, Entry.deepest]
  | cons r rows ih => rw [deepest, ih, List.map_cons, Entry.deepest_cons]; rfl

/-- A list is as deep as its entries. -/
theorem Listing.nesting_eq (l : Listing Datum) : l.nesting = Entry.deepest l.entries := by
  rw [nesting]

/-- A table is as deep as its entries. -/
theorem Table.nesting_eq (t : Table Datum) : t.nesting = Entry.deepest t.entries := by
  rw [nesting, Row.deepest_eq]
  rfl

/-- Where entries nest too deep, there is a first one that does. -/
theorem Entry.exists_first_deep {es : List (Entry Datum)} {n : Nat} (h : n < Entry.deepest es) :
    ∃ before e after, es = before ++ e :: after ∧ (∀ f ∈ before, f.nesting ≤ n) ∧ n < e.nesting := by
  induction es with
  | nil =>
    rw [deepest] at h
    exact absurd h (Nat.not_lt_zero n)
  | cons e es ih =>
    by_cases he : n < e.nesting
    · exact ⟨[], e, es, rfl, List.forall_mem_nil _, he⟩
    · rw [deepest_cons] at h
      obtain ⟨before, f, after, rfl, hbefore, hf⟩ := ih (by omega)
      exact ⟨e :: before, f, after, rfl, List.forall_mem_cons.2 ⟨Nat.not_lt.1 he, hbefore⟩, hf⟩

/-- What has parts nests one level deeper than they do. -/
theorem Datum.nesting_of_parts {k : Kind} {d : Datum} {p : Parts} (h : k.parts? d = some p) :
    d.nesting = Entry.deepest p.entries + 1 := by
  rcases Kind.parts?_eq_some h with ⟨-, l, hd, rfl⟩ | ⟨-, t, hd, rfl⟩
  · rcases list?_eq_some_iff.1 hd with rfl | rfl
    · rw [nesting, Listing.nesting_eq]; rfl
    · rw [nesting, nesting, Listing.nesting_eq]; rfl
  · rcases table?_eq_some_iff.1 hd with rfl | rfl
    · rw [nesting, Table.nesting_eq]; rfl
    · rw [nesting, nesting, Table.nesting_eq]; rfl

/-- A leaf nests in nothing if there is nothing in it but what is seen. -/
theorem Datum.nesting_of_views {d : Datum}
    (h : d.scalar?.isSome ∨ d.textBytes?.isSome ∨ d.bytes?.isSome) : d.nesting = 0 := by
  cases d with
  | boxed d => cases d <;> simp_all [nesting, scalar?, textBytes?, bytes?, peel]
  | list | table => simp [scalar?, textBytes?, bytes?, peel] at h
  | scalar | text | bytes | plainText | plainBytes | unit => rw [nesting]

end OrderedTable
