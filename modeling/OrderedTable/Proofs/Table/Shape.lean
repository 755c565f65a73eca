import OrderedTable.Table.Access

/-!
# The shape of a table

Whatever is done to a table, its rows stand in the order of their buckets, every bucket is one of the
table's, and no two rows share a handle (`Table.Shaped`). None of this depends on what the keys are or
on the kind under which they are read.

A row is inserted between the rows ahead of its place and those behind it: `Table.ahead` and
`Table.behind` cut the rows at that place, and `Table.rows_insert` is all that later proofs need to
know of `Table.insert`.
-/

namespace OrderedTable.Table

/-! ## The place of a new row -/

section
variable (C : Catalogue)

/-- The rows before the place of a new row with a key. -/
def ahead (t : Table Datum) (key : Datum) : List (Row Datum) :=
  let bucket := t.bucketOf C key
  t.rows.filter (·.bucket < bucket) ++
    (t.bucketRows bucket).take (t.placeFor C key (t.bucketRows bucket))

/-- The rows from the place of a new row with a key on. -/
def behind (t : Table Datum) (key : Datum) : List (Row Datum) :=
  let bucket := t.bucketOf C key
  (t.bucketRows bucket).drop (t.placeFor C key (t.bucketRows bucket)) ++
    t.rows.filter (bucket < ·.bucket)

/-- The row that an entry becomes. -/
def newRow (t : Table Datum) (e : Entry Datum) : Row Datum := ⟨e, t.bucketOf C e.key, t.nextHandle⟩

variable {C}

/-- The new row stands between the rows ahead of its place and those behind it. -/
theorem rows_insert (t : Table Datum) (e : Entry Datum) :
    (t.insert C e).rows = t.ahead C e.key ++ t.newRow C e :: t.behind C e.key := by
  simp [insert, ahead, behind, newRow]

/-- The rows ahead are in no later bucket than the new row. -/
theorem bucket_le_of_mem_ahead {t : Table Datum} {key : Datum} {r : Row Datum}
    (h : r ∈ t.ahead C key) : r.bucket ≤ t.bucketOf C key := by
  rcases List.mem_append.1 h with h | h
  · exact Nat.le_of_lt (by simpa using (List.mem_filter.1 h).2)
  · exact Nat.le_of_eq (by simpa [bucketRows] using (List.mem_filter.1 (List.mem_of_mem_take h)).2)

/-- Those behind are in no earlier one. -/
theorem le_bucket_of_mem_behind {t : Table Datum} {key : Datum} {r : Row Datum}
    (h : r ∈ t.behind C key) : t.bucketOf C key ≤ r.bucket := by
  rcases List.mem_append.1 h with h | h
  · refine Nat.le_of_eq (Eq.symm ?_)
    simpa [bucketRows] using (List.mem_filter.1 (List.mem_of_mem_drop h)).2
  · exact Nat.le_of_lt (by simpa using (List.mem_filter.1 h).2)

end

/-! ## The shape -/

variable {δ : Type}

theorem mem_bucketRows {t : Table δ} {bucket : Nat} {r : Row δ} :
    r ∈ t.bucketRows bucket ↔ r ∈ t.rows ∧ r.bucket = bucket := by
  simp [bucketRows]

/-- The rows stand in the order of their buckets, and their handles are their own. -/
structure Shaped (t : Table δ) : Prop where
  capacity_pos : 0 < t.capacity
  sorted : t.rows.Pairwise fun r s => r.bucket ≤ s.bucket
  bucket_lt : ∀ r ∈ t.rows, r.bucket < t.capacity
  distinct : t.rows.Pairwise fun r s => r.handle ≠ s.handle
  serial_lt : ∀ r ∈ t.rows, r.handle.serial < t.nextSerial

/-- Rows in the order of their buckets fall into those before a bucket, in it and after it. -/
theorem split_at_bucket {rows : List (Row δ)} (h : rows.Pairwise fun r s => r.bucket ≤ s.bucket)
    (bucket : Nat) :
    rows.filter (·.bucket < bucket) ++ rows.filter (·.bucket = bucket) ++
      rows.filter (bucket < ·.bucket) = rows := by
  induction rows with
  | nil => rfl
  | cons r rows ih =>
    obtain ⟨hr, hrows⟩ := List.pairwise_cons.1 h
    have ih := ih hrows
    -- from a row of the bucket on none comes before it, and from a later one on none is in it
    rcases Nat.lt_trichotomy r.bucket bucket with hlt | heq | hgt
    · rw [List.filter_cons_of_pos (by simpa using hlt),
        List.filter_cons_of_neg (by simpa using Nat.ne_of_lt hlt),
        List.filter_cons_of_neg (by simpa using Nat.le_of_lt hlt)]
      rw [List.cons_append, List.cons_append, ih]
    · have none_before : rows.filter (·.bucket < bucket) = [] := by
        refine List.filter_eq_nil_iff.2 fun s hs => ?_
        have := hr s hs
        simp only [decide_eq_true_eq]
        omega
      rw [none_before, List.nil_append] at ih
      rw [List.filter_cons_of_neg (by simpa using Nat.le_of_eq heq.symm),
        List.filter_cons_of_pos (by simpa using heq),
        List.filter_cons_of_neg (by simpa using Nat.le_of_eq heq),
        none_before, List.nil_append, List.cons_append, ih]
    · have none_before : rows.filter (·.bucket < bucket) = [] := by
        refine List.filter_eq_nil_iff.2 fun s hs => ?_
        have := hr s hs
        simp only [decide_eq_true_eq]
        omega
      have none_within : rows.filter (·.bucket = bucket) = [] := by
        refine List.filter_eq_nil_iff.2 fun s hs => ?_
        have := hr s hs
        simp only [decide_eq_true_eq]
        omega
      rw [none_before, none_within, List.nil_append, List.nil_append] at ih
      rw [List.filter_cons_of_neg (by simpa using Nat.le_of_lt hgt),
        List.filter_cons_of_neg (by simpa using Nat.ne_of_gt hgt),
        List.filter_cons_of_pos (by simpa using hgt),
        none_before, none_within, List.nil_append, List.nil_append, ih]

/-- What a change leaves as it is stays as it is when it is made to one row only. -/
theorem changed_eq {β : Type} {f : Row δ → β} {change : Row δ → Row δ} (h : ∀ r, f (change r) = f r)
    (handle : Handle) (r : Row δ) : f (if r.handle = handle then change r else r) = f r := by
  split
  · exact h r
  · rfl

namespace Shaped

variable {t : Table Datum} {C : Catalogue}

/-- Ahead of a place and behind it stand all rows, in their order. -/
theorem ahead_append_behind (h : t.Shaped) (key : Datum) :
    t.ahead C key ++ t.behind C key = t.rows := by
  rw [ahead, behind, List.append_assoc, ← List.append_assoc (List.take _ _), List.take_append_drop,
    ← List.append_assoc]
  exact split_at_bucket h.sorted _

/-- The bucket of a key is one of those that the table has, also if the key is not accepted. -/
theorem bucketOf_lt (h : t.Shaped) (key : Datum) : t.bucketOf C key < t.capacity := by
  unfold bucketOf
  split
  · exact Nat.mod_lt _ h.capacity_pos
  · exact h.capacity_pos

/-- Two rows with one handle are one. -/
theorem eq_of_handle {t : Table δ} (h : t.Shaped) {r s : Row δ} (hr : r ∈ t.rows) (hs : s ∈ t.rows)
    (heq : r.handle = s.handle) : r = s := by
  have := h.distinct
  generalize t.rows = rows at hr hs this
  -- handles are told apart in pairs, so the two stand at one place
  induction rows with
  | nil => cases hr
  | cons x rows ih =>
    obtain ⟨hx, hrows⟩ := List.pairwise_cons.1 this
    rcases List.mem_cons.1 hr with rfl | hr'
    · rcases List.mem_cons.1 hs with rfl | hs'
      · rfl
      · exact absurd heq (hx s hs')
    · rcases List.mem_cons.1 hs with rfl | hs'
      · exact absurd heq.symm (hx r hr')
      · exact ih hr' hs' hrows

/-- An empty table is in its shape. -/
theorem empty (keyKind : Kind) (wanted : Nat) : (Table.empty keyKind wanted : Table δ).Shaped where
  capacity_pos := by simp only [Table.empty, minCapacity]; omega
  sorted := .nil
  bucket_lt := by rintro r ⟨⟩
  distinct := .nil
  serial_lt := by rintro r ⟨⟩

/-- A row of the table with a new row is that row or was there before. -/
theorem mem_insert (h : t.Shaped) (e : Entry Datum) {r : Row Datum} :
    r ∈ (t.insert C e).rows ↔ r = t.newRow C e ∨ r ∈ t.rows := by
  rw [rows_insert, ← h.ahead_append_behind (C := C) e.key]
  simp only [List.mem_append, List.mem_cons]
  constructor
  · rintro (hr | rfl | hr)
    · exact .inr (.inl hr)
    · exact .inl rfl
    · exact .inr (.inr hr)
  · rintro (rfl | hr | hr)
    · exact .inr (.inl rfl)
    · exact .inl hr
    · exact .inr (.inr hr)

/-- What holds between rows in their order holds with a new row, if it holds between that row and those
on either side. -/
theorem pairwise_insert (h : t.Shaped) (e : Entry Datum) {R : Row Datum → Row Datum → Prop}
    (hrows : t.rows.Pairwise R) (hahead : ∀ r ∈ t.ahead C e.key, R r (t.newRow C e))
    (hbehind : ∀ r ∈ t.behind C e.key, R (t.newRow C e) r) : (t.insert C e).rows.Pairwise R := by
  rw [← h.ahead_append_behind (C := C) e.key, List.pairwise_append] at hrows
  obtain ⟨hbefore, hafter, hacross⟩ := hrows
  rw [rows_insert]
  refine List.pairwise_append.2 ⟨hbefore, List.pairwise_cons.2 ⟨hbehind, hafter⟩, ?_⟩
  intro r hr s hs
  rcases List.mem_cons.1 hs with rfl | hs
  · exact hahead r hr
  · exact hacross r hr s hs

theorem mem_of_mem_ahead (h : t.Shaped) {key : Datum} {r : Row Datum} (hr : r ∈ t.ahead C key) :
    r ∈ t.rows :=
  h.ahead_append_behind key ▸ List.mem_append_left _ hr

theorem mem_of_mem_behind (h : t.Shaped) {key : Datum} {r : Row Datum} (hr : r ∈ t.behind C key) :
    r ∈ t.rows :=
  h.ahead_append_behind key ▸ List.mem_append_right _ hr

/-- The next handle is that of no row. -/
theorem handle_ne_next (h : t.Shaped) {r : Row Datum} (hr : r ∈ t.rows) :
    r.handle ≠ t.nextHandle := by
  intro heq
  have hlt := h.serial_lt r hr
  rw [heq] at hlt
  exact Nat.lt_irrefl _ hlt

/-- An insertion keeps the shape. -/
theorem insert (h : t.Shaped) (e : Entry Datum) : (t.insert C e).Shaped := by
  refine ⟨h.capacity_pos, ?_, ?_, ?_, ?_⟩
  · exact h.pairwise_insert e h.sorted (fun _ => bucket_le_of_mem_ahead)
      fun _ => le_bucket_of_mem_behind
  · intro r hr
    rcases (h.mem_insert e).1 hr with rfl | hr
    · exact h.bucketOf_lt e.key
    · exact h.bucket_lt r hr
  · exact h.pairwise_insert e h.distinct (fun _ hr => h.handle_ne_next (h.mem_of_mem_ahead hr))
      fun _ hr => (h.handle_ne_next (h.mem_of_mem_behind hr)).symm
  · intro r hr
    rcases (h.mem_insert e).1 hr with rfl | hr
    · exact Nat.lt_succ_self _
    · exact Nat.lt_succ_of_lt (h.serial_lt r hr)

/-- So does erasing a row. -/
theorem erase {t : Table δ} (h : t.Shaped) (handle : Handle) : (t.erase handle).Shaped where
  capacity_pos := h.capacity_pos
  sorted := h.sorted.filter _
  bucket_lt r hr := h.bucket_lt r (List.mem_filter.1 hr).1
  distinct := h.distinct.filter _
  serial_lt r hr := h.serial_lt r (List.mem_filter.1 hr).1

/-- A row may be changed where it stands, but for its bucket and its handle. -/
theorem modify {t : Table δ} (h : t.Shaped) (handle : Handle) {change : Row δ → Row δ}
    (hbucket : ∀ r, (change r).bucket = r.bucket) (hhandle : ∀ r, (change r).handle = r.handle) :
    (t.modify handle change).Shaped := by
  have bucket := changed_eq hbucket handle
  have name := changed_eq hhandle handle
  refine ⟨h.capacity_pos, ?_, ?_, ?_, ?_⟩
  · exact List.pairwise_map.2 (h.sorted.imp fun hrs => by rw [bucket, bucket]; exact hrs)
  · intro r hr
    obtain ⟨s, hs, rfl⟩ := List.mem_map.1 hr
    rw [bucket]
    exact h.bucket_lt s hs
  · exact List.pairwise_map.2 (h.distinct.imp fun hrs => by rw [name, name]; exact hrs)
  · intro r hr
    obtain ⟨s, hs, rfl⟩ := List.mem_map.1 hr
    rw [name]
    exact h.serial_lt s hs

theorem clear {t : Table δ} (h : t.Shaped) : t.clear.Shaped where
  capacity_pos := h.capacity_pos
  sorted := .nil
  bucket_lt := by rintro r ⟨⟩
  distinct := .nil
  serial_lt := by rintro r ⟨⟩

/-- The shape does not depend on the kind under which the keys are read. -/
theorem setKeyKind {t : Table δ} (h : t.Shaped) (k : Kind) : (t.setKeyKind k).Shaped :=
  ⟨h.capacity_pos, h.sorted, h.bucket_lt, h.distinct, h.serial_lt⟩

/-- The rows before a bucket are the buckets before it. -/
theorem filter_lt {t : Table δ} (h : t.Shaped) (n : Nat) :
    t.rows.filter (·.bucket < n) = (List.range n).flatMap t.bucketRows := by
  induction n with
  | zero => simp
  | succ n ih =>
    rw [List.range_succ, List.flatMap_append, ← ih, List.flatMap_singleton]
    have hsplit := split_at_bucket (h.sorted.filter fun r => decide (r.bucket < n + 1)) n
    rw [List.filter_filter, List.filter_filter, List.filter_filter] at hsplit
    -- cut off behind the bucket, the rows fall into those before it and those in it
    have none_after : t.rows.filter (fun r => decide (n < r.bucket) && decide (r.bucket < n + 1)) =
        [] := by
      refine List.filter_eq_nil_iff.2 fun r _ => ?_
      simp only [Bool.and_eq_true, decide_eq_true_eq]
      omega
    rw [none_after, List.append_nil] at hsplit
    rw [← hsplit, bucketRows]
    congr 1
    · refine List.filter_congr fun r _ => ?_
      rw [← Bool.decide_and]
      exact decide_eq_decide.2 (by omega)
    · refine List.filter_congr fun r _ => ?_
      rw [← Bool.decide_and]
      exact decide_eq_decide.2 (by omega)

/-- The rows are the buckets one after another. -/
theorem rows_eq_flatMap {t : Table δ} (h : t.Shaped) :
    t.rows = (List.range t.capacity).flatMap t.bucketRows := by
  rw [← h.filter_lt, List.filter_eq_self.2]
  intro r hr
  simpa using h.bucket_lt r hr

/-- The rows after a bucket are the buckets after it. -/
theorem filter_gt {t : Table δ} (h : t.Shaped) {bucket : Nat} (hlt : bucket < t.capacity) :
    t.rows.filter (bucket < ·.bucket) =
      ((List.range t.capacity).drop (bucket + 1)).flatMap t.bucketRows := by
  have hbefore := h.filter_lt (bucket + 1)
  rw [List.range_succ, List.flatMap_append, ← h.filter_lt, List.flatMap_singleton] at hbefore
  -- what is left of the rows behind the buckets up to this one
  have hall : t.rows = t.rows.filter (·.bucket < bucket + 1) ++
      ((List.range t.capacity).drop (bucket + 1)).flatMap t.bucketRows := by
    have htake : (List.range t.capacity).take (bucket + 1) = List.range (bucket + 1) := by
      rw [List.take_range, Nat.min_eq_left hlt]
    rw [h.filter_lt, ← htake, ← List.flatMap_append, List.take_append_drop]
    exact h.rows_eq_flatMap
  have hsplit := split_at_bucket h.sorted bucket
  rw [← bucketRows, ← hbefore] at hsplit
  exact List.append_cancel_left (hsplit.trans hall)

end Shaped

end OrderedTable.Table
