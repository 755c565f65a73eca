import OrderedTable.Proofs.Table.Shape
import OrderedTable.Table.Walk

/-!
# Neighbours in the global order

What comes after a row and what comes before it, and how this changes when a row is put in between two
runs of rows or taken out from between them. Only the rows on either side of the place are concerned.

What comes before a row is what comes after it in the rows turned around, so each fact is stated once,
for a run of rows, and used in both directions.
-/

namespace OrderedTable.Table

variable {δ : Type}

/-- The rows of a run have handles of their own. -/
def Distinct (rows : List (Row δ)) : Prop := rows.Pairwise fun r s => r.handle ≠ s.handle

/-- Turned around they still have. -/
theorem Distinct.reverse {rows : List (Row δ)} (h : Distinct rows) : Distinct rows.reverse :=
  List.pairwise_reverse.2 (h.imp Ne.symm)

/-- The handle of the first row of a run. -/
def firstHandle (rows : List (Row δ)) : Option Handle := rows.head?.map (·.handle)

/-- The handle of the last row of a run. -/
def lastHandle (rows : List (Row δ)) : Option Handle := rows.getLast?.map (·.handle)

/-- The first row of a run turned around is its last one. -/
theorem firstHandle_reverse (rows : List (Row δ)) : firstHandle rows.reverse = lastHandle rows := by
  rw [firstHandle, lastHandle, List.head?_reverse]

theorem lastHandle_reverse (rows : List (Row δ)) : lastHandle rows.reverse = firstHandle rows := by
  rw [firstHandle, lastHandle, List.getLast?_reverse]

/-- The first handle is that of a row. -/
theorem exists_of_firstHandle {rows : List (Row δ)} {h : Handle} (hfirst : firstHandle rows = some h) :
    ∃ r ∈ rows, r.handle = h := by
  obtain ⟨r, hr, rfl⟩ := Option.map_eq_some_iff.1 hfirst
  exact ⟨r, List.mem_of_head? hr, rfl⟩

/-- So is the last one. -/
theorem exists_of_lastHandle {rows : List (Row δ)} {h : Handle} (hlast : lastHandle rows = some h) :
    ∃ r ∈ rows, r.handle = h := by
  obtain ⟨r, hr, rfl⟩ := Option.map_eq_some_iff.1 hlast
  exact ⟨r, List.mem_of_getLast? hr, rfl⟩

/-- Only an empty run has no first handle. -/
theorem firstHandle_eq_none {rows : List (Row δ)} : firstHandle rows = none ↔ rows = [] := by
  cases rows <;> simp [firstHandle]

/-- And none but an empty one has no last handle. -/
theorem lastHandle_eq_none {rows : List (Row δ)} : lastHandle rows = none ↔ rows = [] := by
  rw [lastHandle, Option.map_eq_none_iff, List.getLast?_eq_none_iff]

/-- The first handle of two runs is that of the first, unless this is empty. -/
theorem firstHandle_append (xs ys : List (Row δ)) :
    firstHandle (xs ++ ys) = (firstHandle xs).or (firstHandle ys) := by
  cases xs <;> rfl

/-- The last one is that of the second, unless that is empty. -/
theorem lastHandle_append (xs ys : List (Row δ)) :
    lastHandle (xs ++ ys) = (lastHandle ys).or (lastHandle xs) := by
  rw [← firstHandle_reverse, List.reverse_append, firstHandle_append, firstHandle_reverse,
    firstHandle_reverse]

/-! ## Within one run -/

/-- What comes after a row in two runs, one behind the other. -/
theorem handleAfter_append {xs : List (Row δ)} (hxs : Distinct xs) (ys : List (Row δ)) (h : Handle) :
    handleAfter h (xs ++ ys) =
      if lastHandle xs = some h then firstHandle ys
      else (handleAfter h xs).or (handleAfter h ys) := by
  -- along the first run; its last row is the one that the second run follows
  induction xs with
  | nil => rfl
  | cons x xs ih =>
    obtain ⟨hx, hrest⟩ := List.pairwise_cons.1 hxs
    cases xs with
    | nil =>
      by_cases hh : x.handle = h
      · simp [handleAfter, lastHandle, firstHandle, hh]
      · simp [handleAfter, lastHandle, hh]
    | cons y xs =>
      rw [List.cons_append, handleAfter, handleAfter]
      by_cases hh : x.handle = h
      · -- a row that is followed in its run is not the last of it
        have hne : lastHandle (x :: y :: xs) ≠ some h := by
          intro hlast
          rw [lastHandle, List.getLast?_cons_cons] at hlast
          obtain ⟨r, hr, hrh⟩ := exists_of_lastHandle hlast
          exact hx r hr (hh.trans hrh.symm)
        rw [if_pos hh, if_neg hne, if_pos hh]
        rfl
      · rw [if_neg hh, if_neg hh, ih hrest, lastHandle, lastHandle, List.getLast?_cons_cons]

/-- Another row in front does not change what comes after a row. -/
theorem handleAfter_cons_ne {r : Row δ} {h : Handle} (hr : r.handle ≠ h) (rows : List (Row δ)) :
    handleAfter h (r :: rows) = handleAfter h rows := by
  rw [handleAfter, if_neg hr]

/-- A row put in between comes after the last row before it, and nothing else changes for the others. -/
theorem handleAfter_between {xs ys : List (Row δ)} (hxs : Distinct xs) {r : Row δ} {h : Handle}
    (hr : r.handle ≠ h) :
    handleAfter h (xs ++ r :: ys) =
      if lastHandle xs = some h then some r.handle else handleAfter h (xs ++ ys) := by
  rw [handleAfter_append hxs, handleAfter_append hxs, handleAfter_cons_ne hr]
  split <;> rfl

/-- With a row taken out, what came after it comes after the last row before it. -/
theorem handleAfter_without {xs ys : List (Row δ)} (hxs : Distinct xs) {r : Row δ} {h : Handle}
    (hr : r.handle ≠ h) :
    handleAfter h (xs ++ ys) =
      if lastHandle xs = some h then firstHandle ys else handleAfter h (xs ++ r :: ys) := by
  rw [handleAfter_append hxs, handleAfter_append hxs, handleAfter_cons_ne hr]
  split <;> rfl

/-- After the last row of a first run comes the first row of the second. -/
theorem handleAfter_last {xs ys : List (Row δ)} (hxs : Distinct xs) {h : Handle}
    (hlast : lastHandle xs = some h) : handleAfter h (xs ++ ys) = firstHandle ys := by
  rw [handleAfter_append hxs, if_pos hlast]

/-- After a row comes the first row behind it. -/
theorem handleAfter_self {xs ys : List (Row δ)} {r : Row δ} (h : Distinct (xs ++ r :: ys)) :
    handleAfter r.handle (xs ++ r :: ys) = firstHandle ys := by
  have hsplit : xs ++ r :: ys = (xs ++ [r]) ++ ys := by simp
  rw [hsplit] at h ⊢
  exact handleAfter_last (List.pairwise_append.1 h).1 (by simp [lastHandle])

/-- Following what comes after meets the rows of a run one after another, and ends. -/
theorem follow_handleAfter {rows : List (Row δ)} (h : Distinct rows) {limit : Nat}
    (hlimit : rows.length ≤ limit) :
    follow (handleAfter · rows) limit (firstHandle rows) = rows.map (·.handle) := by
  -- by induction on the rows that are left, with those that were met in front
  suffices hrest : ∀ ys xs, rows = xs ++ ys → ∀ limit, ys.length ≤ limit →
      follow (handleAfter · rows) limit (firstHandle ys) = ys.map (·.handle) from
    hrest rows [] rfl limit hlimit
  intro ys
  induction ys with
  | nil => intro xs _ limit _; cases limit <;> rfl
  | cons y ys ih =>
    intro xs hsplit limit hlimit
    cases limit with
    | zero => cases hlimit
    | succ limit =>
      have hafter : handleAfter y.handle rows = firstHandle ys := by
        rw [hsplit]
        exact handleAfter_self (hsplit ▸ h)
      have htail := ih (xs ++ [y]) (by simp [hsplit]) limit (Nat.le_of_succ_le_succ hlimit)
      rw [← hafter] at htail
      show y.handle :: follow (handleAfter · rows) limit (handleAfter y.handle rows) = _
      rw [htail, List.map_cons]

/-- Nothing comes after a row that is not there. -/
theorem handleAfter_eq_none {rows : List (Row δ)} {h : Handle} (hrows : ∀ r ∈ rows, r.handle ≠ h) :
    handleAfter h rows = none := by
  induction rows with
  | nil => rfl
  | cons r rows ih =>
    rw [handleAfter_cons_ne (hrows r List.mem_cons_self)]
    exact ih fun s hs => hrows s (List.mem_cons_of_mem _ hs)

/-! ## In a table -/

/-- A handle shows no row if it is the handle of none. -/
theorem row?_eq_none {t : Table δ} {h : Handle} :
    t.row? h = none ↔ ∀ r ∈ t.rows, r.handle ≠ h := by
  simp [row?]

/-- A row is shown by its handle. -/
theorem Shaped.row?_of_mem {t : Table δ} (h : t.Shaped) {r : Row δ} (hr : r ∈ t.rows) :
    t.row? r.handle = some r := by
  cases hrow : t.row? r.handle with
  | none => exact absurd rfl (row?_eq_none.1 hrow r hr)
  | some s =>
    have hs := List.find?_some hrow
    have hmem := List.mem_of_find?_eq_some hrow
    have heq : s.handle = r.handle := by simpa using hs
    rw [h.eq_of_handle hr hmem heq.symm]

theorem previous?_eq (t : Table δ) (h : Handle) : t.previous? h = handleAfter h t.rows.reverse := rfl

theorem head?_eq (t : Table δ) : t.head? = firstHandle t.rows := rfl

theorem tail?_eq (t : Table δ) : t.tail? = lastHandle t.rows := rfl

section
variable {t u : Table δ} {xs ys : List (Row δ)} {r : Row δ} {h : Handle}

/-- Where the rows are cut, the row after the last one before the cut is the first one behind it. -/
theorem next?_of_split (hd : Distinct t.rows) (hsplit : t.rows = xs ++ ys)
    (hlast : lastHandle xs = some h) : t.next? h = firstHandle ys := by
  rw [hsplit] at hd
  rw [next?, hsplit]
  exact handleAfter_last (List.pairwise_append.1 hd).1 hlast

/-- Where the rows are cut, the row before the first one behind the cut is the last one before it. -/
theorem previous?_of_split (hd : Distinct t.rows) (hsplit : t.rows = xs ++ ys)
    (hfirst : firstHandle ys = some h) : t.previous? h = lastHandle xs := by
  have hreverse : t.rows.reverse = ys.reverse ++ xs.reverse := by rw [hsplit, List.reverse_append]
  have hd := hd.reverse
  rw [hreverse] at hd
  rw [previous?_eq, hreverse, ← firstHandle_reverse]
  exact handleAfter_last (List.pairwise_append.1 hd).1 ((lastHandle_reverse ys).trans hfirst)

/-- Two tables of which one has a row more, between two runs of rows that they share. -/
structure Between (t u : Table δ) (xs : List (Row δ)) (r : Row δ) (ys : List (Row δ)) : Prop where
  without : t.rows = xs ++ ys
  within : u.rows = xs ++ r :: ys
  distinct : Distinct u.rows

namespace Between

/-- The rows on either side have handles of their own, in either direction. -/
theorem runs (hb : Between t u xs r ys) : Distinct xs ∧ Distinct ys.reverse := by
  have h := hb.distinct
  rw [hb.within] at h
  obtain ⟨hxs, hys, -⟩ := List.pairwise_append.1 h
  exact ⟨hxs, Distinct.reverse (List.pairwise_cons.1 hys).2⟩

/-- Turned around, the two runs change places. -/
theorem reverse_without (hb : Between t u xs r ys) : t.rows.reverse = ys.reverse ++ xs.reverse := by
  rw [hb.without, List.reverse_append]

/-- And the row stays between them. -/
theorem reverse_within (hb : Between t u xs r ys) :
    u.rows.reverse = ys.reverse ++ r :: xs.reverse := by
  simp [hb.within]

/-- The neighbours of the row. -/
theorem neighbours (hb : Between t u xs r ys) :
    u.previous? r.handle = lastHandle xs ∧ u.next? r.handle = firstHandle ys := by
  constructor
  · rw [previous?_eq, hb.reverse_within,
      handleAfter_self (hb.reverse_within ▸ Distinct.reverse hb.distinct), firstHandle_reverse]
  · rw [next?, hb.within, handleAfter_self (hb.within ▸ hb.distinct)]

/-- The neighbours of the other rows once the row is in. -/
theorem neighbours_within (hb : Between t u xs r ys) (hh : r.handle ≠ h) :
    (u.previous? h = if firstHandle ys = some h then some r.handle else t.previous? h) ∧
      u.next? h = if lastHandle xs = some h then some r.handle else t.next? h := by
  constructor
  · rw [previous?_eq, previous?_eq, hb.reverse_within, hb.reverse_without,
      handleAfter_between hb.runs.2 hh, lastHandle_reverse]
  · rw [next?, next?, hb.within, hb.without, handleAfter_between hb.runs.1 hh]

/-- The neighbours of the other rows once the row is out. -/
theorem neighbours_without (hb : Between t u xs r ys) (hh : r.handle ≠ h) :
    (t.previous? h = if firstHandle ys = some h then lastHandle xs else u.previous? h) ∧
      t.next? h = if lastHandle xs = some h then firstHandle ys else u.next? h := by
  constructor
  · rw [previous?_eq, previous?_eq, hb.reverse_within, hb.reverse_without,
      handleAfter_without hb.runs.2 hh, lastHandle_reverse, firstHandle_reverse]
  · rw [next?, next?, hb.within, hb.without, handleAfter_without hb.runs.1 hh]

/-- The row comes first if none is before it. -/
theorem head?_within (hb : Between t u xs r ys) :
    u.head? = if (lastHandle xs).isNone then some r.handle else t.head? := by
  rw [head?_eq, head?_eq, hb.within, hb.without, firstHandle_append, firstHandle_append]
  -- with no row before it, the run before it is empty
  cases hlast : lastHandle xs with
  | none =>
    rw [lastHandle_eq_none.1 hlast]
    rfl
  | some h =>
    cases hfirst : firstHandle xs with
    | none =>
      rw [firstHandle_eq_none.1 hfirst] at hlast
      cases hlast
    | some h' => rfl

/-- The row comes last if none is behind it. -/
theorem tail?_within (hb : Between t u xs r ys) :
    u.tail? = if (firstHandle ys).isNone then some r.handle else t.tail? := by
  have hcons : r :: ys = [r] ++ ys := rfl
  rw [tail?_eq, tail?_eq, hb.within, hb.without, hcons, lastHandle_append, lastHandle_append,
    lastHandle_append]
  cases hfirst : firstHandle ys with
  | none =>
    rw [firstHandle_eq_none.1 hfirst]
    rfl
  | some h =>
    cases hlast : lastHandle ys with
    | none =>
      rw [lastHandle_eq_none.1 hlast] at hfirst
      cases hfirst
    | some h' => rfl

/-- Without the row the one behind it comes first, if the row did. -/
theorem head?_without (hb : Between t u xs r ys) :
    t.head? = if u.head? = some r.handle then firstHandle ys else u.head? := by
  rw [head?_eq, head?_eq, hb.within, hb.without, firstHandle_append, firstHandle_append]
  cases hfirst : firstHandle xs with
  | none => exact (if_pos rfl).symm
  | some h =>
    have hne : h ≠ r.handle := by
      obtain ⟨s, hs, rfl⟩ := exists_of_firstHandle hfirst
      have hd := hb.distinct
      rw [hb.within] at hd
      exact (List.pairwise_append.1 hd).2.2 s hs r List.mem_cons_self
    exact (if_neg fun heq => hne (Option.some.inj heq)).symm

/-- Without the row the one before it comes last, if the row did. -/
theorem tail?_without (hb : Between t u xs r ys) :
    t.tail? = if u.tail? = some r.handle then lastHandle xs else u.tail? := by
  have hcons : r :: ys = [r] ++ ys := rfl
  rw [tail?_eq, tail?_eq, hb.within, hb.without, hcons, lastHandle_append, lastHandle_append,
    lastHandle_append]
  cases hlast : lastHandle ys with
  | none => exact (if_pos rfl).symm
  | some h =>
    have hne : h ≠ r.handle := by
      obtain ⟨s, hs, rfl⟩ := exists_of_lastHandle hlast
      have hd := hb.distinct
      rw [hb.within] at hd
      exact ((List.pairwise_cons.1 (List.pairwise_append.1 hd).2.1).1 s hs).symm
    exact (if_neg fun heq => hne (Option.some.inj heq)).symm

/-- The row can be found by its handle, and the others as without it. -/
theorem row?_within (hb : Between t u xs r ys) :
    u.row? h = if r.handle = h then some r else t.row? h := by
  rw [row?, row?, hb.within, hb.without, List.find?_append, List.find?_append]
  -- no row before it has its handle
  by_cases hh : r.handle = h
  · have habsent : xs.find? (·.handle = h) = none := by
      refine List.find?_eq_none.2 fun s hs => ?_
      have hd := hb.distinct
      rw [hb.within] at hd
      have := (List.pairwise_append.1 hd).2.2 s hs r List.mem_cons_self
      simpa [← hh] using this
    rw [if_pos hh, habsent, List.find?_cons_of_pos (by simpa using hh)]
    rfl
  · rw [if_neg hh, List.find?_cons_of_neg (by simpa using hh)]

/-- Without the row nothing goes by its handle. -/
theorem row?_without (hb : Between t u xs r ys) :
    t.row? h = if r.handle = h then none else u.row? h := by
  -- nor has any row behind it
  by_cases hh : r.handle = h
  · rw [if_pos hh, row?, hb.without]
    refine List.find?_eq_none.2 fun s hs => ?_
    have hd := hb.distinct
    rw [hb.within] at hd
    obtain ⟨-, hys, hacross⟩ := List.pairwise_append.1 hd
    have hne : s.handle ≠ r.handle := by
      rcases List.mem_append.1 hs with hs | hs
      · exact hacross s hs r List.mem_cons_self
      · exact ((List.pairwise_cons.1 hys).1 s hs).symm
    simpa [← hh] using hne
  · rw [if_neg hh, hb.row?_within, if_neg hh]

end Between

/-- Every row stands between those before it and those after it. -/
theorem exists_between (h : Distinct u.rows) (hr : r ∈ u.rows) :
    ∃ xs ys, Between (u.erase r.handle) u xs r ys := by
  obtain ⟨xs, ys, hsplit⟩ := List.append_of_mem hr
  refine ⟨xs, ys, ?_, hsplit, h⟩
  rw [hsplit] at h
  obtain ⟨-, hys, hacross⟩ := List.pairwise_append.1 h
  -- erasing by the handle takes out this row only
  have hxs : ∀ s ∈ xs, s.handle ≠ r.handle := fun s hs => hacross s hs r List.mem_cons_self
  have hys : ∀ s ∈ ys, s.handle ≠ r.handle := fun s hs => ((List.pairwise_cons.1 hys).1 s hs).symm
  rw [erase, hsplit, List.filter_append, List.filter_cons_of_neg (by simp),
    List.filter_eq_self.2 (fun s hs => by simpa using hxs s hs),
    List.filter_eq_self.2 (fun s hs => by simpa using hys s hs)]

end

/-- A new row stands between the rows ahead of its place and those behind it. -/
theorem Shaped.between_insert {t : Table Datum} {C : Catalogue} (h : t.Shaped) (e : Entry Datum) :
    Between t (t.insert C e) (t.ahead C e.key) (t.newRow C e) (t.behind C e.key) :=
  ⟨(h.ahead_append_behind e.key).symm, rows_insert t e, (h.insert e).distinct⟩

end OrderedTable.Table
