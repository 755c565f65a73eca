import Mathlib.Data.List.TakeWhile
import Mathlib.Logic.Function.Iterate
import OrderedTable.Catalogue.Specimens
import OrderedTable.Proofs.Table.Filing
import OrderedTable.Proofs.Table.Neighbours

/-!
# Removal by handle

A row keeps the bucket that it was filed under, but removal by its handle looks for it in the bucket that its
key belongs to now. The row is removed where the two are one (`Table.AtHome`) and stays otherwise. The bucket
of a row is that of its key at some moment of the history (`Table.run_filed`), so what leads a row away from
home is a change of the kind of the keys to one that digests or accepts the key in another way.

`Table.removeHead` removes the first row by its handle. Repeated, it empties a table just if all of its rows
are at home, and stops in front of the first that is not.
-/

namespace OrderedTable.Table

variable {C : Catalogue} {t u : Table Datum}

/-! ## Rows at home -/

/-- The row stands in the bucket that its key belongs to now. -/
def AtHome (C : Catalogue) (t : Table Datum) (r : Row Datum) : Prop := r.bucket = t.bucketOf C r.key

instance (r : Row Datum) : Decidable (t.AtHome C r) := inferInstanceAs (Decidable (_ = _))

/-- A row stands where it stood before, or in the bucket of its key at this step. -/
theorem Change.filed_at {op : Operation} (h : Change C t op u) (hs : t.Shaped) {r : Row Datum}
    (hr : r ∈ u.rows) : t.AtHome C r ∨ ∃ s ∈ t.rows, s.bucket = r.bucket ∧ s.key = r.key := by
  cases h with
  | none => exact .inr ⟨r, hr, rfl, rfl⟩
  | insert =>
    rcases (hs.mem_insert _).1 hr with rfl | hr
    · exact .inl rfl
    · exact .inr ⟨r, hr, rfl, rfl⟩
  | erase _ handle => exact .inr ⟨r, (List.mem_filter.1 hr).1, rfl, rfl⟩
  | modify _ handle change key bucket name =>
    obtain ⟨s, hs, rfl⟩ := List.mem_map.1 hr
    exact .inr ⟨s, hs, (changed_eq bucket handle s).symm,
      (changed_eq (f := (·.key)) key handle s).symm⟩
  | clear => cases hr
  | setKeyKind k => exact .inr ⟨r, hr, rfl, rfl⟩

/-- After a history, a row stands where a row with its key stood at the beginning, or in the bucket that the
key belonged to at some moment since. -/
theorem run_filed (hs : t.Shaped) {ops : List Operation} {r : Row Datum} (hr : r ∈ (t.run C ops).rows) :
    (∃ first, first <+: ops ∧ (t.run C first).AtHome C r) ∨
      ∃ s ∈ t.rows, s.bucket = r.bucket ∧ s.key = r.key := by
  -- a row that was there after the first step is traced back through that step
  induction ops generalizing t with
  | nil => exact .inr ⟨r, hr, rfl, rfl⟩
  | cons op ops ih =>
    have hchange := perform_change (C := C) t op
    rcases ih (hchange.shaped hs) hr with ⟨first, hfirst, hhome⟩ | ⟨s, hmem, hbucket, hkey⟩
    · exact .inl ⟨op :: first, (List.prefix_cons_inj op).2 hfirst, hhome⟩
    · rcases hchange.filed_at hs hmem with hhome | ⟨s', hmem', hbucket', hkey'⟩
      · refine .inl ⟨[], List.nil_prefix, ?_⟩
        rw [AtHome, ← hbucket, ← hkey]
        exact hhome
      · exact .inr ⟨s', hmem', hbucket'.trans hbucket, hkey'.trans hkey⟩

/-- Whether a row is at home depends on the base of the keys and on how many buckets there are. -/
theorem AtHome.congr {r : Row Datum} (hbase : t.keyKind.base = u.keyKind.base)
    (hcapacity : t.capacity = u.capacity) (h : t.AtHome C r) : u.AtHome C r :=
  h.trans (bucketOf_congr hbase hcapacity r.key)

/-- As long as the keys are read under one base, all rows stay at home. -/
theorem run_atHome (hs : t.Shaped) (ht : ∀ r ∈ t.rows, t.AtHome C r) {ops : List Operation}
    (hops : ∀ op ∈ ops, op.KeepsBase t.keyKind.base) :
    ∀ r ∈ (t.run C ops).rows, (t.run C ops).AtHome C r := by
  intro r hr
  have hbase := run_base (C := C) t hops
  have hcapacity := run_capacity (C := C) t ops
  rcases run_filed hs hr with ⟨first, hfirst, hhome⟩ | ⟨s, hmem, hbucket, hkey⟩
  · have hbefore := run_base (C := C) t fun op hop => hops op (hfirst.subset hop)
    exact hhome.congr (hbefore.trans hbase.symm) ((run_capacity t first).trans hcapacity.symm)
  · have hhome := ht s hmem
    rw [AtHome, hbucket, hkey] at hhome
    exact AtHome.congr (t := t) hbase.symm hcapacity.symm hhome

/-- In a table from any source all rows are at home. -/
theorem Source.atHome (h : Source C t) : ∀ r ∈ t.rows, t.AtHome C r := by
  obtain ⟨keyKind, wanted, added, rfl⟩ := h.exists_history
  refine run_atHome (.empty keyKind wanted) (by rintro r ⟨⟩) fun op hop k hk => ?_
  obtain ⟨e, -, rfl⟩ := List.mem_map.1 hop
  cases hk

/-! ## The first row removed -/

/-- A row is removed by its handle if it is at home, and not otherwise. -/
theorem removeRow?_of_mem (h : t.Shaped) {r : Row Datum} (hr : r ∈ t.rows) :
    t.removeRow? C r.handle = if t.AtHome C r then some (r.toEntry, t.erase r.handle) else none := by
  rw [removeRow?, h.row?_of_mem hr]
  rfl

/-- The table without its first row, if that can be removed by its handle. -/
def removeHead (C : Catalogue) (t : Table Datum) : Table Datum :=
  ((t.head?.bind (t.removeRow? C)).map Prod.snd).getD t

/-- Without rows there is none to remove. -/
theorem removeHead_nil (hrows : t.rows = []) : t.removeHead C = t := by
  rw [removeHead, head?, hrows]
  rfl

/-- The first row is removed if it is at home, and nothing is removed otherwise. -/
theorem removeHead_cons (h : t.Shaped) {r : Row Datum} {rest : List (Row Datum)}
    (hrows : t.rows = r :: rest) :
    t.removeHead C = if t.AtHome C r then t.erase r.handle else t := by
  have hhead : t.head? = some r.handle := by rw [head?, hrows]; rfl
  rw [removeHead, hhead, Option.bind_some, removeRow?_of_mem h (hrows ▸ List.mem_cons_self)]
  split <;> rfl

/-- Without its first row a table has the others. -/
theorem rows_erase_head (h : t.Shaped) {r : Row Datum} {rest : List (Row Datum)}
    (hrows : t.rows = r :: rest) : (t.erase r.handle).rows = rest := by
  have hdistinct := h.distinct
  rw [hrows] at hdistinct
  rw [erase, hrows, List.filter_cons_of_neg (by simp), List.filter_eq_self]
  intro s hs
  simpa using ((List.pairwise_cons.1 hdistinct).1 s hs).symm

/-- Removing the first row again and again takes off the rows at home before the first that is not. -/
theorem rows_removeHead (h : t.Shaped) (n : Nat) :
    ((removeHead C)^[n] t).rows =
      t.rows.drop (min n (t.rows.takeWhile (t.AtHome C ·)).length) := by
  -- once the first row is not at home, nothing changes any more
  induction n generalizing t with
  | zero => rw [Nat.zero_min]; rfl
  | succ n ih =>
    rw [Function.iterate_succ_apply]
    cases hrows : t.rows with
    | nil => rw [removeHead_nil hrows, ih h, hrows]; simp
    | cons r rest =>
      rw [removeHead_cons h hrows]
      by_cases hhome : t.AtHome C r
      · rw [if_pos hhome, ih (h.erase _), rows_erase_head h hrows,
          List.takeWhile_cons_of_pos (by simpa using hhome), List.length_cons, Nat.succ_min_succ,
          List.drop_succ_cons]
        rfl
      · rw [if_neg hhome, ih h, hrows, List.takeWhile_cons_of_neg (by simpa using hhome),
          List.length_nil, Nat.min_zero, Nat.min_zero]

/-- Removing the first row as often as there are rows empties the table if all rows are at home. -/
theorem removeHead_empties_iff (h : t.Shaped) :
    ((removeHead C)^[t.size] t).rows = [] ↔ ∀ r ∈ t.rows, t.AtHome C r := by
  -- all rows are at home if the run of those in front is all rows
  have hall : (∀ r ∈ t.rows, t.AtHome C r) ↔ t.rows.takeWhile (t.AtHome C ·) = t.rows := by
    simp [List.takeWhile_eq_self_iff]
  have hprefix := List.takeWhile_prefix (l := t.rows) (t.AtHome C ·)
  rw [rows_removeHead h, List.drop_eq_nil_iff, hall]
  constructor
  · intro hle
    apply hprefix.eq_of_length_le
    exact Nat.le_trans hle (Nat.min_le_right _ _)
  · intro heq
    rw [heq, size, Nat.min_self]

/-! ## After a history -/

/-- Every row of a table is filed under the bucket that its key belonged to at some moment. By its handle it is
removed, and only it, just if its key belongs there still; otherwise nothing is removed. So removing the first row
again and again empties the table if all rows are at home, which they are as long as the keys were read
under one base, and it stops at the first row that is not. -/
theorem removeRow?_after_run {start : Table Datum} (hstart : Source C start) (ops : List Operation) :
    let t := start.run C ops
    (∀ r ∈ t.rows,
      (∃ first, first <+: ops ∧ r.bucket = (start.run C first).bucketOf C r.key) ∧
      (t.removeRow? C r.handle =
        if r.bucket = t.bucketOf C r.key then some (r.toEntry, t.erase r.handle) else none) ∧
      ∃ before after, t.rows = before ++ r :: after ∧ (t.erase r.handle).rows = before ++ after) ∧
    (∀ n, ((removeHead C)^[n] t).rows =
      t.rows.drop (min n (t.rows.takeWhile fun r => r.bucket = t.bucketOf C r.key).length)) ∧
    (((removeHead C)^[t.size] t).rows = [] ↔ ∀ r ∈ t.rows, r.bucket = t.bucketOf C r.key) ∧
    ((∀ op ∈ ops, op.KeepsBase start.keyKind.base) → ∀ r ∈ t.rows, r.bucket = t.bucketOf C r.key) := by
  intro t
  have hs : t.Shaped := hstart.shaped.run ops
  refine ⟨fun r hr => ⟨?_, removeRow?_of_mem hs hr, ?_⟩, rows_removeHead hs, removeHead_empties_iff hs,
    run_atHome hstart.shaped hstart.atHome⟩
  · -- tables start with their rows at home
    rcases run_filed hstart.shaped hr with hfirst | ⟨s, hmem, hbucket, hkey⟩
    · exact hfirst
    · refine ⟨[], List.nil_prefix, ?_⟩
      rw [← hbucket, ← hkey]
      exact hstart.atHome s hmem
  · obtain ⟨before, after, hbetween⟩ := exists_between hs.distinct hr
    exact ⟨before, after, hbetween.within, hbetween.without⟩

/-- Two rows in a table that changes to the twin of its key kind: both are at home, and removing the first row
twice empties the table. -/
theorem removeRow?_after_run_twin :
    let b : Datum := .ofText "b"
    let start : Table Datum := .empty .text 0
    let ops : List Operation := [.add ⟨b, b, .text⟩, .setKeyKind Kind.text.twin, .add ⟨.ofText "B", b, .text⟩]
    let t := start.run .specimens ops
    Source .specimens start ∧ t.size = 2 ∧ (∀ op ∈ ops, op.KeepsBase start.keyKind.base) ∧
      (∀ r ∈ t.rows, (t.removeRow? .specimens r.handle).isSome) ∧
      ((removeHead .specimens)^[2] t).rows = [] := by
  intro b start ops t
  have hstart : Source .specimens start := .empty .text 0
  have hsize : t.size = 2 := by decide +kernel
  have hops : ∀ op ∈ ops, op.KeepsBase start.keyKind.base := by
    intro op hop k hk
    simp only [ops, List.mem_cons, List.not_mem_nil, or_false] at hop
    rcases hop with rfl | rfl | rfl <;> cases hk
    rfl
  obtain ⟨hrows, -, hempties, hhome⟩ := removeRow?_after_run hstart ops
  refine ⟨hstart, hsize, hops, fun r hr => ?_, hsize ▸ hempties.2 (hhome hops)⟩
  rw [(hrows r hr).2.1, if_pos (hhome hops r hr)]
  rfl

/-- Reading the keys without regard to case leads a row away from home. Its handle still shows it, but does not
remove it, and it stays the first row however often the first row is to be removed. -/
theorem removeRow?_away_from_home :
    let b : Datum := .ofText "b"
    let ops : List Operation := [.add ⟨b, b, .text⟩, .setKeyKind .textCaseBlind]
    let t := (Table.empty .text 0).run .specimens ops
    t.head? = some ⟨0⟩ ∧ (t.row? ⟨0⟩).isSome ∧ (t.removeRow? .specimens ⟨0⟩).isNone ∧
      (t.find? .specimens b).isNone ∧ ∀ n, ((removeHead .specimens)^[n] t).size = 1 := by
  intro b ops t
  have hs : t.Shaped := Shaped.run (.empty .text 0) ops
  have hstay : (t.rows.takeWhile (t.AtHome .specimens ·)).length = 0 := by decide +kernel
  refine ⟨by decide +kernel, by decide +kernel, by decide +kernel, by decide +kernel, fun n => ?_⟩
  rw [size, rows_removeHead hs, hstay, Nat.min_zero, List.drop_zero]
  decide +kernel

end OrderedTable.Table
