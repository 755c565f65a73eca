import OrderedTable.Proofs.Order.Pivot
import OrderedTable.Proofs.Table.Filing

/-!
# Buckets in order for the keys that can be ordered

A table may once have held keys that cannot be ordered: lists and tables with values of an extension that
compares them in no order at all. Rows were put in between such keys, wherever halving ended, and these
keys may have gone since. Still the rows that are left are in order.

What carries this through a history is that every key `b` of registered kinds, in the table or not, grades
each bucket: the comparisons of its rows with `b` never decrease (`Table.Graded`). A new row keeps that,
whatever its key is, for halving always ends between a row that is not greater and one that is, and the
comparison of those with `b` goes through `b` (`Kind.order_through`). As long as the base of the keys is
kept, a table whose keys are of registered kinds in the end has its rows where they belong
(`Table.Graded.filed`).
-/

namespace OrderedTable

/-- The second comparison may come after the first where comparisons do not decrease. -/
def Ordering.Precedes (o p : Ordering) : Prop := (p ≠ .gt → o ≠ .gt) ∧ (p = .lt → o = .lt)

instance (o p : Ordering) : Decidable (Ordering.Precedes o p) :=
  inferInstanceAs (Decidable ((_ → _) ∧ (_ → _)))

namespace Ordering.Precedes

/-- What precedes in two steps precedes in one. -/
theorem trans {o p q : Ordering} (h : Precedes o p) (h' : Precedes p q) : Precedes o q :=
  ⟨h.1 ∘ h'.1, h.2 ∘ h'.2⟩

/-- What is not greater compares with a third as what it is not greater than, or as less. -/
theorem of_ne_gt : ∀ {sb bg sg : Ordering}, Composes sb bg sg → sg ≠ .gt → Precedes sb bg.swap := by
  decide

/-- What is greater compares with a third as what it is greater than, or as more. -/
theorem of_gt : ∀ {sb bg sg : Ordering}, Composes sb bg sg → sg = .gt → Precedes bg.swap sb := by
  decide

end Ordering.Precedes

namespace Table

variable {C : Catalogue} {P : Base → Prop} {t u : Table Datum}

/-- Every row stands in the bucket of its key, which the kind of the keys accepts. Every key that keeps to
the bases with the property `P` grades each bucket, and equal ones stand in the order of their age. -/
structure Graded (C : Catalogue) (P : Base → Prop) (t : Table Datum) : Prop where
  accepted : ∀ r ∈ t.rows, t.keyKind.accepts C r.key = true
  placed : ∀ r ∈ t.rows, r.bucket = t.bucketOf C r.key
  graded : ∀ b, t.keyKind.Within P b → t.rows.Pairwise fun r s => r.bucket = s.bucket →
    Ordering.Precedes (t.keyKind.order C r.key b) (t.keyKind.order C s.key b)
  aged : t.rows.Pairwise fun r s => r.bucket = s.bucket → t.keyKind.Within P s.key →
    t.keyKind.order C r.key s.key = .eq → r.handle.serial < s.handle.serial

namespace Graded

theorem empty (keyKind : Kind) (wanted : Nat) : (Table.empty keyKind wanted).Graded C P :=
  ⟨by rintro r ⟨⟩, by rintro r ⟨⟩, fun _ _ => .nil, .nil⟩

/-- The rows of a bucket are graded. -/
theorem bucketRows (h : t.Graded C P) {b : Datum} (hb : t.keyKind.Within P b) (bucket : Nat) :
    (t.bucketRows bucket).Pairwise fun r s =>
      Ordering.Precedes (t.keyKind.order C r.key b) (t.keyKind.order C s.key b) := by
  refine ((h.graded b hb).filter _).imp_of_mem fun hr hs hrs => hrs ?_
  have hr := (List.mem_filter.1 hr).2
  have hs := (List.mem_filter.1 hs).2
  simp only [decide_eq_true_eq] at hr hs
  exact hr.trans hs.symm

/-- In the bucket of a new row, a key grades the rows ahead with the new row, and this with the rows
behind. -/
theorem place_spec (h : t.Graded C P) (hC : C.Ranks P) (key : Datum) {b : Datum}
    (hb : t.keyKind.Within P b) :
    (∀ r ∈ t.ahead C key, r.bucket = t.bucketOf C key →
        Ordering.Precedes (t.keyKind.order C r.key b) (t.keyKind.order C key b)) ∧
      ∀ r ∈ t.behind C key, t.bucketOf C key = r.bucket → ∃ s : Row Datum,
        t.keyKind.order C s.key key = .gt ∧
          Ordering.Precedes (t.keyKind.order C s.key b) (t.keyKind.order C r.key b) := by
  -- halving may stop anywhere between a row that is not greater and one that is
  obtain ⟨hahead, hbehind⟩ := (isBoundary_partitionPoint (fun r => t.keyKind.order C r.key key != .gt)
    (t.bucketRows (t.bucketOf C key))).sides (h.bucketRows hb _)
  constructor
  · intro r hr hbucket
    rcases List.mem_append.1 hr with hr | hr
    · have hlt := (List.mem_filter.1 hr).2
      rw [decide_eq_true_eq, hbucket] at hlt
      exact absurd hlt (Nat.lt_irrefl _)
    · obtain ⟨s, -, hs, hrs⟩ := hahead r hr
      have hsb : Ordering.Precedes (t.keyKind.order C s.key b) (t.keyKind.order C key b) := by
        rw [Kind.order_turn hC hb key]
        exact .of_ne_gt (Kind.order_through hC hb s.key key) (bne_iff_ne.1 hs)
      rcases hrs with rfl | hrs
      · exact hsb
      · exact hrs.trans hsb
  · intro r hr hbucket
    rcases List.mem_append.1 hr with hr | hr
    · obtain ⟨s, -, hs, hsr⟩ := hbehind r hr
      refine ⟨s, by simpa using hs, ?_⟩
      rcases hsr with rfl | hsr
      · exact ⟨id, id⟩
      · exact hsr
    · have hlt := (List.mem_filter.1 hr).2
      rw [decide_eq_true_eq, hbucket] at hlt
      exact absurd hlt (Nat.lt_irrefl _)

/-- A new row is graded with the rows on either side, whatever its key is. -/
theorem insert (h : t.Graded C P) (hs : t.Shaped) (hC : C.Ranks P) {e : Entry Datum}
    (haccepts : t.keyKind.accepts C e.key = true) : (t.insert C e).Graded C P := by
  refine ⟨?_, ?_, fun b (hb : t.keyKind.Within P b) => ?_, ?_⟩
  · intro r hr
    rcases (hs.mem_insert e).1 hr with rfl | hr
    · exact haccepts
    · exact h.accepted r hr
  · intro r hr
    rcases (hs.mem_insert e).1 hr with rfl | hr
    · rfl
    · exact h.placed r hr
  · -- the new row compares with the key as a row beside its place allows
    obtain ⟨hahead, hbehind⟩ := h.place_spec hC e.key hb
    refine hs.pairwise_insert e (h.graded b hb) hahead fun r hr hbucket => ?_
    obtain ⟨s, hgt, hsr⟩ := hbehind r hr hbucket
    have hes : Ordering.Precedes (t.keyKind.order C e.key b) (t.keyKind.order C s.key b) := by
      rw [Kind.order_turn hC hb e.key]
      exact .of_gt (Kind.order_through hC hb s.key e.key) hgt
    exact hes.trans hsr
  · refine hs.pairwise_insert e h.aged (fun r hr _ _ _ => ?_) fun r hr hbucket hb heq => ?_
    · exact hs.serial_lt r (hs.mem_of_mem_ahead hr)
    · -- a row behind is not equal to the new one, since a greater one is not less than it
      obtain ⟨s, hgt, hsr⟩ := (h.place_spec hC e.key hb).2 r hr hbucket
      have hb : t.keyKind.Within P r.key := hb
      have hself : t.keyKind.order C r.key r.key = .eq := Kind.order_self hC.orders hb
      have hsr : t.keyKind.order C s.key r.key ≠ .gt := hsr.1 (by rw [hself]; decide)
      have hrs : t.keyKind.order C r.key e.key = .eq := by
        rw [← Ordering.swap_eq_eq, ← Kind.order_turn hC hb]
        exact heq
      have hcomposes := (Kind.order_through hC hb s.key e.key).2.1 hrs
      exact absurd (hcomposes.symm.trans hgt) hsr

/-- Of graded rows, those that are left are graded. -/
theorem erase (h : t.Graded C P) (handle : Handle) : (t.erase handle).Graded C P where
  accepted r hr := h.accepted r (List.mem_filter.1 hr).1
  placed r hr := h.placed r (List.mem_filter.1 hr).1
  graded b hb := (h.graded b hb).filter _
  aged := h.aged.filter _

/-- A row may be changed where it stands, but for its key, its bucket and its handle. -/
theorem modify (h : t.Graded C P) (handle : Handle) {change : Row Datum → Row Datum}
    (hkey : ∀ r, (change r).key = r.key) (hbucket : ∀ r, (change r).bucket = r.bucket)
    (hhandle : ∀ r, (change r).handle = r.handle) : (t.modify handle change).Graded C P := by
  have key := changed_eq (f := (·.key)) hkey handle
  have bucket := changed_eq hbucket handle
  have name := changed_eq hhandle handle
  refine ⟨?_, ?_, fun b hb => ?_, ?_⟩
  · intro r hr
    obtain ⟨s, hs, rfl⟩ := List.mem_map.1 hr
    rw [key]
    exact h.accepted s hs
  · intro r hr
    obtain ⟨s, hs, rfl⟩ := List.mem_map.1 hr
    rw [bucket, key]
    exact h.placed s hs
  · refine List.pairwise_map.2 ((h.graded b hb).imp fun {r s} hrs => ?_)
    rw [bucket, bucket, key, key]
    exact hrs
  · refine List.pairwise_map.2 (h.aged.imp fun {r s} hrs => ?_)
    rw [bucket, bucket, key, key, name, name]
    exact hrs

theorem clear : t.clear.Graded C P :=
  ⟨by rintro r ⟨⟩, by rintro r ⟨⟩, fun _ _ => .nil, .nil⟩

/-- The keys may be read under the twin. -/
theorem setKeyKind (h : t.Graded C P) {k : Kind} (hk : k.base = t.keyKind.base) :
    (t.setKeyKind k).Graded C P := by
  have order : ∀ a b, (t.setKeyKind k).keyKind.order C a b = t.keyKind.order C a b :=
    fun a b => Kind.order_congr hk a b
  refine ⟨fun r hr => (Kind.accepts_congr hk r.key).trans (h.accepted r hr),
    fun r hr => (h.placed r hr).trans (@bucketOf_congr C t (t.setKeyKind k) hk.symm rfl r.key),
    fun b hb => (h.graded b (hb.congr hk)).imp fun hrs hbucket => ?_,
    h.aged.imp fun hrs hbucket hs heq => hrs hbucket (hs.congr hk) ((order _ _).symm.trans heq)⟩
  rw [order, order]
  exact hrs hbucket

/-- Where all keys keep to the bases in question, the rows are where they belong. -/
theorem filed (h : t.Graded C P) (hC : C.Ranks P) (hkeys : ∀ r ∈ t.rows, t.keyKind.Within P r.key) :
    t.Filed C where
  accepted := h.accepted
  placed := h.placed
  increasing := by
    -- each key grades its own bucket, and it equals itself
    refine List.pairwise_iff_forall_sublist.2 fun {r s} hsub hbucket => ?_
    have hs := hkeys s (hsub.subset (by simp))
    have hself : t.keyKind.order C s.key s.key = .eq := Kind.order_self hC.orders hs
    have hrs := List.pairwise_iff_forall_sublist.1 (h.graded s.key hs) hsub hbucket
    exact hrs.1 (by rw [hself]; decide)
  aged := h.aged.imp_of_mem fun _ hs hrs hbucket => hrs hbucket (hkeys _ hs)

end Graded

/-! ## Along a history -/

/-- Every change keeps the rows graded, as long as it keeps the base of the keys. -/
theorem Change.graded {op : Operation} (h : Change C t op u) (hs : t.Shaped) (hC : C.Ranks P)
    (hop : op.KeepsBase t.keyKind.base) (ht : t.Graded C P) : u.Graded C P := by
  cases h with
  | none => exact ht
  | insert _ _ hk => exact ht.insert hs hC hk
  | erase _ handle => exact ht.erase handle
  | modify _ handle change key bucket name => exact ht.modify handle key bucket name
  | clear => exact .clear
  | setKeyKind k => exact ht.setKeyKind (hop k rfl)

/-- And so does a history of such operations. -/
theorem Graded.run (h : t.Graded C P) (hs : t.Shaped) (hC : C.Ranks P) {ops : List Operation}
    (hops : ∀ op ∈ ops, op.KeepsBase t.keyKind.base) : (t.run C ops).Graded C P := by
  have keeps : ∀ (u : Table Datum) (op : Operation), op.KeepsBase t.keyKind.base →
      u.Shaped ∧ u.keyKind.base = t.keyKind.base ∧ u.Graded C P →
      (u.perform C op).1.Shaped ∧ (u.perform C op).1.keyKind.base = t.keyKind.base ∧
        (u.perform C op).1.Graded C P := by
    rintro u op hop ⟨hshaped, hbase, hgraded⟩
    have hchange := perform_change (C := C) u op
    rw [← hbase] at hop
    exact ⟨hchange.shaped hshaped, (hchange.base_eq hop).trans hbase, hchange.graded hshaped hC hop hgraded⟩
  exact (runWith_induction keeps hops ⟨hs, rfl, h⟩).2.2

/-- A table whose keys were read under one base ever since it was made. -/
def Steady (C : Catalogue) (t : Table Datum) : Prop :=
  ∃ (start : Table Datum) (ops : List Operation), start.Source C ∧
    (∀ op ∈ ops, op.KeepsBase start.keyKind.base) ∧ t = start.run C ops

namespace Steady

/-- A table into which entries were put has had its keys read under one base. -/
theorem addAll (C : Catalogue) (K : Kind) (wanted : Nat) (es : List (Entry Datum)) :
    ((Table.empty K wanted).addAll C es).Steady C := by
  refine ⟨.empty K wanted, es.map .add, .empty K wanted, fun op hop => ?_, addAll_eq_run _ _⟩
  obtain ⟨e, -, rfl⟩ := List.mem_map.1 hop
  exact nofun

/-- Such a table comes from an empty one. -/
theorem exists_history (h : t.Steady C) : ∃ (keyKind : Kind) (wanted : Nat) (ops : List Operation),
    (∀ op ∈ ops, op.KeepsBase keyKind.base) ∧ t = (Table.empty keyKind wanted).run C ops := by
  obtain ⟨start, ops, hsource, hops, rfl⟩ := h
  obtain ⟨keyKind, wanted, added, rfl⟩ := hsource.exists_history
  -- what made the table were insertions, which keep any base
  have hadded : ∀ op ∈ added.map Operation.add, op.KeepsBase keyKind.base := by
    intro op hop k hk
    obtain ⟨e, -, rfl⟩ := List.mem_map.1 hop
    cases hk
  rw [run_base (t := .empty keyKind wanted) hadded] at hops
  refine ⟨keyKind, wanted, added.map .add ++ ops, fun op hop => ?_, (run_append _ _ _).symm⟩
  rcases List.mem_append.1 hop with hop | hop
  · exact hadded op hop
  · exact hops op hop

/-- Such a table is in its shape. -/
theorem shaped (h : t.Steady C) : t.Shaped := by
  obtain ⟨keyKind, wanted, ops, -, rfl⟩ := h.exists_history
  exact (Shaped.empty keyKind wanted).run ops

/-- It has as many buckets as a table has at least. -/
theorem minCapacity_le (h : t.Steady C) : minCapacity ≤ t.capacity := by
  obtain ⟨keyKind, wanted, ops, -, rfl⟩ := h.exists_history
  rw [run_capacity]
  exact Nat.le_max_right _ _

/-- If its keys are of registered kinds, its rows are where they belong. -/
theorem filed (h : t.Steady C) (hC : C.Ranks P) (hkeys : ∀ e ∈ t.entries, t.keyKind.Within P e.key) :
    t.Filed C := by
  obtain ⟨keyKind, wanted, ops, hops, rfl⟩ := h.exists_history
  have hgraded := (Graded.empty (P := P) keyKind wanted).run (.empty keyKind wanted) hC hops
  exact hgraded.filed hC fun r hr => hkeys r.toEntry (List.mem_map_of_mem hr)

end Steady

end Table

end OrderedTable
