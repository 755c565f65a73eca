import Mathlib.Data.List.Find
import OrderedTable.Proofs.Table.Filing

/-!
# Lookup finds the oldest

In a table whose rows stand where they belong, halving one bucket finds the first of all rows with a key
(`Filed.find?_eq`), and that is the oldest of them (`Filed.find?_spec`). Equal keys share a bucket because they
share a digest; in the bucket they stand side by side, in the order of their age.
-/

namespace OrderedTable.Table

variable {C : Catalogue} {P : Base → Prop} {t : Table Datum}

namespace Filed

variable (hC : C.Lawful P) (hrows : ∀ r ∈ t.rows, t.keyKind.Within P r.key)
include hC hrows

/-- A row whose key equals an accepted one is in the bucket of that one. -/
theorem bucket_eq_of_order (h : t.Filed C) {r : Row Datum} (hr : r ∈ t.rows) {key : Datum}
    (hkey : t.keyKind.Within P key) (haccepts : t.keyKind.accepts C key = true)
    (heq : t.keyKind.order C r.key key = .eq) : r.bucket = t.bucketOf C key := by
  rw [h.placed r hr, bucketOf_accepted hC hkey.1 (h.accepted r hr),
    bucketOf_accepted hC hkey.1 haccepts, Kind.digest_eq_of_order hC _ _ _ (hrows r hr) hkey heq]

/-- Along a bucket, rows with smaller keys than some key come first and rows with greater ones last. -/
theorem bucketRows_cut (h : t.Filed C) (bucket : Nat) {key : Datum} (hkey : t.keyKind.Within P key) :
    (t.bucketRows bucket).Pairwise fun r s =>
      (t.keyKind.order C s.key key = .lt → t.keyKind.order C r.key key = .lt) ∧
        (t.keyKind.order C r.key key = .gt → t.keyKind.order C s.key key = .gt) := by
  refine (h.bucketRows_increasing bucket).imp_of_mem fun hr hs hrs => ?_
  have hr := hrows _ (mem_bucketRows.1 hr).1
  have hs := hrows _ (mem_bucketRows.1 hs).1
  exact (Kind.order_composes hC.toOrders _ _ _ _ hr hs hkey).cut hrs

/-- The row found is the first one in global order with an equal key. -/
theorem find?_eq (h : t.Filed C) {key : Datum} (hkey : t.keyKind.Within P key.peel)
    (haccepts : t.keyKind.accepts C key.peel = true) :
    t.find? C key = t.rows.find? fun r => t.keyKind.order C r.key key.peel = .eq := by
  have hcut := h.bucketRows_cut hC hrows (t.bucketOf C key.peel) hkey
  unfold find?
  simp only [haccepts, if_true]
  refine (getElem?_partitionPoint_filter (hcut.imp And.left) (hcut.imp And.right)).trans ?_
  rw [bucketRows, List.find?_filter]
  -- an equal key is in the bucket that is halved
  refine List.find?_congr fun r hr => ?_
  simp only [decide_eq_decide, decide_eq_true_eq, and_iff_right_iff_imp]
  exact h.bucket_eq_of_order hC hrows hr hkey haccepts

/-- The row found is the oldest of those with the key, and where none is found there is none. -/
theorem find?_spec (h : t.Filed C) {key : Datum} (hkey : t.keyKind.Within P key.peel)
    (haccepts : t.keyKind.accepts C key.peel = true) :
    (t.find? C key = none → ∀ r ∈ t.rows, t.keyKind.order C r.key key.peel ≠ .eq) ∧
      ∀ r, t.find? C key = some r → r ∈ t.rows ∧ t.keyKind.order C r.key key.peel = .eq ∧
        ∀ s ∈ t.rows, t.keyKind.order C s.key key.peel = .eq → r.handle.serial ≤ s.handle.serial := by
  rw [h.find?_eq hC hrows hkey haccepts]
  refine ⟨fun hnone r hr => by simpa using List.find?_eq_none.1 hnone r hr, fun r hfind => ?_⟩
  obtain ⟨heq, before, after, hsplit, hfirst⟩ := List.find?_eq_some_iff_append.1 hfind
  have heq := of_decide_eq_true heq
  have hr : r ∈ t.rows := List.mem_of_find?_eq_some hfind
  refine ⟨hr, heq, fun s hs hseq => ?_⟩
  have hplaces := hs
  rw [hsplit, List.mem_append, List.mem_cons] at hplaces
  rcases hplaces with hbefore | rfl | hafter
  · exact absurd (hfirst s hbefore) (by simp [hseq])
  · exact Nat.le_refl _
  · -- both keys are in the bucket of the key, where those that come later are younger
    have haged := h.aged
    rw [hsplit] at haged
    have hage := (List.pairwise_cons.1 (List.pairwise_append.1 haged).2.1).1 s hafter
    have hbucket : r.bucket = s.bucket := by
      rw [h.bucket_eq_of_order hC hrows hr hkey haccepts heq, h.bucket_eq_of_order hC hrows hs hkey haccepts hseq]
    have hcomposes := Kind.order_composes hC.toOrders _ _ _ _ (hrows r hr) (hrows s hs) hkey
    exact Nat.le_of_lt (hage hbucket ((hcomposes.2.1 hseq).symm.trans heq))

end Filed

end OrderedTable.Table
