import OrderedTable.Proofs.Datum.Alike
import OrderedTable.Proofs.Table.Filing
import OrderedTable.Proofs.Table.Halving

/-!
# Tables filled alongside each other

Two tables into which alike entries are put, one after another, have them in the same places: alike keys share a
bucket, and halving finds the same place for both (`Table.Alongside.addAll`).
-/

namespace OrderedTable

/-! ## Properties that hold at the same places -/

section
variable {α β : Type} {R : α → β → Prop} {xs : List α} {ys : List β} {p : α → Bool} {q : β → Bool}

/-- The first elements with a property, where it holds at the same places. -/
theorem find?_rel (hpq : ∀ x y, R x y → p x = q y) (h : List.Forall₂ R xs ys) :
    Option.Rel R (xs.find? p) (ys.find? q) := by
  induction h with
  | nil => exact .none
  | @cons x y xs ys hxy _ ih =>
    rw [List.find?_cons, List.find?_cons, hpq x y hxy]
    cases q y with
    | true => exact .some hxy
    | false => exact ih

/-- Halving finds the same place where two predicates hold at the same places. -/
theorem partitionPoint_congr (h : List.Forall₂ (fun x y => p x = q y) xs ys) :
    partitionPoint p xs = partitionPoint q ys := by
  obtain ⟨pairs, rfl, rfl, hpairs⟩ := exists_pairs_of_forall₂ h
  have hleft : partitionPoint p (pairs.map Prod.fst) = partitionPoint (fun z => p z.1) pairs :=
    partitionPoint_map_congr fun _ _ => rfl
  exact hleft.trans (partitionPoint_map_congr fun z hz => (hpairs z hz).symm).symm

end

/-! ## Two tables, row by row -/

variable {C : Catalogue} {S : Likeness}

/-- Two rows in one bucket with alike entries. -/
structure Row.Alongside (S : Likeness) (r s : Row Datum) : Prop where
  bucket : r.bucket = s.bucket
  alike : Entry.Alike S r.toEntry s.toEntry

/-- Two tables that have alike entries in the same places. -/
structure Table.Alongside (S : Likeness) (t u : Table Datum) : Prop where
  base : t.keyKind.base = u.keyKind.base
  capacity : t.capacity = u.capacity
  rows : List.Forall₂ (Row.Alongside S) t.rows u.rows

namespace Table.Alongside

variable {t u : Table Datum}

/-- Tables alongside each other have alike entries in global order. -/
theorem entries (h : t.Alongside S u) : List.Forall₂ (Entry.Alike S) t.entries u.entries := by
  rw [Table.entries, Table.entries, List.forall₂_map_left_iff, List.forall₂_map_right_iff]
  exact h.rows.imp fun _ _ hrows => hrows.alike

/-- The rows in buckets with a property. -/
theorem filter (h : t.Alongside S u) (p : Nat → Bool) :
    List.Forall₂ (Row.Alongside S) (t.rows.filter fun r => p r.bucket) (u.rows.filter fun r => p r.bucket) := by
  refine List.rel_filter (fun r s hrs => ?_) h.rows
  show p r.bucket = true ↔ p s.bucket = true
  rw [hrs.bucket]

/-- Alike entries go to the same place. -/
theorem insert (h : t.Alongside S u) (hL : C.Lawful S.keeps) (hC : C.Respects S) (hk : S.keeps t.keyKind.base)
    {e f : Entry Datum} (hef : Entry.Alike S e f) (haccepts : t.keyKind.accepts C e.key = true) :
    (t.insert C e).Alongside S (u.insert C f) := by
  have haccepts' : u.keyKind.accepts C f.key = true :=
    (hef.key.accepts_eq hC h.base hk).symm.trans haccepts
  -- equal digests name one bucket, and equal comparisons one place in it
  have hbucket : u.bucketOf C f.key = t.bucketOf C e.key := by
    rw [bucketOf_accepted hL hk haccepts, bucketOf_accepted hL (h.base ▸ hk) haccepts', h.capacity,
      hef.key.digest_eq hC h.base hk]
  have hrows := h.filter fun b => decide (b = t.bucketOf C e.key)
  have hplace : u.placeFor C f.key (u.bucketRows (t.bucketOf C e.key)) =
      t.placeFor C e.key (t.bucketRows (t.bucketOf C e.key)) := by
    refine (partitionPoint_congr (hrows.imp fun r s hrs => ?_)).symm
    rw [hrs.alike.key.order_left hC hk, hef.key.order_right hC hk, Kind.order_congr h.base]
  have hnew : Row.Alongside S ⟨e, t.bucketOf C e.key, t.nextHandle⟩ ⟨f, t.bucketOf C e.key, u.nextHandle⟩ :=
    ⟨rfl, hef⟩
  have hbefore := h.filter fun b => decide (b < t.bucketOf C e.key)
  have hafter := h.filter fun b => decide (t.bucketOf C e.key < b)
  obtain ⟨place, hat⟩ : ∃ n, t.placeFor C e.key (t.bucketRows (t.bucketOf C e.key)) = n := ⟨_, rfl⟩
  have htake := List.forall₂_take place hrows
  have hdrop := List.forall₂_drop place hrows
  refine ⟨h.base, h.capacity, ?_⟩
  simp only [Table.insert, hbucket, hplace, hat]
  exact List.rel_append (List.rel_append (List.rel_append hbefore htake) (.cons hnew hdrop)) hafter

/-- Alike entries, one after another, go to the same places. -/
theorem addAll (h : t.Alongside S u) (hL : C.Lawful S.keeps) (hC : C.Respects S) (hk : S.keeps t.keyKind.base)
    {es fs : List (Entry Datum)} (hesfs : List.Forall₂ (Entry.Alike S) es fs)
    (haccepts : ∀ e ∈ es, t.keyKind.accepts C e.key = true ∧ e.kind.accepts C e.value = true) :
    (t.addAll C es).Alongside S (u.addAll C fs) := by
  induction hesfs generalizing t u with
  | nil => exact h
  | @cons e f es fs hef _ ih =>
    obtain ⟨⟨hkey, hvalue⟩, hrest⟩ := List.forall_mem_cons.1 haccepts
    have hkey' : u.keyKind.accepts C f.key = true := (hef.key.accepts_eq hC h.base hk).symm.trans hkey
    have hvalue' : f.kind.accepts C f.value = true :=
      (hef.value.accepts_eq hC (S.base_eq hef.kind) hef.keeps).symm.trans hvalue
    rw [addAll_cons hkey hvalue, addAll_cons hkey' hvalue']
    exact ih (h.insert hL hC hk hef hkey) hk hrest

end Table.Alongside

end OrderedTable
