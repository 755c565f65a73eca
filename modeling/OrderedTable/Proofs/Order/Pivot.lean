import OrderedTable.Proofs.Order.Specimens

/-!
# Comparing through a registered value

In the order of values a proviso on all of them can be given up for a proviso on one. Say that all bases
in a value `b` are registered, and extensions among them order their values (`Catalogue.Ranks`). Then
whatever `a` and `c` are, turning the comparison with `b` around reverses it (`Kind.order_turn`), and the
comparisons of `a` with `b` and of `b` with `c` determine that of `a` with `c` as in a preorder
(`Kind.order_through`).

For where the kinds of `a` part from those of `b`, their index or the lack of one decides, and nothing of
`a` is compared any more; where they do not part, they are those of `b`.
-/

namespace OrderedTable

variable {C : Catalogue} {P : Base → Prop}

/-- The bases with the property `P` have an index, and the extensions among them are ordered. -/
structure Catalogue.Ranks (C : Catalogue) (P : Base → Prop) : Prop where
  registered : ∀ b, P b → C.Registered b
  extension : ∀ id, P (.extension id) → (C.extension id).Ordered

namespace Catalogue

/-- Bases with an index can be told apart. -/
theorem Ranks.orders (h : C.Ranks P) : C.Orders P where
  apart a _ ha _ hnone := absurd hnone (h.registered a ha).baseIndex?_ne_none
  extension := h.extension

/-! ## Kinds -/

/-- Nothing compares as equal with a registered kind but its twins. -/
theorem Registered.orderKinds_eq_iff {a b : Kind} (hb : C.Registered b.base) :
    C.orderKinds a b = .eq ↔ a.base = b.base := by
  obtain ⟨j, hj⟩ := Option.ne_none_iff_exists'.1 hb.baseIndex?_ne_none
  constructor
  · intro heq
    cases hi : C.baseIndex? a.base with
    | none => simp [orderKinds, hi, hj] at heq
    | some i =>
      simp only [orderKinds, hi, hj] at heq
      obtain rfl : i = j := Std.LawfulEqCmp.eq_of_compare heq
      exact baseIndex?_inj hi hj
  · intro heq
    rw [orderKinds, heq, hj]
    exact @Std.ReflCmp.compare_self _ compare _ _

/-- A comparison that goes on where the kinds are twins. -/
def orderUnder (C : Catalogue) (a b : Kind) (o : Ordering) : Ordering :=
  if a.base = b.base then o else C.orderKinds a b

/-- With a registered kind, it comes to equality only if it goes on to it. -/
theorem Registered.of_orderUnder_eq {a b : Kind} (hb : C.Registered b.base) {o : Ordering}
    (h : C.orderUnder a b o = .eq) : a.base = b.base ∧ o = .eq := by
  rw [orderUnder] at h
  split at h
  · next hbase => exact ⟨hbase, h⟩
  · next hbase => exact absurd (hb.orderKinds_eq_iff.1 h) hbase

/-- Turned around it is reversed, if the comparison that follows is. -/
theorem orderUnder_swap {a b : Kind} {o o' : Ordering} (h : a.base = b.base → o' = o.swap) :
    C.orderUnder b a o' = (C.orderUnder a b o).swap := by
  rw [orderUnder, orderUnder]
  by_cases hab : a.base = b.base
  · rw [if_pos hab.symm, if_pos hab, h hab]
  · rw [if_neg (Ne.symm hab), if_neg hab, orderKinds_swap]

/-- Through a registered kind it composes, if the comparisons that follow do. -/
theorem orderUnder_composes {a b c : Kind} (hb : C.Registered b.base) {ab bc ac : Ordering}
    (h : a.base = b.base → b.base = c.base → Composes ab bc ac) :
    Composes (C.orderUnder a b ab) (C.orderUnder b c bc) (C.orderUnder a c ac) := by
  -- where a kind parts from `b`, the comparison of kinds decides and is not an equality
  have hcb : b.base ≠ c.base → C.orderKinds b c ≠ .eq := by
    intro hne heq
    rw [orderKinds_swap, Ordering.swap_eq_eq] at heq
    exact hne (hb.orderKinds_eq_iff.1 heq).symm
  rw [orderUnder, orderUnder, orderUnder]
  by_cases hab : a.base = b.base
  · by_cases hbc : b.base = c.base
    · rw [if_pos hab, if_pos hbc, if_pos (hab.trans hbc)]
      exact h hab hbc
    · rw [if_pos hab, if_neg hbc, if_neg (hab ▸ hbc), C.orderKinds_congr hab rfl]
      exact .right (hcb hbc)
  · have hne : C.orderKinds a b ≠ .eq := mt hb.orderKinds_eq_iff.1 hab
    by_cases hbc : b.base = c.base
    · rw [if_neg hab, if_pos hbc, if_neg (hbc ▸ hab), C.orderKinds_congr rfl hbc.symm]
      exact .left hne
    · rw [if_neg hab, if_neg hbc]
      by_cases hac : a.base = c.base
      · -- from `a` to `b` and back again
        rw [C.orderKinds_congr rfl hac.symm, C.orderKinds_swap a b]
        exact .opposite hne
      · rw [if_neg hac]
        exact orderKinds_composes a b c

end Catalogue

/-! ## Entries and parts -/

/-- Entries are compared under their kinds, and the rest after that. -/
theorem orderEntries_under (K : Kind) (e f : Entry Datum) (es fs : List (Entry Datum)) :
    orderEntries C (readyEntries C K (e :: es)) (f :: fs) =
      C.orderUnder e.kind f.kind
        ((e.kind.order C e.value f.value).then (orderEntries C (readyEntries C K es) fs)) :=
  rfl

/-- Parts are compared under the kinds of their keys: by how many they are, then entry by entry. -/
theorem Parts.order_under (p q : Parts) :
    p.order C q = C.orderUnder p.keyKind q.keyKind ((compare p.entries.length q.entries.length).then
      (orderEntries C (readyEntries C p.keyKind p.entries) q.entries)) := by
  rw [Parts.order, orderBlocks, readyEntries, List.length_map]
  rfl

/-- Entries turned around, if their values can be. -/
private theorem orderEntries_turn (K L : Kind) {es : List (Entry Datum)} (fs : List (Entry Datum))
    (ih : ∀ e ∈ es, ∀ d, e.kind.order C d e.value = (e.kind.order C e.value d).swap) :
    orderEntries C (readyEntries C L fs) es = (orderEntries C (readyEntries C K es) fs).swap := by
  -- along the registered side, for all entries on the other
  induction es generalizing fs with
  | nil => cases fs <;> rfl
  | cons e es ihes =>
    cases fs with
    | nil => rfl
    | cons f fs =>
      have hrest := ihes fs fun e h => ih e (List.mem_cons_of_mem _ h)
      rw [orderEntries_under, orderEntries_under]
      refine Catalogue.orderUnder_swap fun hbase => ?_
      rw [Ordering.swap_then, ← hrest, Kind.order_congr hbase.symm, ih e List.mem_cons_self]

/-- Entries compared through others, if their values can be. -/
private theorem orderEntries_through (hC : C.Ranks P) {K L : Kind} {es fs gs : List (Entry Datum)}
    (hfs : ∀ f ∈ fs, P f.kind.base) (hef : es.length = fs.length) (hfg : fs.length = gs.length)
    (ih : ∀ f ∈ fs, ∀ a c,
      Composes (f.kind.order C a f.value) (f.kind.order C f.value c) (f.kind.order C a c)) :
    Composes (orderEntries C (readyEntries C K es) fs) (orderEntries C (readyEntries C L fs) gs)
      (orderEntries C (readyEntries C K es) gs) := by
  induction fs generalizing es gs with
  | nil =>
    obtain rfl : es = [] := List.length_eq_zero_iff.1 hef
    obtain rfl : gs = [] := List.length_eq_zero_iff.1 hfg.symm
    simp [readyEntries, orderEntries, Composes]
  | cons f fs ihfs =>
    obtain ⟨e, es, rfl⟩ := List.exists_cons_of_length_eq_add_one hef
    obtain ⟨g, gs, rfl⟩ := List.exists_cons_of_length_eq_add_one hfg.symm
    rw [orderEntries_under, orderEntries_under, orderEntries_under]
    refine Catalogue.orderUnder_composes (hC.registered _ (hfs f List.mem_cons_self)) fun hbase _ => ?_
    -- under twins all three values are compared as under one kind
    rw [Kind.order_congr hbase, Kind.order_congr hbase]
    refine (ih f List.mem_cons_self _ _).andThen fun _ _ => ?_
    exact ihfs (fun f h => hfs f (List.mem_cons_of_mem _ h)) (Nat.succ.inj hef) (Nat.succ.inj hfg)
      fun f h => ih f (List.mem_cons_of_mem _ h)

namespace Kind

/-- Turning a comparison with a registered value around reverses it. -/
theorem order_turn (hC : C.Ranks P) {k : Kind} {b : Datum} (hb : k.Within P b) (a : Datum) :
    k.order C a b = (k.order C b a).swap := by
  -- along the registered value
  induction k, b using walk_induction generalizing a with
  | leaf k b hpb =>
    cases hpa : k.parts? a with
    | none => rw [order_of_leaf hpa, order_of_leaf hpb, orderLeaf_swap hC.orders hb.1 hpb hpa]
    | some p => rw [order_leaf_parts hpb hpa, order_parts_leaf hpa hpb]; rfl
  | parts k b q hpb ih =>
    cases hpa : k.parts? a with
    | none => rw [order_leaf_parts hpa hpb, order_parts_leaf hpb hpa]; rfl
    | some p =>
      have hq := hb.parts hpb
      have hentries := orderEntries_turn (C := C) q.keyKind p.keyKind p.entries
        fun e he d => (ih e he).2 (hq.2 e he) d
      rw [order_parts hpa hpb, order_parts hpb hpa, Parts.order_under, Parts.order_under]
      refine Catalogue.orderUnder_swap fun _ => ?_
      rw [Ordering.swap_then, ← hentries, Nat.compare_swap]

/-- Two comparisons with a registered value determine the comparison of the others as in a preorder. -/
theorem order_through (hC : C.Ranks P) {k : Kind} {b : Datum} (hb : k.Within P b) (a c : Datum) :
    Composes (k.order C a b) (k.order C b c) (k.order C a c) := by
  -- along the registered value, with any two on either side
  induction k, b using walk_induction generalizing a c with
  | leaf k b hpb =>
    cases hpa : k.parts? a with
    | none =>
      cases hpc : k.parts? c with
      | none =>
        rw [order_of_leaf hpa, order_of_leaf hpb, order_of_leaf hpa]
        exact orderLeaf_composes hC.orders hb.1 hpb hpc
      | some r =>
        rw [order_leaf_parts hpb hpc, order_leaf_parts hpa hpc]
        exact .right nofun
    | some p =>
      rw [order_parts_leaf hpa hpb]
      cases hpc : k.parts? c with
      | none => rw [order_parts_leaf hpa hpc]; exact .left nofun
      | some r => rw [order_leaf_parts hpb hpc]; exact .opposite nofun
  | parts k b q hpb ih =>
    cases hpa : k.parts? a with
    | none =>
      rw [order_leaf_parts hpa hpb]
      cases hpc : k.parts? c with
      | none => rw [order_parts_leaf hpb hpc]; exact .opposite nofun
      | some r => rw [order_leaf_parts hpa hpc]; exact .left nofun
    | some p =>
      cases hpc : k.parts? c with
      | none => rw [order_parts_leaf hpa hpc, order_parts_leaf hpb hpc]; exact .right nofun
      | some r =>
        have hq := hb.parts hpb
        rw [order_parts hpa hpb, order_parts hpb hpc, order_parts hpa hpc, Parts.order_under,
          Parts.order_under, Parts.order_under]
        refine Catalogue.orderUnder_composes (hC.registered _ hq.1) fun _ _ => ?_
        refine (Composes.of_transCmp compare _ _ _).andThen fun hpq hqr => ?_
        exact orderEntries_through hC (fun f hf => (hq.2 f hf).1) (Nat.compare_eq_eq.1 hpq)
          (Nat.compare_eq_eq.1 hqr) fun f hf a c => (ih f hf).2 (hq.2 f hf) a c

/-- Entries that compare as equal with others that keep to the bases in question keep to them too. -/
private theorem within_of_orderEntries (hC : C.Ranks P) {K : Kind} {es fs : List (Entry Datum)}
    (hfs : ∀ f ∈ fs, P f.kind.base) (hlength : es.length = fs.length)
    (heq : orderEntries C (readyEntries C K es) fs = .eq)
    (ih : ∀ f ∈ fs, ∀ a, f.kind.order C a f.value = .eq → f.kind.Within P a) :
    ∀ e ∈ es, e.kind.Within P e.value := by
  induction fs generalizing es with
  | nil =>
    obtain rfl : es = [] := List.length_eq_zero_iff.1 hlength
    exact List.forall_mem_nil _
  | cons f fs ihfs =>
    cases es with
    | nil => cases hlength
    | cons e es =>
      rw [orderEntries_under] at heq
      obtain ⟨hbase, heq⟩ := (hC.registered _ (hfs f List.mem_cons_self)).of_orderUnder_eq heq
      obtain ⟨hvalue, hrest⟩ := Ordering.then_eq_eq.1 heq
      rw [order_congr hbase] at hvalue
      exact List.forall_mem_cons.2 ⟨(ih f List.mem_cons_self _ hvalue).congr hbase.symm,
        ihfs (fun f h => hfs f (List.mem_cons_of_mem _ h)) (Nat.succ.inj hlength) hrest
          fun f h => ih f (List.mem_cons_of_mem _ h)⟩

/-- A registered value compares as equal only with values of registered kinds. -/
theorem Within.of_order_eq (hC : C.Ranks P) {k : Kind} {b : Datum} (hb : k.Within P b) {a : Datum}
    (heq : k.order C b a = .eq) : k.Within P a := by
  -- turned around, so that the registered value is compared with
  rw [← Ordering.swap_eq_eq, ← order_turn hC hb] at heq
  induction k, b using walk_induction generalizing a with
  | leaf k b hpb =>
    cases hpa : k.parts? a with
    | none => exact (within_leaf hpa).2 hb.1
    | some p => rw [order_parts_leaf hpa hpb] at heq; cases heq
  | parts k b q hpb ih =>
    cases hpa : k.parts? a with
    | none => rw [order_leaf_parts hpa hpb] at heq; cases heq
    | some p =>
      have hq := hb.parts hpb
      rw [order_parts hpa hpb, Parts.order_under] at heq
      obtain ⟨hbase, heq⟩ := (hC.registered _ hq.1).of_orderUnder_eq heq
      obtain ⟨hlength, hentries⟩ := Ordering.then_eq_eq.1 heq
      refine .of_parts hpa hb.1 (hbase ▸ hq.1) ?_
      exact within_of_orderEntries hC (fun f hf => (hq.2 f hf).1) (Nat.compare_eq_eq.1 hlength) hentries
        fun f hf a => (ih f hf).2 (hq.2 f hf)

end Kind

end OrderedTable
