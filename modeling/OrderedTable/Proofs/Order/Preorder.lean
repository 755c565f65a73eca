import OrderedTable.Proofs.Datum.Parts

/-!
# The order of values is a total preorder

Turning a comparison around reverses it, and two comparisons in a row determine the comparison of the
ends as far as a preorder must (`Composes`). Both are proved along the walk of `Kind.walk_induction`;
what a lexicographic comparison needs at each step is `Composes.andThen`.

Two provisos are stated by `Catalogue.Orders`, for a set of bases that the values keep to. An extension
among them has to order values lawfully. And no two of them may share a name without having an index:
kinds without index are ordered by name, so entries of two such kinds pass for equal whatever they
hold.
-/

namespace OrderedTable

/-! ## Comparisons in a row -/

/-- `ac` is what a total preorder allows for the ends of two comparisons `ab` and `bc`: an equality
passes the other comparison on, and comparisons that agree are passed on together. -/
def Composes (ab bc ac : Ordering) : Prop :=
  (ab = .eq → ac = bc) ∧ (bc = .eq → ac = ab) ∧ (ab = bc → ac = ab)

instance (ab bc ac : Ordering) : Decidable (Composes ab bc ac) :=
  inferInstanceAs (Decidable (_ ∧ _ ∧ _))

namespace Composes

theorem ne_gt : ∀ {ab bc ac : Ordering}, Composes ab bc ac → ab ≠ .gt → bc ≠ .gt → ac ≠ .gt := by
  decide

/-- Along what does not go down, a comparison with one end goes up. -/
theorem cut : ∀ {ab bc ac : Ordering}, Composes ab bc ac → ab ≠ .gt →
    (bc = .lt → ac = .lt) ∧ (ac = .gt → bc = .gt) := by
  decide

/-- A second comparison decides where the first finds equality. -/
theorem andThen {ab bc ac ab' bc' ac' : Ordering} (h : Composes ab bc ac)
    (h' : ab = .eq → bc = .eq → Composes ab' bc' ac') :
    Composes (ab.then ab') (bc.then bc') (ac.then ac') := by
  -- three comparisons of three outcomes each
  cases ab <;> cases bc <;> cases ac <;> revert ab' bc' ac' h <;> decide

/-- A strict first comparison may be passed on, whatever the second is. -/
theorem left : ∀ {o p : Ordering}, o ≠ .eq → Composes o p o := by decide

/-- A strict second comparison may be passed on, whatever the first is. -/
theorem right : ∀ {o p : Ordering}, p ≠ .eq → Composes o p p := by decide

/-- Two opposite comparisons say nothing about the ends. -/
theorem opposite : ∀ {o p : Ordering}, p ≠ .eq → Composes p p.swap o := by decide

/-- Lawful comparisons compose. -/
theorem of_transCmp {α : Type} (cmp : α → α → Ordering) [Std.TransCmp cmp] (a b c : α) :
    Composes (cmp a b) (cmp b c) (cmp a c) := by
  refine ⟨Std.TransCmp.congr_left, fun h => (Std.TransCmp.congr_right h).symm, fun h => ?_⟩
  cases hab : cmp a b with
  | lt => exact Std.TransCmp.lt_trans hab (h ▸ hab)
  | eq => exact Std.TransCmp.eq_trans hab (h ▸ hab)
  | gt => exact Std.TransCmp.gt_trans hab (h ▸ hab)

end Composes

section
variable {α : Type} {order : α → α → Ordering}

/-- Views turned around, if what is seen can be: what is not seen comes before what is. -/
theorem orderViews_swap (h : ∀ a b, order b a = (order a b).swap) (x y : Option α) :
    orderViews order y x = (orderViews order x y).swap := by
  cases x with
  | none => cases y <;> rfl
  | some a =>
    cases y with
    | none => rfl
    | some b => exact h a b

/-- Views in a row. -/
theorem orderViews_composes (h : ∀ a b c, Composes (order a b) (order b c) (order a c))
    (x y z : Option α) :
    Composes (orderViews order x y) (orderViews order y z) (orderViews order x z) := by
  cases x with
  | none =>
    cases y with
    | none => cases z <;> exact ⟨fun _ => rfl, fun h => h, fun h => h.symm⟩
    | some b =>
      cases z with
      | none => exact .opposite nofun
      | some c => exact .left nofun
  | some a =>
    cases y with
    | none =>
      cases z with
      | none => exact .left nofun
      | some c => exact .opposite nofun
    | some b =>
      cases z with
      | none => exact .right nofun
      | some c => exact h a b c

end

namespace Bytes

/-- Byte strings turned around. -/
theorem order_swap (a b : Bytes) : order b a = (order a b).swap := by
  induction a generalizing b with
  | nil => cases b <;> rfl
  | cons x a ih =>
    cases b with
    | nil => rfl
    | cons y b => rw [order, order, Ordering.swap_then, ih, ← Nat.compare_swap]

/-- Byte strings in a row. -/
theorem order_composes (a b c : Bytes) : Composes (order a b) (order b c) (order a c) := by
  induction a generalizing b c with
  | nil =>
    cases b with
    | nil => cases c <;> exact ⟨fun _ => rfl, fun h => h, fun h => h.symm⟩
    | cons y b =>
      cases c with
      | nil => exact .opposite nofun
      | cons z c => exact .left nofun
  | cons x a ih =>
    cases b with
    | nil =>
      cases c with
      | nil => exact .left nofun
      | cons z c => exact .opposite nofun
    | cons y b =>
      cases c with
      | nil => exact .right nofun
      | cons z c => exact (Composes.of_transCmp compare x.toNat y.toNat z.toNat).andThen fun _ _ => ih b c

/-- Only equal byte strings compare as equal. -/
theorem order_eq_iff {a b : Bytes} : order a b = .eq ↔ a = b := by
  induction a generalizing b with
  | nil => cases b <;> simp [order]
  | cons x a ih =>
    cases b with
    | nil => simp [order]
    | cons y b =>
      rw [order, Ordering.then_eq_eq, Nat.compare_eq_eq, ih, UInt8.toNat_inj, List.cons.injEq]

end Bytes

/-! ## What is asked of a catalogue -/

/-- An extension orders all values as a total preorder. -/
structure Extension.Ordered (x : Extension) : Prop where
  swap : ∀ a b, x.order b a = (x.order a b).swap
  composes : ∀ a b c, Composes (x.order a b) (x.order b c) (x.order a c)

/-- The bases with the property `P` can be told apart by index or name, and the extensions among them
are ordered. -/
structure Catalogue.Orders (C : Catalogue) (P : Base → Prop) : Prop where
  apart : ∀ a b, P a → P b → C.baseIndex? a = none → C.baseIndex? b = none →
    C.baseName a = C.baseName b → a = b
  extension : ∀ id, P (.extension id) → (C.extension id).Ordered

namespace Catalogue

variable {C : Catalogue} {P Q : Base → Prop}

/-- Of fewer bases there is less to ask. -/
theorem Orders.mono (h : C.Orders P) (hPQ : ∀ b, Q b → P b) : C.Orders Q :=
  ⟨fun a b ha hb => h.apart a b (hPQ a ha) (hPQ b hb), fun id hid => h.extension id (hPQ _ hid)⟩

/-- An index names one base. -/
theorem baseIndex?_inj {a b : Base} {i : Nat} (ha : C.baseIndex? a = some i)
    (hb : C.baseIndex? b = some i) : a = b := by
  obtain ⟨x, hx, rfl⟩ := Option.map_eq_some_iff.1 ha
  obtain ⟨y, hy, hxy⟩ := Option.map_eq_some_iff.1 hb
  obtain rfl : y = x := by omega
  obtain ⟨_, hx', -⟩ := List.idxOf?_eq_some_iff.1 hx
  obtain ⟨_, hy', -⟩ := List.idxOf?_eq_some_iff.1 hy
  exact hx'.symm.trans hy'

/-- Twins compare alike with other kinds. -/
theorem orderKinds_congr (C : Catalogue) {a a' b b' : Kind} (ha : a.base = a'.base)
    (hb : b.base = b'.base) : C.orderKinds a b = C.orderKinds a' b' := by
  rw [orderKinds, orderKinds, name, name, name, name, ha, hb]

/-- Kinds turned around, with an index or without. -/
theorem orderKinds_swap (a b : Kind) : C.orderKinds b a = (C.orderKinds a b).swap := by
  unfold orderKinds
  cases C.baseIndex? a.base with
  | none =>
    cases C.baseIndex? b.base with
    | none => exact @Std.OrientedCmp.eq_swap _ compare _ (C.name b) (C.name a)
    | some j => rfl
  | some i =>
    cases C.baseIndex? b.base with
    | none => rfl
    | some j => exact @Std.OrientedCmp.eq_swap _ compare _ j i

/-- Kinds in a row: those without an index come last, by their names. -/
theorem orderKinds_composes (a b c : Kind) :
    Composes (C.orderKinds a b) (C.orderKinds b c) (C.orderKinds a c) := by
  -- eight cases, by which of the three have an index
  unfold orderKinds
  cases C.baseIndex? a.base with
  | none =>
    cases C.baseIndex? b.base with
    | none =>
      cases C.baseIndex? c.base with
      | none => exact .of_transCmp compare (C.name a) (C.name b) (C.name c)
      | some l => exact .right nofun
    | some j =>
      cases C.baseIndex? c.base with
      | none => exact .opposite nofun
      | some l => exact .left nofun
  | some i =>
    cases C.baseIndex? b.base with
    | none =>
      cases C.baseIndex? c.base with
      | none => exact .left nofun
      | some l => exact .opposite nofun
    | some j =>
      cases C.baseIndex? c.base with
      | none => exact .right nofun
      | some l => exact .of_transCmp compare i j l

/-- Twins, and of the bases in question only twins, compare as equal. -/
theorem Orders.orderKinds_eq_iff (h : C.Orders P) {a b : Kind} (ha : P a.base) (hb : P b.base) :
    C.orderKinds a b = .eq ↔ a.base = b.base := by
  constructor
  · intro heq
    cases hia : C.baseIndex? a.base with
    | none =>
      cases hib : C.baseIndex? b.base with
      | none =>
        simp only [orderKinds, hia, hib] at heq
        exact h.apart _ _ ha hb hia hib (Std.LawfulEqCmp.eq_of_compare heq)
      | some j => simp [orderKinds, hia, hib] at heq
    | some i =>
      cases hib : C.baseIndex? b.base with
      | none => simp [orderKinds, hia, hib] at heq
      | some j =>
        simp only [orderKinds, hia, hib] at heq
        obtain rfl : i = j := Std.LawfulEqCmp.eq_of_compare heq
        exact baseIndex?_inj hia hib
  · intro heq
    have hname : C.name a = C.name b := by rw [name, name, heq]
    rw [orderKinds, heq, hname]
    cases C.baseIndex? b.base with
    | none => exact @Std.ReflCmp.compare_self _ compare _ _
    | some i => exact @Std.ReflCmp.compare_self _ compare _ _

/-- Comparing kinds first, and going on where they are twins. -/
theorem Orders.ite_base (h : C.Orders P) {a b : Kind} (ha : P a.base) (hb : P b.base)
    (o : Ordering) :
    (if a.base = b.base then o else C.orderKinds a b) = (C.orderKinds a b).then o := by
  split
  · next heq => rw [(h.orderKinds_eq_iff ha hb).2 heq]; rfl
  · next hne =>
    have := mt (h.orderKinds_eq_iff ha hb).1 hne
    cases hk : C.orderKinds a b with
    | eq => exact absurd hk this
    | lt | gt => rfl

end Catalogue

/-! ## Comparing parts -/

variable (C : Catalogue)

/-- Entries whose values are ready to be compared. -/
def readyEntries (keyKind : Kind) (entries : List (Entry Datum)) : List (Entry (Datum → Ordering)) :=
  entries.map (Entry.map (keyKind.order C) (Kind.order C))

/-- The parts of two lists, or of two tables, compared. -/
def Parts.order (p q : Parts) : Ordering :=
  orderBlocks C p.keyKind (readyEntries C p.keyKind p.entries) q.keyKind q.entries

namespace Kind

variable {C} {k : Kind} {a b : Datum}

/-- Twins compare values alike. -/
theorem order_congr {k' : Kind} (h : k.base = k'.base) (a b : Datum) :
    k.order C a b = k'.order C a b := by
  refine congrFun (read_congr (r := ordering C) h ?_) b
  funext c
  simp only [ordering, orderLeaf, h]

/-- What has no parts is compared as a whole. -/
theorem order_of_leaf (ha : k.parts? a = none) : k.order C a b = k.orderLeaf C a b :=
  congrFun (read_leaf (r := ordering C) ha) b

/-- Two lists, or two tables, are compared by their parts. -/
theorem order_parts {p q : Parts} (ha : k.parts? a = some p) (hb : k.parts? b = some q) :
    k.order C a b = p.order C q := by
  rcases parts?_eq_some ha with ⟨hk, l, hl, rfl⟩ | ⟨hk, t, ht, rfl⟩
  · rcases parts?_eq_some hb with ⟨-, m, hm, rfl⟩ | ⟨hk', -⟩
    · rw [Kind.order, read_list (ordering C) hk hl]
      simp only [ordering, hm]
      rfl
    · cases hk.symm.trans hk'
  · rcases parts?_eq_some hb with ⟨hk', -⟩ | ⟨-, u, hu, rfl⟩
    · cases hk.symm.trans hk'
    · rw [Kind.order, read_table (ordering C) hk ht]
      simp only [ordering, hu, entries_map]
      rfl

/-- A list or table comes after what its kind sees nothing in. -/
theorem order_parts_leaf {p : Parts} (ha : k.parts? a = some p) (hb : k.parts? b = none) :
    k.order C a b = .gt := by
  rcases parts?_eq_some ha with ⟨hk, l, hl, -⟩ | ⟨hk, t, ht, -⟩
  · rw [Kind.order, read_list (ordering C) hk hl]
    simp only [ordering, list?_eq_none_of_parts? hb hk]
  · rw [Kind.order, read_table (ordering C) hk ht]
    simp only [ordering, table?_eq_none_of_parts? hb hk]

/-- And that comes before it. -/
theorem order_leaf_parts {q : Parts} (ha : k.parts? a = none) (hb : k.parts? b = some q) :
    k.order C a b = .lt := by
  rw [order_of_leaf ha, orderLeaf]
  rcases parts?_eq_some hb with ⟨hk, m, hm, -⟩ | ⟨hk, u, hu, -⟩
  · simp [hk, hm]
  · simp [hk, hu]

/-- Lists are compared as values under the kind of lists are. -/
theorem order_list (l m : Listing Datum) : Kind.list.order C (.list l) (.list m) = l.order C m :=
  congrFun (read_list (ordering C) rfl rfl) (.list m)

/-- Tables are compared as values under the kind of tables are. -/
theorem order_table (t u : Table Datum) : Kind.table.order C (.table t) (.table u) = t.order C u :=
  congrFun (read_table (ordering C) rfl rfl) (.table u)

/-! ## The laws -/

variable {P : Base → Prop}

/-- Values without parts turned around. -/
theorem orderLeaf_swap (hC : C.Orders P) (hk : P k.base) (ha : k.parts? a = none)
    (hb : k.parts? b = none) : k.orderLeaf C b a = (k.orderLeaf C a b).swap := by
  unfold orderLeaf
  split
  · exact orderViews_swap (fun x y => @Std.OrientedCmp.eq_swap _ compare _ y.rank x.rank) _ _
  · exact orderViews_swap (fun x y => Bytes.order_swap (foldCase _ x) (foldCase _ y)) _ _
  · exact orderViews_swap Bytes.order_swap _ _
  · next h => simp [list?_eq_none_of_parts? ha h, list?_eq_none_of_parts? hb h]
  · next h => simp [table?_eq_none_of_parts? ha h, table?_eq_none_of_parts? hb h]
  · next id h => exact (hC.extension id (h ▸ hk)).swap a b

/-- Values without parts in a row. -/
theorem orderLeaf_composes {c : Datum} (hC : C.Orders P) (hk : P k.base) (hb : k.parts? b = none)
    (hc : k.parts? c = none) :
    Composes (k.orderLeaf C a b) (k.orderLeaf C b c) (k.orderLeaf C a c) := by
  unfold orderLeaf
  split
  · exact orderViews_composes (fun x y z => Composes.of_transCmp compare x.rank y.rank z.rank) _ _ _
  · exact orderViews_composes (fun x y z =>
      Bytes.order_composes (foldCase _ x) (foldCase _ y) (foldCase _ z)) _ _ _
  · exact orderViews_composes Bytes.order_composes _ _ _
  · next h => simp [list?_eq_none_of_parts? hb h, list?_eq_none_of_parts? hc h, Composes]
  · next h => simp [table?_eq_none_of_parts? hb h, table?_eq_none_of_parts? hc h, Composes]
  · next id h => exact (hC.extension id (h ▸ hk)).composes a b c

end Kind

variable {C} {P : Base → Prop}

/-- Entries compared: first by kind, then by value, then the rest. -/
theorem orderEntries_cons (hC : C.Orders P) {K : Kind} {e f : Entry Datum} {es fs : List (Entry Datum)}
    (he : P e.kind.base) (hf : P f.kind.base) :
    orderEntries C (readyEntries C K (e :: es)) (f :: fs) =
      (C.orderKinds e.kind f.kind).then
        ((e.kind.order C e.value f.value).then (orderEntries C (readyEntries C K es) fs)) :=
  hC.ite_base he hf _

/-- The condition under which parts can be compared. -/
def Parts.Within (P : Base → Prop) (p : Parts) : Prop :=
  P p.keyKind.base ∧ ∀ e ∈ p.entries, e.kind.Within P e.value

/-- The parts of a value keep to the bases that the value keeps to. -/
theorem Kind.Within.parts {k : Kind} {d : Datum} {p : Parts} (h : k.Within P d)
    (hp : k.parts? d = some p) : p.Within P :=
  ⟨h.keyKind hp, fun _ he => h.value hp he⟩

/-- Parts compared: first the kinds of their keys, then how many they are, then entry by entry. -/
theorem Parts.order_eq (hC : C.Orders P) {p q : Parts} (hp : p.Within P) (hq : q.Within P) :
    p.order C q =
      (C.orderKinds p.keyKind q.keyKind).then
        ((compare p.entries.length q.entries.length).then
          (orderEntries C (readyEntries C p.keyKind p.entries) q.entries)) := by
  rw [Parts.order, orderBlocks, hC.ite_base hp.1 hq.1, readyEntries, List.length_map]

/-- Entries turned around, if their values can be. -/
private theorem orderEntries_swap (hC : C.Orders P) {K L : Kind} {es fs : List (Entry Datum)}
    (hes : ∀ e ∈ es, e.kind.Within P e.value) (hfs : ∀ f ∈ fs, f.kind.Within P f.value)
    (ih : ∀ e ∈ es, ∀ d, e.kind.Within P d →
      e.kind.order C d e.value = (e.kind.order C e.value d).swap) :
    orderEntries C (readyEntries C L fs) es = (orderEntries C (readyEntries C K es) fs).swap := by
  -- along one run; the other ends with it or the comparison is decided
  induction es generalizing fs with
  | nil => cases fs <;> rfl
  | cons e es ihes =>
    cases fs with
    | nil => rfl
    | cons f fs =>
      have he := hes e List.mem_cons_self
      have hf := hfs f List.mem_cons_self
      have hrest := ihes (fun e h => hes e (List.mem_cons_of_mem _ h))
        (fun f h => hfs f (List.mem_cons_of_mem _ h)) (fun e h => ih e (List.mem_cons_of_mem _ h))
      rw [orderEntries_cons hC he.1 hf.1, orderEntries_cons hC hf.1 he.1, Ordering.swap_then,
        Ordering.swap_then, ← Catalogue.orderKinds_swap, ← hrest]
      cases hk : C.orderKinds f.kind e.kind with
      | lt | gt => rfl
      | eq =>
        -- under twins the values are compared as under one kind
        have hbase := (hC.orderKinds_eq_iff hf.1 he.1).1 hk
        have hvalue := ih e List.mem_cons_self f.value ⟨he.1, by
          rw [← Kind.mentions_congr hbase]; exact hf.2⟩
        rw [Kind.order_congr hbase, hvalue]

/-- Entries in a row, if their values compose. -/
private theorem orderEntries_composes (hC : C.Orders P) {K L : Kind} {es fs gs : List (Entry Datum)}
    (hes : ∀ e ∈ es, e.kind.Within P e.value) (hfs : ∀ f ∈ fs, f.kind.Within P f.value)
    (hgs : ∀ g ∈ gs, g.kind.Within P g.value)
    (hef : es.length = fs.length) (hfg : fs.length = gs.length)
    (ih : ∀ e ∈ es, ∀ b c, e.kind.Within P b → e.kind.Within P c →
      Composes (e.kind.order C e.value b) (e.kind.order C b c) (e.kind.order C e.value c)) :
    Composes (orderEntries C (readyEntries C K es) fs) (orderEntries C (readyEntries C L fs) gs)
      (orderEntries C (readyEntries C K es) gs) := by
  induction es generalizing fs gs with
  | nil =>
    obtain rfl : fs = [] := List.length_eq_zero_iff.1 hef.symm
    obtain rfl : gs = [] := List.length_eq_zero_iff.1 hfg.symm
    simp [readyEntries, orderEntries, Composes]
  | cons e es ihes =>
    -- the lengths agree, as they were compared first
    match fs, gs with
    | f :: fs, g :: gs =>
      have he := hes e List.mem_cons_self
      have hf := hfs f List.mem_cons_self
      have hg := hgs g List.mem_cons_self
      rw [orderEntries_cons hC he.1 hf.1, orderEntries_cons hC hf.1 hg.1,
        orderEntries_cons hC he.1 hg.1]
      refine (Catalogue.orderKinds_composes _ _ _).andThen fun hkef hkfg => ?_
      have hbf := (hC.orderKinds_eq_iff he.1 hf.1).1 hkef
      have hbg := hbf.trans ((hC.orderKinds_eq_iff hf.1 hg.1).1 hkfg)
      rw [← Kind.order_congr hbf]
      have hwf : e.kind.Within P f.value := ⟨he.1, by rw [Kind.mentions_congr hbf]; exact hf.2⟩
      have hwg : e.kind.Within P g.value := ⟨he.1, by rw [Kind.mentions_congr hbg]; exact hg.2⟩
      refine (ih e List.mem_cons_self _ _ hwf hwg).andThen fun _ _ => ?_
      exact ihes (fun e h => hes e (List.mem_cons_of_mem _ h))
        (fun f h => hfs f (List.mem_cons_of_mem _ h)) (fun g h => hgs g (List.mem_cons_of_mem _ h))
        (Nat.succ.inj hef) (Nat.succ.inj hfg) (fun e h => ih e (List.mem_cons_of_mem _ h))
    | [], _ => cases hef
    | _ :: _, [] => cases hfg

namespace Kind

/-- Turning a comparison around reverses it. -/
theorem order_swap (hC : C.Orders P) (k : Kind) (a b : Datum) (ha : k.Within P a)
    (hb : k.Within P b) : k.order C b a = (k.order C a b).swap := by
  -- along the first value; the second has parts as well, or they are told apart
  induction k, a using walk_induction generalizing b with
  | leaf k a hpa =>
    cases hpb : k.parts? b with
    | none => rw [order_of_leaf hpa, order_of_leaf hpb, orderLeaf_swap hC ha.1 hpa hpb]
    | some q => rw [order_leaf_parts hpa hpb, order_parts_leaf hpb hpa]; rfl
  | parts k a p hpa ih =>
    cases hpb : k.parts? b with
    | none => rw [order_leaf_parts hpb hpa, order_parts_leaf hpa hpb]; rfl
    | some q =>
      have hp := ha.parts hpa
      have hq := hb.parts hpb
      have hentries := orderEntries_swap hC (K := p.keyKind) (L := q.keyKind) hp.2 hq.2
        fun e he d hd => (ih e he).2 d (hp.2 e he) hd
      rw [order_parts hpa hpb, order_parts hpb hpa, Parts.order_eq hC hp hq, Parts.order_eq hC hq hp,
        Ordering.swap_then, Ordering.swap_then, ← Catalogue.orderKinds_swap, hentries,
        Nat.compare_swap]

/-- Two comparisons in a row determine the comparison of the ends as in a total preorder. -/
theorem order_composes (hC : C.Orders P) (k : Kind) (a b c : Datum) (ha : k.Within P a)
    (hb : k.Within P b) (hc : k.Within P c) :
    Composes (k.order C a b) (k.order C b c) (k.order C a c) := by
  -- along the first value; if another has no parts where it has, the comparisons are strict
  induction k, a using walk_induction generalizing b c with
  | leaf k a hpa =>
    cases hpb : k.parts? b with
    | none =>
      cases hpc : k.parts? c with
      | none =>
        rw [order_of_leaf hpa, order_of_leaf hpb, order_of_leaf hpa]
        exact orderLeaf_composes hC ha.1 hpb hpc
      | some r =>
        rw [order_leaf_parts hpb hpc, order_leaf_parts hpa hpc]
        cases k.order C a b <;> simp [Composes]
    | some q =>
      rw [order_leaf_parts hpa hpb]
      cases hpc : k.parts? c with
      | none => rw [order_parts_leaf hpb hpc]; simp [Composes]
      | some r => rw [order_leaf_parts hpa hpc]; cases k.order C b c <;> simp [Composes]
  | parts k a p hpa ih =>
    cases hpb : k.parts? b with
    | none =>
      rw [order_parts_leaf hpa hpb]
      cases hpc : k.parts? c with
      | none => rw [order_parts_leaf hpa hpc]; cases k.order C b c <;> simp [Composes]
      | some r => rw [order_leaf_parts hpb hpc]; simp [Composes]
    | some q =>
      cases hpc : k.parts? c with
      | none =>
        rw [order_parts_leaf hpa hpc, order_parts_leaf hpb hpc]
        cases k.order C a b <;> simp [Composes]
      | some r =>
        have hp := ha.parts hpa
        have hq := hb.parts hpb
        have hr := hc.parts hpc
        rw [order_parts hpa hpb, order_parts hpb hpc, order_parts hpa hpc, Parts.order_eq hC hp hq,
          Parts.order_eq hC hq hr, Parts.order_eq hC hp hr]
        refine (Catalogue.orderKinds_composes _ _ _).andThen fun _ _ => ?_
        refine (Composes.of_transCmp compare _ _ _).andThen fun hpq hqr => ?_
        exact orderEntries_composes hC hp.2 hq.2 hr.2 (Nat.compare_eq_eq.1 hpq)
          (Nat.compare_eq_eq.1 hqr) fun e he b c hb hc => (ih e he).2 b c (hp.2 e he) hb hc

/-- A value compares as equal with itself. -/
theorem order_self (hC : C.Orders P) {k : Kind} {a : Datum} (ha : k.Within P a) :
    k.order C a a = .eq :=
  Ordering.eq_eq_of_eq_swap (order_swap hC k a a ha ha)

end Kind

end OrderedTable
