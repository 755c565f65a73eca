import Mathlib.Data.List.Forall2
import OrderedTable.Proofs.Order.Agreement

/-!
# Data that are alike

Two data are alike if every reader sees the same in them: the same scalar, text or bytes or, in a list
or table, alike keys and values in the same order, under kinds with the same bases. How text and bytes
are stored does not show, and neither does a box.

A `Likeness` says what may differ: which kind takes the place of another, and what `form` asks of any
two data in the same place. Values that are alike are accepted, digested, compared and written alike
(`Alike.accepts_eq`, `Alike.digest_eq`, `Alike.order_left`, `Alike.order_right`, `Alike.encode_eq`).
-/

namespace OrderedTable

/-! ## Two lists, element by element -/

section
variable {α β γ : Type} {R : α → β → Prop} {xs : List α} {ys : List β}

/-- A relation that holds of pairs holds along the two lists that they come from. -/
theorem forall₂_of_pairs {pairs : List (α × β)} (h : ∀ z ∈ pairs, R z.1 z.2) :
    List.Forall₂ R (pairs.map Prod.fst) (pairs.map Prod.snd) := by
  rw [List.forall₂_map_left_iff, List.forall₂_map_right_iff, List.forall₂_same]
  exact h

/-- Two lists that are related element by element are those of pairs. -/
theorem exists_pairs_of_forall₂ (h : List.Forall₂ R xs ys) :
    ∃ pairs : List (α × β), xs = pairs.map Prod.fst ∧ ys = pairs.map Prod.snd ∧ ∀ z ∈ pairs, R z.1 z.2 := by
  obtain ⟨hlength, hzip⟩ := List.forall₂_iff_zip.1 h
  exact ⟨xs.zip ys, (List.map_fst_zip (Nat.le_of_eq hlength)).symm,
    (List.map_snd_zip (Nat.le_of_eq hlength.symm)).symm, fun z hz => hzip hz⟩

/-- What stands in the place of some element. -/
theorem exists_of_forall₂ (h : List.Forall₂ R xs ys) {y : β} (hy : y ∈ ys) : ∃ x ∈ xs, R x y := by
  obtain ⟨pairs, rfl, rfl, hpairs⟩ := exists_pairs_of_forall₂ h
  obtain ⟨z, hz, rfl⟩ := List.mem_map.1 hy
  exact ⟨z.1, List.mem_map_of_mem hz, hpairs z hz⟩

/-- Three lists, of which the second is related to both others. -/
theorem forall₂_comp {S : β → γ → Prop} {T : α → γ → Prop} (hRS : ∀ x y z, R x y → S y z → T x z)
    {zs : List γ} (h : List.Forall₂ R xs ys) (h' : List.Forall₂ S ys zs) : List.Forall₂ T xs zs := by
  induction h generalizing zs with
  | nil =>
    cases h'
    exact .nil
  | cons hxy _ ih =>
    cases h' with
    | cons hyz hrest => exact .cons (hRS _ _ _ hxy hyz) (ih hrest)

/-- What is made of the elements of a list, if something is made of each. -/
theorem forall₂_filterMap {f : α → Option β} (h : ∀ x ∈ xs, ∃ y, f x = some y ∧ R x y) :
    List.Forall₂ R xs (xs.filterMap f) := by
  induction xs with
  | nil => exact .nil
  | cons x xs ih =>
    obtain ⟨y, hy, hxy⟩ := h x List.mem_cons_self
    rw [List.filterMap_cons, hy]
    exact .cons hxy (ih fun z hz => h z (List.mem_cons_of_mem _ hz))

end

/-! ## Data -/

/-- What two data have in common that are taken for alike. -/
structure Likeness where
  /-- The bases that kinds inside keep to. -/
  keeps : Base → Prop
  /-- The kind that takes the place of another. -/
  kind : Kind → Kind
  base_kind : ∀ k, (kind k).base = k.base
  /-- What is asked of any two data in the same place. -/
  form : Datum → Datum → Prop

namespace Datum

/-- Two data that are seen as the same scalar, text and bytes. -/
structure SameViews (d d' : Datum) : Prop where
  scalar : ∀ s, d.scalarOf? s = d'.scalarOf? s
  text : d.textBytes? = d'.textBytes?
  bytes : d.bytes? = d'.bytes?

/-- A datum that is neither a list nor a table. -/
def IsLeaf (d : Datum) : Prop := d.list? = none ∧ d.table? = none

/-- Two data that are alike. -/
inductive Alike (S : Likeness) : Datum → Datum → Prop
  | leaf {d d' : Datum} (left : d.IsLeaf) (right : d'.IsLeaf) (views : d.SameViews d')
      (form : S.form d d') : Alike S d d'
  | parts {d d' : Datum} (k : Kind) {p p' : Parts} (left : k.parts? d = some p)
      (right : k.parts? d' = some p') (pairs : List (Entry Datum × Entry Datum))
      (firsts : p.entries = pairs.map Prod.fst) (seconds : p'.entries = pairs.map Prod.snd)
      (keyKind : S.keeps p.keyKind.base ∧ p'.keyKind = S.kind p.keyKind)
      (kind : ∀ z ∈ pairs, S.keeps z.1.kind.base ∧ z.2.kind = S.kind z.1.kind)
      (key : ∀ z ∈ pairs, Alike S z.1.key z.2.key)
      (value : ∀ z ∈ pairs, Alike S z.1.value z.2.value)
      (form : S.form d d') : Alike S d d'

end Datum

/-- Two entries that are alike. -/
structure Entry.Alike (S : Likeness) (e e' : Entry Datum) : Prop where
  keeps : S.keeps e.kind.base
  kind : e'.kind = S.kind e.kind
  key : Datum.Alike S e.key e'.key
  value : Datum.Alike S e.value e'.value

/-- A kind and what a likeness makes of it have one base. -/
theorem Likeness.base_eq (S : Likeness) {k k' : Kind} (h : k' = S.kind k) : k.base = k'.base := by
  rw [h, S.base_kind]

/-- An extension that does not tell apart what is alike. -/
structure Extension.Respects (S : Likeness) (x : Extension) : Prop where
  accepts_eq : ∀ d d', Datum.Alike S d d' → x.accepts d = x.accepts d'
  digest_eq : ∀ d d', Datum.Alike S d d' → x.digest d = x.digest d'
  order_left : ∀ d d' c, Datum.Alike S d d' → x.order d c = x.order d' c
  order_right : ∀ c d d', Datum.Alike S d d' → x.order c d = x.order c d'

/-- No extension among the bases in question tells apart what is alike. -/
def Catalogue.Respects (C : Catalogue) (S : Likeness) : Prop :=
  ∀ id, S.keeps (.extension id) → (C.extension id).Respects S

/-- Twins are written under one index. -/
theorem Catalogue.wireIndex_congr (C : Catalogue) {k k' : Kind} (h : k.base = k'.base) :
    C.wireIndex k = C.wireIndex k' := by
  rw [wireIndex, wireIndex, name, name, h]

/-- A list or a table is written as a block of its parts. -/
theorem Kind.encode_parts {C : Catalogue} {k : Kind} {d : Datum} {p : Parts} (h : k.parts? d = some p) :
    k.encode C d =
      C.encodeBlock p.keyKind (p.entries.map (Entry.map (p.keyKind.encode C) (Kind.encode C))) :=
  read_parts (r := encoding C) (fun _ => rfl) (fun _ => rfl) h

/-- Tables are written as values under the kind of tables are. -/
theorem Kind.encode_table {C : Catalogue} (t : Table Datum) : Kind.table.encode C (.table t) = t.encode C :=
  read_table (encoding C) rfl rfl

/-- A list or a table is seen as neither scalar nor text nor bytes. -/
theorem Datum.views_of_parts? {k : Kind} {d : Datum} {p : Parts} (h : k.parts? d = some p) :
    (∀ s, d.scalarOf? s = none) ∧ d.textBytes? = none ∧ d.bytes? = none := by
  rcases Kind.parts?_eq_some h with ⟨-, l, hl, -⟩ | ⟨-, t, ht, -⟩
  · rcases list?_eq_some_iff.1 hl with rfl | rfl <;> exact ⟨fun _ => rfl, rfl, rfl⟩
  · rcases table?_eq_some_iff.1 ht with rfl | rfl <;> exact ⟨fun _ => rfl, rfl, rfl⟩

/-- What has parts under one kind is a list or a table, and has parts under no other. -/
theorem Kind.base_eq_of_parts? {k k' : Kind} {d : Datum} {p p' : Parts} (h : k.parts? d = some p)
    (h' : k'.parts? d = some p') : k.base = k'.base := by
  have apart : ∀ {l : Listing Datum} {t : Table Datum}, d.list? = some l → d.table? = some t →
      False := by
    intro l t hl ht
    rcases Datum.list?_eq_some_iff.1 hl with rfl | rfl <;> cases ht
  rcases parts?_eq_some h with ⟨hk, l, hl, -⟩ | ⟨hk, t, ht, -⟩
  · rcases parts?_eq_some h' with ⟨hk', -⟩ | ⟨-, u, hu, -⟩
    · exact hk.trans hk'.symm
    · exact (apart hl hu).elim
  · rcases parts?_eq_some h' with ⟨-, m, hm, -⟩ | ⟨hk', -⟩
    · exact (apart hm ht).elim
    · exact hk.trans hk'.symm

/-- A leaf has no parts under any kind. -/
theorem Datum.IsLeaf.parts? {d : Datum} (h : d.IsLeaf) (k : Kind) : k.parts? d = none := by
  cases hp : k.parts? d with
  | none => rfl
  | some p =>
    rcases Kind.parts?_eq_some hp with ⟨-, l, hl, -⟩ | ⟨-, t, ht, -⟩
    · cases h.1.symm.trans hl
    · cases h.2.symm.trans ht

namespace Datum.Alike

variable {C : Catalogue} {S : Likeness} {d d' : Datum} {k k' : Kind}

/-- Alike data look the same as scalars, text and bytes. -/
theorem views (h : Alike S d d') : d.SameViews d' := by
  cases h with
  | leaf _ _ views => exact views
  | parts k left right =>
    obtain ⟨hs, ht, hb⟩ := views_of_parts? left
    obtain ⟨hs', ht', hb'⟩ := views_of_parts? right
    exact ⟨fun s => (hs s).trans (hs' s).symm, ht.trans ht'.symm, hb.trans hb'.symm⟩

/-- Alike data are of the form that the likeness asks for. -/
theorem form (h : Alike S d d') : S.form d d' := by
  cases h with
  | leaf _ _ _ form => exact form
  | parts _ _ _ _ _ _ _ _ _ _ form => exact form

/-- What is alike has parts together, and these are alike. -/
theorem parts_of (h : Alike S d d') {p : Parts} (hp : k.parts? d = some p) :
    ∃ (p' : Parts) (pairs : List (Entry Datum × Entry Datum)), k.parts? d' = some p' ∧
      p.entries = pairs.map Prod.fst ∧ p'.entries = pairs.map Prod.snd ∧
      (S.keeps p.keyKind.base ∧ p'.keyKind = S.kind p.keyKind) ∧ ∀ z ∈ pairs, Entry.Alike S z.1 z.2 := by
  cases h with
  | leaf left => cases (left.parts? k).symm.trans hp
  | parts l left right pairs firsts seconds keyKind kind key value =>
    have hbase := Kind.base_eq_of_parts? hp left
    have heq := (Kind.parts?_congr hbase d).symm.trans hp
    cases left.symm.trans heq
    exact ⟨_, pairs, (Kind.parts?_congr hbase d').trans right, firsts, seconds, keyKind,
      fun z hz => ⟨(kind z hz).1, (kind z hz).2, key z hz, value z hz⟩⟩

/-- What has alike entries, in pairs, is alike. -/
theorem of_pairs (k : Kind) {p p' : Parts} (left : k.parts? d = some p) (right : k.parts? d' = some p')
    {pairs : List (Entry Datum × Entry Datum)} (firsts : p.entries = pairs.map Prod.fst)
    (seconds : p'.entries = pairs.map Prod.snd)
    (keyKind : S.keeps p.keyKind.base ∧ p'.keyKind = S.kind p.keyKind)
    (alike : ∀ z ∈ pairs, Entry.Alike S z.1 z.2) (form : S.form d d') : Alike S d d' :=
  .parts k left right pairs firsts seconds keyKind (fun z hz => ⟨(alike z hz).keeps, (alike z hz).kind⟩)
    (fun z hz => (alike z hz).key) (fun z hz => (alike z hz).value) form

/-- What has alike entries, one after another, is alike. -/
theorem of_entries (k : Kind) {p p' : Parts} (left : k.parts? d = some p) (right : k.parts? d' = some p')
    (keyKind : S.keeps p.keyKind.base ∧ p'.keyKind = S.kind p.keyKind)
    (alike : List.Forall₂ (Entry.Alike S) p.entries p'.entries) (form : S.form d d') : Alike S d d' := by
  obtain ⟨pairs, hfirsts, hseconds, hpairs⟩ := exists_pairs_of_forall₂ alike
  exact of_pairs k left right hfirsts hseconds keyKind hpairs form

/-- Where one of two alike data has no parts, the other has none. -/
theorem parts?_eq_none (h : Alike S d d') (hp : k.parts? d = none) : k.parts? d' = none := by
  cases h with
  | leaf _ right => exact right.parts? k
  | parts l left right =>
    cases hp' : k.parts? d' with
    | none => rfl
    | some p' =>
      have hbase := Kind.base_eq_of_parts? hp' right
      cases hp.symm.trans ((Kind.parts?_congr hbase d).trans left)

/-- Alike data are both lists or neither is. -/
theorem list?_isSome (h : Alike S d d') : d.list?.isSome = d'.list?.isSome := by
  cases hp : Kind.list.parts? d with
  | none =>
    rw [Kind.list?_eq_none_of_parts? hp rfl,
      Kind.list?_eq_none_of_parts? (h.parts?_eq_none hp) rfl]
  | some p =>
    obtain ⟨p', -, hp', -⟩ := h.parts_of hp
    obtain ⟨l, hl, -⟩ := Option.map_eq_some_iff.1 hp
    obtain ⟨m, hm, -⟩ := Option.map_eq_some_iff.1 hp'
    rw [hl, hm]
    rfl

/-- Alike data are both tables or neither is. -/
theorem table?_isSome (h : Alike S d d') : d.table?.isSome = d'.table?.isSome := by
  cases hp : Kind.table.parts? d with
  | none =>
    rw [Kind.table?_eq_none_of_parts? hp rfl,
      Kind.table?_eq_none_of_parts? (h.parts?_eq_none hp) rfl]
  | some p =>
    obtain ⟨p', -, hp', -⟩ := h.parts_of hp
    obtain ⟨t, ht, -⟩ := Option.map_eq_some_iff.1 hp
    obtain ⟨u, hu, -⟩ := Option.map_eq_some_iff.1 hp'
    rw [ht, hu]
    rfl

/-! ## Leaves -/

/-- Alike data are accepted by the same kinds. -/
theorem accepts_eq (hC : C.Respects S) (h : Alike S d d') (hk : k.base = k'.base)
    (hP : S.keeps k.base) : k.accepts C d = k'.accepts C d' := by
  rw [Kind.accepts, Kind.accepts, ← hk]
  cases hb : k.base with
  | scalar s => exact congrArg Option.isSome (h.views.scalar s)
  | text caseBlind => exact congrArg Option.isSome h.views.text
  | bytes => exact congrArg Option.isSome h.views.bytes
  | list => exact h.list?_isSome
  | table => exact h.table?_isSome
  | extension id => exact (hC id (hb ▸ hP)).accepts_eq d d' h

/-- Alike leaves have one digest. -/
theorem digestLeaf_eq (hC : C.Respects S) (h : Alike S d d') (hk : k.base = k'.base)
    (hP : S.keeps k.base) : k.digestLeaf C d = k'.digestLeaf C d' := by
  rw [← Kind.digestLeaf_congr hk d']
  cases hb : k.base with
  | scalar s => simp only [Kind.digestLeaf, Kind.hashLeaf?, Kind.encodeLeaf, hb, h.views.scalar s]
  | text caseBlind => simp only [Kind.digestLeaf, Kind.hashLeaf?, Kind.encodeLeaf, hb, h.views.text]
  | bytes => simp only [Kind.digestLeaf, Kind.hashLeaf?, Kind.encodeLeaf, hb, h.views.bytes]
  | list => simp only [Kind.digestLeaf, Kind.hashLeaf?, Kind.encodeLeaf, hb]
  | table => simp only [Kind.digestLeaf, Kind.hashLeaf?, Kind.encodeLeaf, hb]
  | extension id =>
    rw [Kind.digestLeaf_extension hb, Kind.digestLeaf_extension hb]
    exact (hC id (hb ▸ hP)).digest_eq d d' h

/-- Alike leaves compare alike with anything, on the left. -/
theorem orderLeaf_left (hC : C.Respects S) (h : Alike S d d') (hP : S.keeps k.base) (c : Datum) :
    k.orderLeaf C d c = k.orderLeaf C d' c := by
  rw [Kind.orderLeaf, Kind.orderLeaf]
  cases hb : k.base with
  | scalar s => simp only [h.views.scalar s]
  | text caseBlind => simp only [h.views.text]
  | bytes => simp only [h.views.bytes]
  | list => rfl
  | table => rfl
  | extension id => exact (hC id (hb ▸ hP)).order_left d d' c h

/-- Alike leaves compare alike with anything, on the right. -/
theorem orderLeaf_right (hC : C.Respects S) (h : Alike S d d') (hP : S.keeps k.base) (c : Datum) :
    k.orderLeaf C c d = k.orderLeaf C c d' := by
  rw [Kind.orderLeaf, Kind.orderLeaf]
  cases hb : k.base with
  | scalar s => simp only [h.views.scalar s]
  | text caseBlind => simp only [h.views.text]
  | bytes => simp only [h.views.bytes]
  | list => simp only [h.list?_isSome]
  | table => simp only [h.table?_isSome]
  | extension id => exact (hC id (hb ▸ hP)).order_right c d d' h

/-! ## Along the walk -/

/-- Digests do not tell apart what is alike. -/
theorem digest_eq (hC : C.Respects S) (h : Alike S d d') (hk : k.base = k'.base)
    (hP : S.keeps k.base) : k.digest C d = k'.digest C d' := by
  induction k, d using Kind.walk_induction generalizing d' k' with
  | leaf k d hp =>
    rw [← Kind.digest_congr hk, Kind.digest_of_leaf hp, Kind.digest_of_leaf (h.parts?_eq_none hp)]
    exact h.digestLeaf_eq hC rfl hP
  | parts k d p hp ih =>
    obtain ⟨p', pairs, hp', hfirsts, hseconds, hkeys, hpairs⟩ := h.parts_of hp
    have values : ∀ z ∈ pairs, z.1.kind.tag C ++ Bytes.ofNat 8 (z.1.kind.digest C z.1.value).toNat =
        z.2.kind.tag C ++ Bytes.ofNat 8 (z.2.kind.digest C z.2.value).toNat := by
      intro z hz
      have alike := hpairs z hz
      have hbase := S.base_eq alike.kind
      have hmem : z.1 ∈ p.entries := hfirsts ▸ List.mem_map_of_mem hz
      -- keys are digested nowhere: only what is under the values' kinds counts
      rw [Kind.tag_congr hbase, (ih z.1 hmem).2 alike.value hbase alike.keeps]
    rw [← Kind.digest_congr hk, Kind.digest_parts hp, Kind.digest_parts hp', Parts.digest,
      Parts.digest, digestBlock, digestBlock, hfirsts, hseconds,
      Kind.tag_congr (S.base_eq hkeys.2)]
    simp only [List.length_map, List.flatMap_def, List.map_map]
    exact congrArg (fun xs => Bytes.digest (_ ++ List.flatten xs)) (List.map_congr_left values)

/-- Entries compared, whatever their kinds are. -/
private theorem orderEntries_ready (K : Kind) (e f : Entry Datum) (es fs : List (Entry Datum)) :
    orderEntries C (readyEntries C K (e :: es)) (f :: fs) =
      if e.kind.base = f.kind.base then
        (e.kind.order C e.value f.value).then (orderEntries C (readyEntries C K es) fs)
      else C.orderKinds e.kind f.kind :=
  rfl

/-- Entries are compared alike with others if their values are. -/
private theorem orderEntries_left (K K' : Kind) {pairs : List (Entry Datum × Entry Datum)}
    (hpairs : ∀ z ∈ pairs, Entry.Alike S z.1 z.2)
    (ih : ∀ z ∈ pairs, ∀ c, z.1.kind.order C z.1.value c = z.1.kind.order C z.2.value c)
    (fs : List (Entry Datum)) :
    orderEntries C (readyEntries C K (pairs.map Prod.fst)) fs =
      orderEntries C (readyEntries C K' (pairs.map Prod.snd)) fs := by
  induction pairs generalizing fs with
  | nil => rfl
  | cons z pairs ihpairs =>
    cases fs with
    | nil => rfl
    | cons f fs =>
      have hbase := S.base_eq (hpairs z List.mem_cons_self).kind
      have hvalue : z.1.kind.order C z.1.value f.value = z.2.kind.order C z.2.value f.value := by
        rw [ih z List.mem_cons_self, Kind.order_congr hbase]
      have hrest := ihpairs (fun y hy => hpairs y (List.mem_cons_of_mem _ hy))
        (fun y hy => ih y (List.mem_cons_of_mem _ hy)) fs
      rw [List.map_cons, List.map_cons, orderEntries_ready, orderEntries_ready, hrest, hvalue, hbase,
        C.orderKinds_congr hbase rfl]

/-- Comparing does not tell apart what is alike on its left. -/
theorem order_left (hC : C.Respects S) (h : Alike S d d') (hP : S.keeps k.base) (c : Datum) :
    k.order C d c = k.order C d' c := by
  induction k, d using Kind.walk_induction generalizing d' c with
  | leaf k d hp =>
    rw [Kind.order_of_leaf hp, Kind.order_of_leaf (h.parts?_eq_none hp), h.orderLeaf_left hC hP]
  | parts k d p hp ih =>
    obtain ⟨p', pairs, hp', hfirsts, hseconds, hkeys, hpairs⟩ := h.parts_of hp
    cases hq : k.parts? c with
    | none => rw [Kind.order_parts_leaf hp hq, Kind.order_parts_leaf hp' hq]
    | some q =>
      have hbase := S.base_eq hkeys.2
      have hentries := orderEntries_left (C := C) p.keyKind p'.keyKind hpairs
        (fun z hz c => (ih z.1 (hfirsts ▸ List.mem_map_of_mem hz)).2 (hpairs z hz).value
          (hpairs z hz).keeps c) q.entries
      rw [Kind.order_parts hp hq, Kind.order_parts hp' hq, Parts.order, Parts.order, orderBlocks,
        orderBlocks, hfirsts, hseconds, hentries, hbase, C.orderKinds_congr hbase rfl]
      simp only [readyEntries, List.length_map]

/-- Others are compared alike with entries if their values are. -/
private theorem orderEntries_right (K : Kind) {es : List (Entry Datum)}
    {pairs : List (Entry Datum × Entry Datum)} (hpairs : ∀ z ∈ pairs, Entry.Alike S z.1 z.2)
    (ih : ∀ e ∈ es, ∀ c c', Alike S c c' → S.keeps e.kind.base →
      e.kind.order C e.value c = e.kind.order C e.value c') :
    orderEntries C (readyEntries C K es) (pairs.map Prod.fst) =
      orderEntries C (readyEntries C K es) (pairs.map Prod.snd) := by
  induction es generalizing pairs with
  | nil => cases pairs <;> rfl
  | cons e es ihes =>
    cases pairs with
    | nil => rfl
    | cons z pairs =>
      have alike := hpairs z List.mem_cons_self
      have hbase := S.base_eq alike.kind
      have hrest := ihes (fun y hy => hpairs y (List.mem_cons_of_mem _ hy))
        (fun f hf => ih f (List.mem_cons_of_mem _ hf))
      rw [List.map_cons, List.map_cons, orderEntries_ready, orderEntries_ready, hrest, ← hbase,
        C.orderKinds_congr rfl hbase]
      split
      -- values are compared under equal bases only, so the kind on the left keeps to `S` as well
      · next heq => rw [ih e List.mem_cons_self _ _ alike.value (heq ▸ alike.keeps)]
      · rfl

/-- Comparing does not tell apart what is alike on its right. -/
theorem order_right (hC : C.Respects S) (h : Alike S d d') (hP : S.keeps k.base) (c : Datum) :
    k.order C c d = k.order C c d' := by
  -- the walk is along the left side, which stays as it is
  induction k, c using Kind.walk_induction generalizing d d' with
  | leaf k c hc =>
    cases hp : k.parts? d with
    | none =>
      rw [Kind.order_of_leaf hc, Kind.order_of_leaf hc, h.orderLeaf_right hC hP]
    | some p =>
      obtain ⟨p', -, hp', -⟩ := h.parts_of hp
      rw [Kind.order_leaf_parts hc hp, Kind.order_leaf_parts hc hp']
  | parts k c q hq ih =>
    cases hp : k.parts? d with
    | none => rw [Kind.order_parts_leaf hq hp, Kind.order_parts_leaf hq (h.parts?_eq_none hp)]
    | some p =>
      obtain ⟨p', pairs, hp', hfirsts, hseconds, hkeys, hpairs⟩ := h.parts_of hp
      have hbase := S.base_eq hkeys.2
      have hentries := orderEntries_right (C := C) q.keyKind hpairs
        fun e he _ _ hc hP => (ih e he).2 hc hP
      rw [Kind.order_parts hq hp, Kind.order_parts hq hp', Parts.order, Parts.order, orderBlocks,
        orderBlocks, hfirsts, hseconds, hentries, hbase, C.orderKinds_congr rfl hbase,
        List.length_map, List.length_map]

/-! ## Writing -/

/-- Alike leaves have one binary form, since extensions are none of the kinds in question. -/
theorem encodeLeaf_eq (hS : ∀ id, ¬ S.keeps (.extension id)) (h : Alike S d d')
    (hk : k.base = k'.base) (hP : S.keeps k.base) : k.encodeLeaf C d = k'.encodeLeaf C d' := by
  rw [Kind.encodeLeaf, Kind.encodeLeaf, Catalogue.name, Catalogue.name, ← hk]
  cases hb : k.base with
  | scalar s => simp only [h.views.scalar s]
  | text caseBlind => simp only [h.views.text]
  | bytes => simp only [h.views.bytes]
  | list => rfl
  | table => rfl
  | extension id => exact absurd (hb ▸ hP) (hS id)

/-- Entries have one binary form where their keys and their values do. -/
private theorem encodeEntries_eq (K K' : Kind) {pairs : List (Entry Datum × Entry Datum)}
    (hpairs : ∀ z ∈ pairs, Entry.Alike S z.1 z.2)
    (key : ∀ z ∈ pairs, K.encode C z.1.key = K'.encode C z.2.key)
    (value : ∀ z ∈ pairs, z.1.kind.encode C z.1.value = z.2.kind.encode C z.2.value) :
    C.encodeEntries ((pairs.map Prod.fst).map (Entry.map (K.encode C) (Kind.encode C))) =
      C.encodeEntries ((pairs.map Prod.snd).map (Entry.map (K'.encode C) (Kind.encode C))) := by
  induction pairs with
  | nil => rfl
  | cons z pairs ih =>
    have hrest := ih (fun y hy => hpairs y (List.mem_cons_of_mem _ hy))
      (fun y hy => key y (List.mem_cons_of_mem _ hy)) fun y hy => value y (List.mem_cons_of_mem _ hy)
    rw [List.map_cons, List.map_cons, List.map_cons, List.map_cons, Catalogue.encodeEntries,
      Catalogue.encodeEntries, hrest]
    simp only [Entry.map, key z List.mem_cons_self, value z List.mem_cons_self,
      C.wireIndex_congr (S.base_eq (hpairs z List.mem_cons_self).kind)]

/-- What is alike is written alike, where no kind in it is an extension. -/
theorem encode_eq (hS : ∀ id, ¬ S.keeps (.extension id)) (h : Alike S d d') (hk : k.base = k'.base)
    (hP : S.keeps k.base) : k.encode C d = k'.encode C d' := by
  induction k, d using Kind.walk_induction generalizing d' k' with
  | leaf k d hp =>
    have hp' : k'.parts? d' = none := Kind.parts?_congr hk d' ▸ h.parts?_eq_none hp
    rw [Kind.encode, Kind.encode, Kind.read_leaf hp, Kind.read_leaf hp']
    exact h.encodeLeaf_eq hS hk hP
  | parts k d p hp ih =>
    obtain ⟨p', pairs, hp', hfirsts, hseconds, hkeys, hpairs⟩ := h.parts_of hp
    have hbase := S.base_eq hkeys.2
    have mem : ∀ z ∈ pairs, z.1 ∈ p.entries := fun z hz => hfirsts ▸ List.mem_map_of_mem hz
    have hentries := encodeEntries_eq (C := C) p.keyKind p'.keyKind hpairs
      (fun z hz => (ih z.1 (mem z hz)).1 (hpairs z hz).key hbase hkeys.1)
      fun z hz => (ih z.1 (mem z hz)).2 (hpairs z hz).value (S.base_eq (hpairs z hz).kind)
        (hpairs z hz).keeps
    rw [Kind.encode_parts hp, Kind.encode_parts (Kind.parts?_congr hk d' ▸ hp'),
      Catalogue.encodeBlock, Catalogue.encodeBlock, hfirsts, hseconds, hentries,
      C.wireIndex_congr hbase]
    simp only [List.length_map]

end Datum.Alike

end OrderedTable
