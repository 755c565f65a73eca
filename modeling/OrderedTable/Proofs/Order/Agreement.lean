import OrderedTable.Proofs.Order.Preorder
import OrderedTable.Kind.Values

/-!
# Equal values have one digest

A key is looked for in the bucket that its digest names, so keys that compare as equal must have one
digest (`Kind.digest_eq_of_order`). Comparison and digest are two separate walks; what makes them agree
is that both pass over keys, take twins as one, and treat alike what a kind does not accept.

`Extension.Agrees` says what this asks of an extension, and that a value the extension accepts is the
same to it in a box and out of it.
-/

namespace OrderedTable

/-! ## Scalars -/

namespace FloatKind

/-- The top bit is set in the upper half of the patterns. -/
private theorem isNegative_iff (k : FloatKind) {x : Nat} (hx : x < 1 <<< k.bits) :
    k.isNegative x = true ↔ 1 <<< (k.bits - 1) ≤ x := by
  have hbits : k.bits = (k.bits - 1) + 1 := by cases k <;> rfl
  rw [isNegative]
  generalize k.bits - 1 = n at hbits
  rw [hbits, Nat.one_shiftLeft] at hx
  rw [Nat.one_shiftLeft]
  constructor
  · exact Nat.ge_two_pow_of_testBit
  · intro hle
    rw [Nat.testBit_eq_decide_div_mod_eq, decide_eq_true_eq]
    have hdiv : x / 2 ^ n = 1 := by
      rw [Nat.div_eq_iff (Nat.two_pow_pos n)]
      rw [Nat.pow_succ] at hx
      omega
    rw [hdiv]

/-- No two floats of one format have one place in its total order. -/
theorem rank_inj (k : FloatKind) {x y : Nat} (hx : x < 1 <<< k.bits) (hy : y < 1 <<< k.bits)
    (h : k.rank x = k.rank y) : x = y := by
  -- the ranks of the two halves go opposite ways and do not meet
  have half : 1 <<< k.bits = 2 * (1 <<< (k.bits - 1)) := by cases k <;> rfl
  have hnx := isNegative_iff k hx
  have hny := isNegative_iff k hy
  unfold rank at h
  split at h <;> split at h <;> simp_all <;> omega

end FloatKind

/-- Scalars of one kind that have one rank are one. -/
theorem Scalar.eq_of_order {s t : Scalar} (hkind : s.kind = t.kind) (h : s.order t = .eq) :
    s = t := by
  have hrank : s.rank = t.rank := Std.LawfulEqCmp.eq_of_compare h
  -- one case for each form: the rank of a scalar is its value, or the place of a float
  cases s with
  | bool b =>
    cases t with
    | bool c => cases b <;> cases c <;> first | rfl | cases hrank
    | int | float => cases hkind
  | int k x =>
    cases t with
    | int l y =>
      obtain rfl : k = l := ScalarKind.int.inj hkind
      simp only [rank, IntKind.toInt] at hrank
      split at hrank
      · rw [BitVec.toInt_inj.1 hrank]
      · rw [BitVec.eq_of_toNat_eq (Int.ofNat.inj hrank)]
    | bool | float => cases hkind
  | float k x =>
    cases t with
    | float l y =>
      obtain rfl : k = l := ScalarKind.float.inj hkind
      have hx : x.toNat < 1 <<< k.bits := by rw [Nat.one_shiftLeft]; exact x.isLt
      have hy : y.toNat < 1 <<< k.bits := by rw [Nat.one_shiftLeft]; exact y.isLt
      rw [BitVec.eq_of_toNat_eq (k.rank_inj hx hy (Int.ofNat.inj hrank))]
    | bool | int => cases hkind

/-- A scalar that is seen under a kind is of that kind. -/
theorem Datum.kind_of_scalarOf? {k : ScalarKind} {d : Datum} {s : Scalar}
    (h : d.scalarOf? k = some s) : s.kind = k := by
  have := (Option.filter_eq_some_iff.1 h).2
  simpa using this

/-- Views that compare as equal are there together. -/
theorem orderViews_eq_eq {α : Type} {order : α → α → Ordering} {x y : Option α}
    (h : orderViews order x y = .eq) :
    (x = none ∧ y = none) ∨ ∃ a b, x = some a ∧ y = some b ∧ order a b = .eq := by
  cases x <;> cases y <;> simp_all [orderViews]

/-! ## Extensions -/

/-- The digest of a value of an extension. -/
def Extension.digest (x : Extension) (d : Datum) : UInt64 :=
  match x.hash d with
  | some h => h
  | none => Bytes.digest ((x.encode d).toOption.getD [])

/-- The digest of an extension agrees with its order, and a value that it accepts is accepted with the
same digest out of its box. -/
structure Extension.Agrees (x : Extension) : Prop where
  digest_eq : ∀ a b, x.order a b = .eq → x.digest a = x.digest b
  accepts_peel : ∀ d, x.accepts d = true → x.accepts d.peel = true
  digest_peel : ∀ d, x.accepts d = true → x.digest d.peel = x.digest d

/-- The bases with the property `P` can be told apart and order values, and the digests of extensions
among them agree with their orders. -/
structure Catalogue.Lawful (C : Catalogue) (P : Base → Prop) : Prop extends C.Orders P where
  agrees : ∀ id, P (.extension id) → (C.extension id).Agrees

variable {C : Catalogue} {P : Base → Prop}

/-! ## Digests along the walk -/

variable (C) in
/-- The parts of a list or a table digested. -/
def Parts.digest (p : Parts) : UInt64 :=
  digestBlock C p.keyKind (p.entries.map (Entry.map (p.keyKind.digest C) (Kind.digest C)))

namespace Kind

variable {k : Kind} {a b : Datum}

/-- The digest of a list or table goes over its parts. -/
theorem digest_parts {p : Parts} (h : k.parts? a = some p) : k.digest C a = p.digest C :=
  read_parts (r := digesting C) (fun _ => rfl) (fun _ => rfl) h

/-- That of any other value is its own. -/
theorem digest_of_leaf (h : k.parts? a = none) : k.digest C a = k.digestLeaf C a :=
  read_leaf h

/-- Twins have one tag. -/
theorem tag_congr {k' : Kind} (h : k.base = k'.base) : k.tag C = k'.tag C := by
  rw [tag, tag, Catalogue.name, Catalogue.name, h]

/-- Twins digest a value alike. -/
theorem digestLeaf_congr {k' : Kind} (h : k.base = k'.base) (d : Datum) :
    k.digestLeaf C d = k'.digestLeaf C d := by
  rw [digestLeaf, digestLeaf, hashLeaf?, hashLeaf?, encodeLeaf, encodeLeaf, Catalogue.name,
    Catalogue.name, h]

/-- And so at every level. -/
theorem digest_congr {k' : Kind} (h : k.base = k'.base) (d : Datum) :
    k.digest C d = k'.digest C d :=
  read_congr h (digestLeaf_congr h d)

/-- The digest of a value of an extension is what the extension says, or that of its bytes. -/
theorem digestLeaf_extension {id : Nat} (h : k.base = .extension id) (d : Datum) :
    k.digestLeaf C d = (C.extension id).digest d := by
  have hhash : k.hashLeaf? C d = (C.extension id).hash d := by simp only [hashLeaf?, h]
  have hencode : k.encodeLeaf C d = (C.extension id).encode d := by simp only [encodeLeaf, h]
  cases hx : (C.extension id).hash d with
  | none => simp only [digestLeaf, Extension.digest, hhash, hencode, hx]
  | some x => simp only [digestLeaf, Extension.digest, hhash, hx]

/-- Values without parts that compare as equal have one digest. -/
private theorem digestLeaf_eq_of_order (hC : C.Lawful P) (hP : P k.base)
    (h : k.orderLeaf C a b = .eq) : k.digestLeaf C a = k.digestLeaf C b := by
  -- views of both values are there together and equal, so the same bytes are hashed or encoded
  cases hk : k.base with
  | scalar s =>
    simp only [orderLeaf, hk] at h
    simp only [digestLeaf, hashLeaf?, encodeLeaf, hk]
    rcases orderViews_eq_eq h with ⟨hx, hy⟩ | ⟨x, y, hx, hy, hxy⟩
    · rw [hx, hy]
    · have hkind := (Datum.kind_of_scalarOf? hx).trans (Datum.kind_of_scalarOf? hy).symm
      rw [hx, hy, Scalar.eq_of_order hkind hxy]
  | text caseBlind =>
    simp only [orderLeaf, hk] at h
    simp only [digestLeaf, hashLeaf?, encodeLeaf, hk]
    rcases orderViews_eq_eq h with ⟨hx, hy⟩ | ⟨x, y, hx, hy, hxy⟩
    · rw [hx, hy]
    · simp only [hx, hy, Option.map_some, Bytes.order_eq_iff.1 hxy]
  | bytes =>
    simp only [orderLeaf, hk] at h
    simp only [digestLeaf, hashLeaf?, encodeLeaf, hk]
    rcases orderViews_eq_eq h with ⟨hx, hy⟩ | ⟨x, y, hx, hy, hxy⟩
    · rw [hx, hy]
    · rw [hx, hy, Bytes.order_eq_iff.1 hxy]
  | list => simp only [digestLeaf, hashLeaf?, encodeLeaf, hk]
  | table => simp only [digestLeaf, hashLeaf?, encodeLeaf, hk]
  | extension id =>
    simp only [orderLeaf, hk] at h
    rw [digestLeaf_extension hk, digestLeaf_extension hk]
    exact (hC.agrees id (hk ▸ hP)).digest_eq a b h

end Kind

/-- Entries that compare as equal in turn are digested from the same bytes. -/
private theorem digests_eq_of_order (hP : C.Orders P) {K L : Kind} {es fs : List (Entry Datum)}
    (hes : ∀ e ∈ es, e.kind.Within P e.value) (hfs : ∀ f ∈ fs, f.kind.Within P f.value)
    (hlen : es.length = fs.length)
    (ih : ∀ e ∈ es, ∀ d, e.kind.Within P d → e.kind.order C e.value d = .eq →
      e.kind.digest C e.value = e.kind.digest C d)
    (h : orderEntries C (readyEntries C K es) fs = .eq) :
    (es.map (Entry.map (K.digest C) (Kind.digest C))).flatMap
        (fun e => e.kind.tag C ++ Bytes.ofNat 8 e.value.toNat) =
      (fs.map (Entry.map (L.digest C) (Kind.digest C))).flatMap
        fun e => e.kind.tag C ++ Bytes.ofNat 8 e.value.toNat := by
  -- along both runs, which are of one length
  induction es generalizing fs with
  | nil =>
    obtain rfl : fs = [] := List.length_eq_zero_iff.1 hlen.symm
    rfl
  | cons e es ihes =>
    match fs with
    | f :: fs =>
      have he := hes e List.mem_cons_self
      have hf := hfs f List.mem_cons_self
      rw [orderEntries_cons hP he.1 hf.1, Ordering.then_eq_eq, Ordering.then_eq_eq] at h
      obtain ⟨hkind, hvalue, hrest⟩ := h
      have hbase := (hP.orderKinds_eq_iff he.1 hf.1).1 hkind
      have hdigest : e.kind.digest C e.value = f.kind.digest C f.value := by
        rw [← Kind.digest_congr hbase]
        refine ih e List.mem_cons_self _ ⟨he.1, ?_⟩ hvalue
        rw [Kind.mentions_congr hbase]
        exact hf.2
      have htail := ihes (fun e h => hes e (List.mem_cons_of_mem _ h))
        (fun f h => hfs f (List.mem_cons_of_mem _ h)) (Nat.succ.inj hlen)
        (fun e h => ih e (List.mem_cons_of_mem _ h)) hrest
      rw [List.map_cons, List.map_cons, List.flatMap_cons, List.flatMap_cons, htail]
      simp only [Entry.map, hdigest, Kind.tag_congr hbase]
    | [] => cases hlen

/-- Values that compare as equal have one digest. -/
theorem Kind.digest_eq_of_order (hC : C.Lawful P) (k : Kind) (a b : Datum) (ha : k.Within P a)
    (hb : k.Within P b) (h : k.order C a b = .eq) : k.digest C a = k.digest C b := by
  have hP := hC.toOrders
  -- along the first value; the second has parts just where it has
  induction k, a using walk_induction generalizing b with
  | leaf k a hpa =>
    cases hpb : k.parts? b with
    | none =>
      rw [digest_of_leaf hpa, digest_of_leaf hpb]
      exact digestLeaf_eq_of_order hC ha.1 (order_of_leaf hpa ▸ h)
    | some q => rw [order_leaf_parts hpa hpb] at h; cases h
  | parts k a p hpa ih =>
    cases hpb : k.parts? b with
    | none => rw [order_parts_leaf hpa hpb] at h; cases h
    | some q =>
      have hp := ha.parts hpa
      have hq := hb.parts hpb
      rw [order_parts hpa hpb, Parts.order_eq hP hp hq, Ordering.then_eq_eq,
        Ordering.then_eq_eq] at h
      obtain ⟨hkeys, hlen, hentries⟩ := h
      have hbase := (hP.orderKinds_eq_iff hp.1 hq.1).1 hkeys
      rw [Nat.compare_eq_eq] at hlen
      have hdigests := digests_eq_of_order hP (L := q.keyKind) hp.2 hq.2 hlen
        (fun e he d hd => (ih e he).2 d (hp.2 e he) hd) hentries
      rw [digest_parts hpa, digest_parts hpb, Parts.digest, Parts.digest, digestBlock, digestBlock,
        hdigests, tag_congr hbase, List.length_map, List.length_map, hlen]

/-! ## In a box and out of it -/

namespace Datum

theorem scalarOf?_peel {s : ScalarKind} {d : Datum} (h : (d.scalarOf? s).isSome) :
    d.peel.scalarOf? s = d.scalarOf? s := by
  cases d with
  | boxed d => cases d <;> first | rfl | cases h
  | _ => rfl

/-- Text that is seen in a box is seen out of it. -/
theorem textBytes?_peel {d : Datum} (h : d.textBytes?.isSome) : d.peel.textBytes? = d.textBytes? := by
  cases d with
  | boxed d => cases d <;> first | rfl | cases h
  | _ => rfl

theorem bytes?_peel {d : Datum} (h : d.bytes?.isSome) : d.peel.bytes? = d.bytes? := by
  cases d with
  | boxed d => cases d <;> first | rfl | cases h
  | _ => rfl

/-- A list that is seen in a box is seen out of it. -/
theorem list?_peel {d : Datum} (h : d.list?.isSome) : d.peel.list? = d.list? := by
  cases d with
  | boxed d => cases d <;> first | rfl | cases h
  | _ => rfl

theorem table?_peel {d : Datum} (h : d.table?.isSome) : d.peel.table? = d.table? := by
  cases d with
  | boxed d => cases d <;> first | rfl | cases h
  | _ => rfl

end Datum

/-- Lists and tables are accepted under their own kinds. -/
theorem Kind.accepts_parts {k : Kind} {d : Datum} {p : Parts} (h : k.parts? d = some p) : k.accepts C d = true := by
  rcases parts?_eq_some h with ⟨hk, l, hl, -⟩ | ⟨hk, t, ht, -⟩
  · simp [accepts, hk, hl]
  · simp [accepts, hk, ht]

/-- What a kind accepts it accepts out of its box. -/
theorem Kind.accepts_peel (hC : C.Lawful P) {k : Kind} (hP : P k.base) {d : Datum}
    (h : k.accepts C d = true) : k.accepts C d.peel = true := by
  unfold accepts at h ⊢
  split at h
  · rw [Datum.scalarOf?_peel h]; exact h
  · rw [Datum.textBytes?_peel h]; exact h
  · rw [Datum.bytes?_peel h]; exact h
  · rw [Datum.list?_peel h]; exact h
  · rw [Datum.table?_peel h]; exact h
  · next id hk => exact (hC.agrees id (hk ▸ hP)).accepts_peel d h

/-- What a kind accepts has the same digest out of its box. -/
theorem Kind.digest_peel (hC : C.Lawful P) {k : Kind} (hP : P k.base) {d : Datum}
    (h : k.accepts C d = true) : k.digest C d.peel = k.digest C d := by
  -- kinds without parts see the same in the box and out of it
  have leaf : ∀ hd : k.parts? d = none, ∀ hp : k.parts? d.peel = none,
      k.digestLeaf C d.peel = k.digestLeaf C d → k.digest C d.peel = k.digest C d := by
    intro hd hp hleaf
    rw [digest_of_leaf hd, digest_of_leaf hp, hleaf]
  cases hk : k.base with
  | scalar s =>
    simp only [accepts, hk] at h
    refine leaf (by simp [parts?, hk]) (by simp [parts?, hk]) ?_
    simp only [digestLeaf, hashLeaf?, encodeLeaf, hk, Datum.scalarOf?_peel h]
  | text caseBlind =>
    simp only [accepts, hk] at h
    refine leaf (by simp [parts?, hk]) (by simp [parts?, hk]) ?_
    simp only [digestLeaf, hashLeaf?, encodeLeaf, hk, Datum.textBytes?_peel h]
  | bytes =>
    simp only [accepts, hk] at h
    refine leaf (by simp [parts?, hk]) (by simp [parts?, hk]) ?_
    simp only [digestLeaf, hashLeaf?, encodeLeaf, hk, Datum.bytes?_peel h]
  | list =>
    simp only [accepts, hk] at h
    obtain ⟨l, hl⟩ := Option.isSome_iff_exists.1 h
    rw [digest_parts (parts?_of_list hk hl),
      digest_parts (parts?_of_list hk ((Datum.list?_peel h).trans hl))]
  | table =>
    simp only [accepts, hk] at h
    obtain ⟨t, ht⟩ := Option.isSome_iff_exists.1 h
    rw [digest_parts (parts?_of_table hk ht),
      digest_parts (parts?_of_table hk ((Datum.table?_peel h).trans ht))]
  | extension id =>
    simp only [accepts, hk] at h
    refine leaf (by simp [parts?, hk]) (by simp [parts?, hk]) ?_
    rw [digestLeaf_extension hk, digestLeaf_extension hk]
    exact (hC.agrees id (hk ▸ hP)).digest_peel d h

end OrderedTable
