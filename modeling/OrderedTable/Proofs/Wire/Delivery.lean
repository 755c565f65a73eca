import OrderedTable.Proofs.Datum.Nesting
import OrderedTable.Proofs.Wire.Written

/-!
# Delivery

A value is *regular* if all kinds in it are built in and all keys and values are accepted by their kinds, however
deep it nests and whatever was done to the tables in it (`Kind.Regular`). It has a form. A decoder that has as many
levels left as it nests reads this form whole; what it reads is the value as it was *delivered*: lists entry by
entry, and tables filled anew, in the order in which the rows stood (`Datum.Delivered`). A decoder with fewer
levels left stops in it (`Kind.Regular.outcome`).
-/

namespace OrderedTable

open Wire

/-- A value of built-in kinds throughout that its kind accepts, with tables whose keys have bases with the
property `P`. (What is asked of text holds of all text that the library keeps.) -/
inductive Kind.Regular (C : Catalogue) (P : Base → Prop) : Kind → Datum → Prop
  | leaf {k : Kind} {d : Datum} (builtin : Builtin k.base) (list : k.base ≠ .list) (table : k.base ≠ .table)
      (accepted : k.accepts C d = true) (text : ∀ s, d.peel = .text s → (Utf8.decode? s.bytes).isSome) :
      Regular C P k d
  | parts {k : Kind} {d : Datum} {p : Parts} (parts : k.parts? d = some p) (keyKind : Builtin p.keyKind.base)
      (tableKeys : k.base = .table → P p.keyKind.base) (value : ∀ e ∈ p.entries, Regular C P e.kind e.value)
      (key : ∀ e ∈ p.entries, Regular C P p.keyKind e.key) : Regular C P k d

/-- A table that entries are put in, one after another, as many buckets wanted as there are entries. -/
def Table.filled (C : Catalogue) (keyKind : Kind) (entries : List (Entry Datum)) : Table Datum :=
  (Table.empty keyKind entries.length).addAll C entries

/-- A datum and what is read in its place. Tables are filled with what is read in the place of their entries,
in that order; what this comes to is left to `T`. -/
inductive Datum.Delivered (C : Catalogue) (T : Table Datum → Kind → List (Entry Datum) → Prop)
    (inPlace : Bool) : Datum → Datum → Prop
  | leaf {d d' : Datum} (left : d.IsLeaf) (right : d'.IsLeaf) (views : d.SameViews d') :
      Delivered C T inPlace d d'
  | list {d : Datum} {l : Listing Datum} (seen : d.list? = some l)
      (pairs : List (Entry Datum × Entry Datum)) (firsts : l.entries = pairs.map Prod.fst)
      (kind : ∀ z ∈ pairs, z.2.kind = C.rebound inPlace z.1.kind)
      (value : ∀ z ∈ pairs, Delivered C T inPlace z.1.value z.2.value)
      (key : ∀ z ∈ pairs, Delivered C T inPlace z.1.key z.2.key) :
      Delivered C T inPlace d (.list ⟨C.rebound inPlace l.keyKind, pairs.map Prod.snd⟩)
  | table {d : Datum} {t t' : Table Datum} (seen : d.table? = some t)
      (pairs : List (Entry Datum × Entry Datum)) (firsts : t.entries = pairs.map Prod.fst)
      (filled : T t' (C.rebound inPlace t.keyKind) (pairs.map Prod.snd))
      (kind : ∀ z ∈ pairs, z.2.kind = C.rebound inPlace z.1.kind)
      (value : ∀ z ∈ pairs, Delivered C T inPlace z.1.value z.2.value)
      (key : ∀ z ∈ pairs, Delivered C T inPlace z.1.key z.2.key) :
      Delivered C T inPlace d (.table t')

variable {C : Catalogue} {T : Table Datum → Kind → List (Entry Datum) → Prop} {P : Base → Prop}
variable {inPlace : Bool} {k : Kind} {d d' : Datum}

/-! ## What is delivered -/

/-- A leaf is delivered as an alike one. -/
theorem Datum.Delivered.alike (h : Delivered C T inPlace d d') (hd : d.IsLeaf) :
    Alike (C.rebinding inPlace) d d' := by
  cases h with
  | leaf left right views => exact .leaf left right views trivial
  | list seen => cases hd.1.symm.trans seen
  | table seen => cases hd.2.symm.trans seen

/-- A kind accepts what is delivered if it accepted what was sent. -/
theorem Datum.Delivered.accepts_eq (h : Delivered C T inPlace d d') (hk : Builtin k.base) {k' : Kind}
    (hbase : k.base = k'.base) : k.accepts C d = k'.accepts C d' := by
  cases h with
  | leaf left right views =>
    exact (Alike.leaf (S := C.rebinding inPlace) left right views trivial).accepts_eq
      (C.respects_rebinding inPlace) hbase hk
  | list seen =>
    rw [Kind.accepts, Kind.accepts, ← hbase]
    cases hb : k.base with
    | extension id => exact absurd (hb ▸ hk) (not_builtin_extension id)
    | _ => rcases list?_eq_some_iff.1 seen with rfl | rfl <;> rfl
  | table seen =>
    rw [Kind.accepts, Kind.accepts, ← hbase]
    cases hb : k.base with
    | extension id => exact absurd (hb ▸ hk) (not_builtin_extension id)
    | _ => rcases table?_eq_some_iff.1 seen with rfl | rfl <;> rfl

/-! ## Regular values -/

namespace Kind.Regular

theorem builtin (h : k.Regular C P d) : Builtin k.base := by
  cases h with
  | leaf builtin => exact builtin
  | parts parts =>
    rcases parts?_eq_some parts with ⟨hk, -⟩ | ⟨hk, -⟩ <;> rw [hk] <;> decide

theorem accepted (h : k.Regular C P d) : k.accepts C d = true := by
  cases h with
  | leaf _ _ _ accepted => exact accepted
  | parts parts => exact accepts_parts parts

/-- A regular value has a form, which is not empty. -/
theorem written (h : k.Regular C P d) :
    k.encode C d = .ok (k.wireForm C d) ∧ 0 < (k.wireForm C d).length := by
  induction h with
  | leaf builtin list table accepted text =>
    obtain ⟨bs, htravels⟩ := travels_leaf builtin list table accepted text 0
    obtain rfl := wireForm_of_encode htravels.written
    exact ⟨htravels.written, htravels.nonempty⟩
  | @parts k d p parts keyKind tableKeys value key ihvalue ihkey =>
    obtain ⟨index, hindex, -⟩ := C.kindNumbered_wireIndex keyKind
    -- an entry can be written if its parts can, and kinds that are built in have an index
    have hwritable : ∀ e ∈ p.entries, e.Writable C p.keyKind := by
      intro e he
      obtain ⟨index, hindex, -⟩ := C.kindNumbered_wireIndex (value e he).builtin
      exact ⟨⟨index, hindex⟩, (ihvalue e he).1, (ihkey e he).1⟩
    have hencode := (encode_parts_eq_ok parts).2 ⟨index, hindex, hwritable, rfl⟩
    rw [wireForm_of_encode hencode]
    refine ⟨hencode, ?_⟩
    rw [List.length_append, length_header]
    exact Nat.add_pos_left (by decide) _

/-- Entries that are regular take as many bytes as the decoder reckons with. -/
theorem least_le_length {K : Kind} {es : List (Entry Datum)} (hvalue : ∀ e ∈ es, e.kind.Regular C P e.value)
    (hkey : ∀ e ∈ es, K.Regular C P e.key) :
    leastEntry * es.length ≤ (es.flatMap (Entry.wireForm C K)).length := by
  apply Entry.mul_length_le
  intro e he
  have := (hvalue e he).written.2
  have := (hkey e he).written.2
  rw [Entry.length_wireForm, leastEntry]
  omega

/-- A leaf nests in nothing. -/
theorem nesting_leaf (builtin : Builtin k.base) (list : k.base ≠ .list) (table : k.base ≠ .table)
    (accepted : k.accepts C d = true) : d.nesting = 0 := by
  apply Datum.nesting_of_views
  rw [accepts] at accepted
  cases hb : k.base with
  | scalar s =>
    simp only [hb] at accepted
    obtain ⟨x, hx⟩ := Option.isSome_iff_exists.1 accepted
    exact .inl (Option.isSome_of_eq_some (Option.filter_eq_some_iff.1 hx).1)
  | text caseBlind =>
    simp only [hb] at accepted
    exact .inr (.inl accepted)
  | bytes =>
    simp only [hb] at accepted
    exact .inr (.inr accepted)
  | list => exact absurd hb list
  | table => exact absurd hb table
  | extension id => exact absurd (hb ▸ builtin) (not_builtin_extension id)

end Kind.Regular

/-! ## What becomes of an entry -/

section
variable (C T)

/-- What becomes of a value under a decoder with some levels left. -/
structure Kind.Outcome (levels : Nat) (k : Kind) (d : Datum) : Prop where
  sent : d.nesting ≤ levels → k.Sent C (Kind.decodeWithin C levels) (Datum.Delivered C T) d
  stops : levels < d.nesting → k.Stops C (Kind.decodeWithin C levels) (.tooDeep maxNesting) d

/-- What becomes of an entry under a decoder with some levels left. -/
structure Entry.Outcome (levels : Nat) (K : Kind) (e : Entry Datum) : Prop where
  accepted : K.accepts C e.key = true ∧ e.kind.accepts C e.value = true
  builtin : Builtin e.kind.base
  value : e.kind.Outcome C T levels e.value
  key : K.Outcome C T levels e.key

end

namespace Entry.Outcome

variable {levels : Nat} {K : Kind} {e e' : Entry Datum}

/-- An entry that does not nest too deep is sent. -/
theorem sent (h : e.Outcome C T levels K) (hle : e.nesting ≤ levels) :
    e.Sent C (Kind.decodeWithin C levels) (Datum.Delivered C T) K := by
  have hboth := Nat.max_le.1 hle
  exact ⟨h.value.sent hboth.2, h.key.sent hboth.1⟩

/-- The value is read before the key, so where it nests too deep the key does not matter. -/
theorem stops (h : e.Outcome C T levels K) (hlt : levels < e.nesting) :
    e.kind.Stops C (Kind.decodeWithin C levels) (.tooDeep maxNesting) e.value ∨
      e.kind.Sent C (Kind.decodeWithin C levels) (Datum.Delivered C T) e.value ∧
        K.Stops C (Kind.decodeWithin C levels) (.tooDeep maxNesting) e.key := by
  by_cases hvalue : levels < e.value.nesting
  · exact .inl (h.value.stops hvalue)
  · have hkey : levels < e.key.nesting := by
      rw [nesting] at hlt
      omega
    exact .inr ⟨h.value.sent (Nat.not_lt.1 hvalue), h.key.stops hkey⟩

/-- A table takes what is read in the place of the entry. -/
theorem admitted (h : e.Outcome C T levels K) (hK : Builtin K.base) {k : Kind} (hk : K.base = k.base)
    (hread : e.ReadAs C (Datum.Delivered C T) inPlace e') :
    k.accepts C e'.key = true ∧ e'.kind.accepts C e'.value = true := by
  have hkind : e.kind.base = e'.kind.base := by rw [hread.kind, C.base_rebound]
  exact ⟨(hread.key.accepts_eq hK hk).symm.trans h.accepted.1,
    (hread.value.accepts_eq h.builtin hkind).symm.trans h.accepted.2⟩

/-- A table of the owning kind of keys admits what is read in the place of the entry. -/
theorem tableAdmits (h : e.Outcome C T levels K) (hK : Builtin K.base)
    (hread : e.ReadAs C (Datum.Delivered C T) inPlace e') : tableAdmits C K.owner e' = true := by
  obtain ⟨hkey, hvalue⟩ := h.admitted hK (k := K.owner) rfl hread
  rw [Wire.tableAdmits, hkey, hvalue]
  rfl

end Entry.Outcome

/-! ## Blocks -/

namespace Wire

variable {levels : Nat} {p : Parts} {input : Input} {rest : Bytes} (admits : Kind → Entry Datum → Bool)

/-- A block of entries none of which nests too deep is read whole. -/
theorem readBlock_delivered (hp : k.parts? d = some p) (hencode : k.encode C d = .ok (k.wireForm C d))
    (hK : Builtin p.keyKind.base) (hes : ∀ e ∈ p.entries, e.Outcome C T levels p.keyKind)
    (hleast : leastEntry * p.entries.length ≤ (p.entries.flatMap (Entry.wireForm C p.keyKind)).length)
    (hle : ∀ e ∈ p.entries, e.nesting ≤ levels) (hsound : input.Sound)
    (hbytes : input.bytes = k.wireForm C d ++ rest) (hlimit : (k.wireForm C d).length < limit)
    (hadmits : ∀ e ∈ p.entries, ∀ e', e.ReadAs C (Datum.Delivered C T) input.isInPlace e' →
      admits p.keyKind.owner e' = true) :
    ∃ pairs, p.entries = pairs.map Prod.fst ∧
      Received C (Kind.decodeWithin C levels) (Datum.Delivered C T) input p.keyKind headerLength pairs ∧
      readBlock C (Kind.decodeWithin C levels) admits input = .ok ⟨C.rebound input.isInPlace p.keyKind,
        p.entries.length, pairs.map Prod.snd, (k.wireForm C d).length, none⟩ := by
  obtain ⟨index, hindex, -, hform⟩ := (Kind.encode_parts_eq_ok hp).1 hencode
  rw [hform] at hbytes hlimit ⊢
  obtain ⟨pairs, hfirsts, hreceived, hread⟩ := readBlock_sent (C.kindNumbered_wireIndex hK) hindex
    (fun e he => (hes e he).sent (hle e he)) hsound hbytes hlimit hadmits
  rw [wanted_eq_of_least hleast hbytes] at hread
  exact ⟨pairs, hfirsts, hreceived, hread⟩

/-- A block is read up to the first entry that nests too deep. -/
theorem readBlock_tooDeep (hp : k.parts? d = some p) (hencode : k.encode C d = .ok (k.wireForm C d))
    (hK : Builtin p.keyKind.base) (hes : ∀ e ∈ p.entries, e.Outcome C T levels p.keyKind)
    (hleast : leastEntry * p.entries.length ≤ (p.entries.flatMap (Entry.wireForm C p.keyKind)).length)
    {before after : List (Entry Datum)} {e : Entry Datum} (hsplit : p.entries = before ++ e :: after)
    (hbefore : ∀ e ∈ before, e.nesting ≤ levels) (hlt : levels < e.nesting) (hsound : input.Sound)
    (hbytes : input.bytes = k.wireForm C d ++ rest) (hlimit : (k.wireForm C d).length < limit)
    (hadmits : ∀ e ∈ p.entries, ∀ e', e.ReadAs C (Datum.Delivered C T) input.isInPlace e' →
      admits p.keyKind.owner e' = true) :
    ∃ pairs, before = pairs.map Prod.fst ∧
      Received C (Kind.decodeWithin C levels) (Datum.Delivered C T) input p.keyKind headerLength pairs ∧
      readBlock C (Kind.decodeWithin C levels) admits input = .ok ⟨C.rebound input.isInPlace p.keyKind,
        p.entries.length, pairs.map Prod.snd,
        headerLength + (before.flatMap (Entry.wireForm C p.keyKind)).length,
        some (.tooDeep maxNesting)⟩ := by
  obtain ⟨index, hindex, -, hform⟩ := (Kind.encode_parts_eq_ok hp).1 hencode
  rw [hform] at hbytes hlimit
  have hmem : ∀ f ∈ before, f ∈ p.entries := fun f hf => hsplit ▸ List.mem_append_left _ hf
  have he : e ∈ p.entries := hsplit ▸ List.mem_append_right _ List.mem_cons_self
  have hread := readBlock_stopped (C.kindNumbered_wireIndex hK) hindex hsplit
    (fun f hf => (hes f (hmem f hf)).sent (hbefore f hf)) (C.kindNumbered_wireIndex (hes e he).builtin)
    ((hes e he).stops hlt) hsound hbytes hlimit fun f hf => hadmits f (hmem f hf)
  rwa [wanted_eq_of_least hleast hbytes] at hread

end Wire

/-! ## Values -/

/-- Tables that are filled with accepted entries come out as `T` says. -/
def Table.Fills (C : Catalogue) (P : Base → Prop) (T : Table Datum → Kind → List (Entry Datum) → Prop) : Prop :=
  ∀ (K : Kind) (es : List (Entry Datum)), Builtin K.base → P K.base →
    (∀ e ∈ es, K.accepts C e.key = true ∧ e.kind.accepts C e.value = true) → T (Table.filled C K es) K es

namespace Wire

variable {levels : Nat} {input : Input} {K : Kind} {es : List (Entry Datum)}
variable {pairs : List (Entry Datum × Entry Datum)}

/-- The table that a block holds that was read whole comes out as `T` says. -/
theorem toTable_delivered (hT : Table.Fills C P T) (hK : Builtin K.base) (hP : P K.base)
    (hes : ∀ e ∈ es, e.Outcome C T levels K) (hfirsts : es = pairs.map Prod.fst)
    (hpairs : ∀ z ∈ pairs, z.1.ReadAs C (Datum.Delivered C T) inPlace z.2) :
    T ((Table.empty (C.rebound inPlace K) es.length).addAll C (pairs.map Prod.snd)) (C.rebound inPlace K)
      (pairs.map Prod.snd) := by
  have hlength : es.length = (pairs.map Prod.snd).length := by rw [hfirsts, List.length_map, List.length_map]
  have hbase := C.base_rebound inPlace K
  rw [hlength]
  refine hT _ _ (hbase ▸ hK) (hbase ▸ hP) fun e' he' => ?_
  obtain ⟨z, hz, rfl⟩ := List.mem_map.1 he'
  exact (hes z.1 (hfirsts ▸ List.mem_map_of_mem hz)).admitted hK hbase.symm (hpairs z hz)

end Wire

namespace Kind.Regular

variable {p : Parts}

/-- The entries of a regular list or table are regular, under a built-in kind of keys. -/
theorem of_parts (h : k.Regular C P d) (hp : k.parts? d = some p) :
    Builtin p.keyKind.base ∧ (k.base = .table → P p.keyKind.base) ∧
      (∀ e ∈ p.entries, e.kind.Regular C P e.value) ∧ ∀ e ∈ p.entries, p.keyKind.Regular C P e.key := by
  cases h with
  | leaf builtin list table => cases (parts?_eq_none_of_base list table d).symm.trans hp
  | parts parts keyKind tableKeys value key =>
    cases parts.symm.trans hp
    exact ⟨keyKind, tableKeys, value, key⟩

/-- A leaf is delivered whatever levels are left. -/
theorem outcome_leaf (builtin : Builtin k.base) (list : k.base ≠ .list) (table : k.base ≠ .table)
    (accepted : k.accepts C d = true) (text : ∀ s, d.peel = .text s → (Utf8.decode? s.bytes).isSome)
    (levels : Nat) : k.Outcome C T levels d := by
  have hleaf := isLeaf_of_accepts builtin list table accepted
  refine ⟨fun _ => ?_, fun hlt => ?_⟩
  · obtain ⟨bs, htravels⟩ := travels_leaf builtin list table accepted text levels
    have hsent := htravels.sent
    refine ⟨hsent.numbered, hsent.written, fun hlimit input rest hsound hbytes => ?_⟩
    obtain ⟨d', hread, halike⟩ := hsent.read hlimit input rest hsound hbytes
    refine ⟨d', hread, ?_⟩
    cases halike with
    | leaf left right views => exact .leaf left right views
    | parts k left => cases (hleaf.parts? k).symm.trans left
  · rw [nesting_leaf builtin list table accepted] at hlt
    exact absurd hlt (Nat.not_lt_zero levels)

section
variable {levels : Nat} (h : k.Regular C P d) (hp : k.parts? d = some p)
variable (hes : ∀ e ∈ p.entries, e.Outcome C T levels p.keyKind)
include h hp hes

/-- A list or a table is delivered if its entries are: as a block, one level further in. -/
theorem sent_of_entries (hT : Table.Fills C P T) (hle : ∀ e ∈ p.entries, e.nesting ≤ levels) :
    k.Sent C (Kind.decodeWithin C (levels + 1)) (Datum.Delivered C T) d := by
  obtain ⟨keyKind, tableKeys, value, key⟩ := h.of_parts hp
  have hencode := h.written.1
  have hleast := least_le_length value key
  refine ⟨C.kindNumbered_wireIndex h.builtin, hencode, fun hlimit input rest hsound hbytes => ?_⟩
  rcases parts?_eq_some hp with ⟨hk, l, hd, rfl⟩ | ⟨hk, t, hd, rfl⟩
  · obtain ⟨pairs, hfirsts, hreceived, hread⟩ := readBlock_delivered (fun _ _ => true) hp hencode keyKind hes
      hleast hle hsound.nested hbytes hlimit fun _ _ _ _ => rfl
    have hpairs := hreceived.readAs
    refine ⟨_, ?_, .list hd pairs hfirsts (fun z hz => (hpairs z hz).kind)
      (fun z hz => (hpairs z hz).value) fun z hz => (hpairs z hz).key⟩
    rw [decodeWithin_list (k := k.owner) hk, hread]
    rfl
  · obtain ⟨pairs, hfirsts, hreceived, hread⟩ := readBlock_delivered (tableAdmits C) hp hencode keyKind hes
      hleast hle hsound.nested hbytes hlimit fun e he e' hread => (hes e he).tableAdmits keyKind hread
    have hpairs := hreceived.readAs
    refine ⟨_, ?_, .table hd pairs hfirsts
      (toTable_delivered hT keyKind (tableKeys hk) hes hfirsts hpairs) (fun z hz => (hpairs z hz).kind)
      (fun z hz => (hpairs z hz).value) fun z hz => (hpairs z hz).key⟩
    rw [decodeWithin_table (k := k.owner) hk, hread]
    rfl

/-- The first entry that nests too deep stops the decoder of the list or the table around it. -/
theorem stops_of_entries (hlt : levels < Entry.deepest p.entries) :
    k.Stops C (Kind.decodeWithin C (levels + 1)) (.tooDeep maxNesting) d := by
  obtain ⟨keyKind, -, value, key⟩ := h.of_parts hp
  have hencode := h.written.1
  have hleast := least_le_length value key
  intro hlimit input rest hsound hbytes
  obtain ⟨before, e, after, hsplit, hbefore, hdeep⟩ := Entry.exists_first_deep hlt
  rcases parts?_eq_some hp with ⟨hk, l, hd, rfl⟩ | ⟨hk, t, hd, rfl⟩
  · obtain ⟨pairs, -, -, hread⟩ := readBlock_tooDeep (fun _ _ => true) hp hencode keyKind hes hleast
      hsplit hbefore hdeep hsound.nested hbytes hlimit fun _ _ _ _ => rfl
    rw [decodeWithin_list (k := k.owner) hk, hread]
    rfl
  · obtain ⟨pairs, -, -, hread⟩ := readBlock_tooDeep (tableAdmits C) hp hencode keyKind hes hleast
      hsplit hbefore hdeep hsound.nested hbytes hlimit fun e he e' hread => (hes e he).tableAdmits keyKind hread
    rw [decodeWithin_table (k := k.owner) hk, hread]
    rfl

end

/-- A regular value is delivered if there are levels enough, and stops the decoder otherwise: induction on the
value, at every number of levels. -/
theorem outcome (hT : Table.Fills C P T) (h : k.Regular C P d) (levels : Nat) : k.Outcome C T levels d := by
  induction h generalizing levels with
  | leaf builtin list table accepted text => exact outcome_leaf builtin list table accepted text levels
  | @parts k d p hparts keyKind tableKeys value key ihvalue ihkey =>
    have hregular : k.Regular C P d := .parts hparts keyKind tableKeys value key
    have hnesting := Datum.nesting_of_parts hparts
    cases levels with
    | zero =>
      have hnested : k.base = .list ∨ k.base = .table := (parts?_eq_some hparts).imp And.left And.left
      exact ⟨fun hle => by omega, fun _ _ input _ _ _ => decodeWithin_zero (k := k.owner) hnested input⟩
    | succ levels =>
      have hes : ∀ e ∈ p.entries, e.Outcome C T levels p.keyKind := fun e he =>
        ⟨⟨(key e he).accepted, (value e he).accepted⟩, (value e he).builtin, ihvalue e he levels,
          ihkey e he levels⟩
      refine ⟨fun hle => ?_, fun hlt => ?_⟩
      · exact hregular.sent_of_entries hparts hes hT (Entry.deepest_le.1 (by omega))
      · exact hregular.stops_of_entries hparts hes (by omega)

/-- What becomes of the entries of a list or a table. -/
theorem entries_outcome (hT : Table.Fills C P T) (h : k.Regular C P d) (hp : k.parts? d = some p)
    (levels : Nat) : Builtin p.keyKind.base ∧ (k.base = .table → P p.keyKind.base) ∧
      (∀ e ∈ p.entries, e.Outcome C T levels p.keyKind) ∧
      leastEntry * p.entries.length ≤ (p.entries.flatMap (Entry.wireForm C p.keyKind)).length := by
  obtain ⟨keyKind, tableKeys, value, key⟩ := h.of_parts hp
  refine ⟨keyKind, tableKeys, fun e he => ?_, least_le_length value key⟩
  exact ⟨⟨(key e he).accepted, (value e he).accepted⟩, (value e he).builtin,
    (value e he).outcome hT levels, (key e he).outcome hT levels⟩

end Kind.Regular

end OrderedTable
