import OrderedTable.Proofs.Order.Pivot
import OrderedTable.Proofs.Wire.Sending

/-!
# Reading what was written

A value *travels* if it has a binary form, and if a decoder that stands before this form, whatever follows
it, reads an alike value and takes exactly that many bytes (`Kind.Travels`). Leaves of the built-in kinds
travel. So does the body of a list or table whose keys and values do (`Wire.Body`), and a block around it
(`Wire.Body.readBlock`).
-/

namespace OrderedTable

/-- The bases that are built in. -/
def Builtin (b : Base) : Prop := b ∈ Catalogue.builtin

instance (b : Base) : Decidable (Builtin b) := inferInstanceAs (Decidable (b ∈ Catalogue.builtin))

theorem not_builtin_extension (id : Nat) : ¬ Builtin (.extension id) := by
  simp [Builtin, Catalogue.builtin]

namespace Catalogue

variable (C : Catalogue)

theorem registered_of_builtin {b : Base} (h : Builtin b) : C.Registered b := List.mem_append_left _ h

/-- The built-in kinds can be told apart, and order and digest their values. -/
theorem lawful_builtin : C.Lawful Builtin where
  apart _ _ ha _ hnone := absurd hnone (C.registered_of_builtin ha).baseIndex?_ne_none
  extension id hid := absurd hid (not_builtin_extension id)
  agrees id hid := absurd hid (not_builtin_extension id)

/-- The built-in kinds have an index each. -/
theorem ranks_builtin : C.Ranks Builtin where
  registered _ h := C.registered_of_builtin h
  extension id hid := absurd hid (not_builtin_extension id)

/-- What is read is alike what was written. -/
def rebinding (inPlace : Bool) : Likeness where
  keeps := Builtin
  kind := C.rebound inPlace
  base_kind := C.base_rebound inPlace
  form _ _ := True

/-- Extensions have no say in it, as only built-in kinds keep. -/
theorem respects_rebinding (inPlace : Bool) : C.Respects (C.rebinding inPlace) :=
  fun id hid => absurd hid (not_builtin_extension id)

end Catalogue

/-- What has the same parts is as much alike. -/
theorem Datum.Alike.of_parts {C : Catalogue} {inPlace : Bool} {d e d' : Datum}
    (h : Alike (C.rebinding inPlace) d d') {k : Kind} {p : Parts} (hd : k.parts? d = some p)
    (he : k.parts? e = some p) : Alike (C.rebinding inPlace) e d' := by
  obtain ⟨p', pairs, hp', hfirsts, hseconds, hkeys, hpairs⟩ := h.parts_of hd
  exact .of_pairs k he hp' hfirsts hseconds hkeys hpairs trivial

open Wire

/-- A value with a binary form that is read as an alike value, whatever follows it. -/
structure Kind.Travels (C : Catalogue) (decode : Decoder) (k : Kind) (d : Datum) (bs : Bytes) :
    Prop where
  builtin : Builtin k.base
  accepted : k.accepts C d = true
  written : k.encode C d = .ok bs
  nonempty : 0 < bs.length
  read : bs.length < limit → ∀ (input : Input) (rest : Bytes), input.Sound → input.bytes = bs ++ rest →
    ∃ d', decode k.owner input = .ok (d', bs.length) ∧ Datum.Alike (C.rebinding input.isInPlace) d d'

/-- What travels is sent. -/
theorem Kind.Travels.sent {C : Catalogue} {decode : Decoder} {k : Kind} {d : Datum} {bs : Bytes}
    (h : k.Travels C decode d bs) :
    k.Sent C decode (fun inPlace => Datum.Alike (C.rebinding inPlace)) d := by
  obtain rfl := wireForm_of_encode h.written
  exact ⟨C.kindNumbered_wireIndex h.builtin, h.written, h.read⟩

/-! ## Leaves -/

namespace Datum

/-- What lies in a box is seen as it is out of it. -/
theorem SameViews.of_peel {d d' : Datum} (h : d.peel = d'.peel) : d.SameViews d' := by
  refine ⟨fun s => ?_, ?_, ?_⟩
  · simp only [scalarOf?, scalar?, h]
  · simp only [textBytes?, h]
  · simp only [bytes?, h]

/-- What is seen as a scalar of a kind is one, perhaps in a box. -/
theorem only_scalar {d : Datum} {s : ScalarKind} {x : Scalar} (h : d.scalarOf? s = some x) :
    d.peel = .scalar x ∧ x.kind = s := by
  refine ⟨?_, kind_of_scalarOf? h⟩
  have h := (Option.filter_eq_some_iff.1 h).1
  unfold scalar? at h
  split at h
  · next y hy => rw [hy, Option.some.inj h]
  · cases h

/-- What is seen as text is seen as nothing else. -/
theorem only_text {d : Datum} {bs : Bytes} (h : d.textBytes? = some bs) :
    (∀ s, d.scalarOf? s = none) ∧ d.bytes? = none ∧ d.IsLeaf := by
  unfold textBytes? at h
  split at h
  · next hd => exact ⟨fun s => by simp [scalarOf?, scalar?, hd], by simp [bytes?, hd], by
      simp [IsLeaf, list?, table?, hd]⟩
  · next hd => exact ⟨fun s => by simp [scalarOf?, scalar?, hd], by simp [bytes?, hd], by
      simp [IsLeaf, list?, table?, hd]⟩
  · cases h

/-- Text in a plain form is UTF-8 in any case. -/
theorem utf8_of_textBytes? {d : Datum} (hkept : ∀ s, d.peel = .text s → (Utf8.decode? s.bytes).isSome)
    {bs : Bytes} (h : d.textBytes? = some bs) : (Utf8.decode? bs).isSome := by
  unfold textBytes? at h
  split at h
  · next s hd => exact Option.some.inj h ▸ hkept s hd
  · next form text hd =>
    rw [← Option.some.inj h, Utf8.decode?_encode]
    rfl
  · cases h

/-- What is seen as bytes is seen as nothing else. -/
theorem only_bytes {d : Datum} {bs : Bytes} (h : d.bytes? = some bs) :
    (∀ s, d.scalarOf? s = none) ∧ d.textBytes? = none ∧ d.IsLeaf := by
  unfold bytes? at h
  split at h
  · next hd => exact ⟨fun s => by simp [scalarOf?, scalar?, hd], by simp [textBytes?, hd], by
      simp [IsLeaf, list?, table?, hd]⟩
  · next hd => exact ⟨fun s => by simp [scalarOf?, scalar?, hd], by simp [textBytes?, hd], by
      simp [IsLeaf, list?, table?, hd]⟩
  · cases h

/-- What lies in a box is a leaf as it is out of it. -/
theorem IsLeaf.of_peel {d d' : Datum} (h : d.peel = d'.peel) (hd : d'.IsLeaf) : d.IsLeaf := by
  simpa only [IsLeaf, list?, table?, h] using hd

end Datum

theorem ScalarKind.bytes_pos (s : ScalarKind) : 0 < s.bytes := by
  cases s with
  | bool => exact Nat.one_pos
  | int k => cases k <;> decide
  | float k => cases k <;> decide

section
variable {C : Catalogue} {k : Kind} {d : Datum} {input : Input} {rest : Bytes}

/-- What is measured is read where it lies. -/
private theorem measured_ahead {bs : Bytes} (h : input.Sound)
    (hbytes : input.bytes = measured bs ++ rest) (hlimit : bs.length < limit) :
    measuredAhead input.bytes = .ok (8, bs.length) ∧ (input.storage 8 bs.length).bytes = bs := by
  refine ⟨by rw [hbytes, measuredAhead_measured hlimit], ?_⟩
  rw [h.storage, hbytes, measured, List.append_assoc, List.drop_left' (Bytes.length_ofNat _ _),
    List.take_left]

/-- Eight bytes for the length, and the bytes. -/
theorem length_measured (bs : Bytes) : (measured bs).length = 8 + bs.length := by
  simp [measured]

/-- A leaf travels if its binary form is read as a leaf that is seen in the same way. -/
theorem Kind.travels_of_leaf (hk : Builtin k.base) (hlist : k.base ≠ .list) (htable : k.base ≠ .table)
    (haccepted : k.accepts C d = true) (hleaf : d.IsLeaf) {bs : Bytes}
    (hwritten : k.encodeLeaf C d = .ok bs) (hnonempty : 0 < bs.length) (levels : Nat)
    (hread : bs.length < limit → ∀ (input : Input) (rest : Bytes), input.Sound →
      input.bytes = bs ++ rest →
        ∃ d', k.owner.decodeLeaf C input = .ok (d', bs.length) ∧ d'.IsLeaf ∧ d.SameViews d') :
    k.Travels C (Kind.decodeWithin C levels) d bs := by
  refine ⟨hk, haccepted, ?_, hnonempty, fun hlimit input rest hsound hbytes => ?_⟩
  · rw [encode, read_leaf (hleaf.parts? k)]
    exact hwritten
  · obtain ⟨d', hdecode, hleaf', hviews⟩ := hread hlimit input rest hsound hbytes
    exact ⟨d', (decodeWithin_leaf (k := k.owner) hlist htable levels input).trans hdecode,
      .leaf hleaf hleaf' hviews trivial⟩

/-- A scalar travels. -/
theorem Kind.travels_scalar {s : ScalarKind} (hk : Builtin k.base) (hb : k.base = .scalar s)
    (haccepted : k.accepts C d = true) (levels : Nat) :
    ∃ bs, k.Travels C (Kind.decodeWithin C levels) d bs := by
  obtain ⟨x, hx⟩ : ∃ x, d.scalarOf? s = some x := by
    rw [accepts, hb] at haccepted
    exact Option.isSome_iff_exists.1 haccepted
  -- a scalar may lie in a box, and is written out of it
  obtain ⟨hpeel, rfl⟩ := Datum.only_scalar hx
  have hpeel : d.peel = (Datum.scalar x).peel := hpeel
  have hb' : k.owner.base = .scalar x.kind := hb
  refine ⟨x.encode, travels_of_leaf hk (by simp [hb]) (by simp [hb]) haccepted
    (.of_peel hpeel ⟨rfl, rfl⟩) ?_ ?_ levels fun _ input rest _ hbytes => ?_⟩
  · simp only [encodeLeaf, hb, hx, Option.map_some]
  · rw [Scalar.length_encode]
    exact x.kind.bytes_pos
  · have hlength : ¬ input.bytes.length < x.kind.bytes := by
      rw [hbytes, List.length_append, Scalar.length_encode]
      omega
    have htake : input.bytes.take x.kind.bytes = x.encode := by
      rw [hbytes, List.take_left' (Scalar.length_encode x)]
    refine ⟨.scalar x, ?_, ⟨rfl, rfl⟩, .of_peel hpeel⟩
    simp only [decodeLeaf, hb', if_neg hlength, htake, Scalar.decode_encode, Scalar.length_encode]

/-- A text travels. -/
theorem Kind.travels_text {caseBlind : Bool} (hk : Builtin k.base) (hb : k.base = .text caseBlind)
    (haccepted : k.accepts C d = true)
    (hvalid : ∀ s, d.peel = .text s → (Utf8.decode? s.bytes).isSome) (levels : Nat) :
    ∃ bs, k.Travels C (Kind.decodeWithin C levels) d bs := by
  obtain ⟨text, htext⟩ : ∃ bs, d.textBytes? = some bs := by
    rw [accepts, hb] at haccepted
    exact Option.isSome_iff_exists.1 haccepted
  -- what is seen as text in any form is read as text kept in bytes
  obtain ⟨hscalar, hnobytes, hleaf⟩ := Datum.only_text htext
  have hb' : k.owner.base = .text caseBlind := hb
  refine ⟨measured text, travels_of_leaf hk (by simp [hb]) (by simp [hb])
    haccepted hleaf ?_ ?_ levels fun hlimit input rest hsound hbytes => ?_⟩
  · simp only [encodeLeaf, hb, htext, Option.map_some]
  · rw [length_measured]
    omega
  · rw [length_measured] at hlimit
    obtain ⟨hahead, hstorage⟩ := measured_ahead hsound hbytes (by omega)
    refine ⟨.text (input.storage 8 text.length), ?_, ⟨rfl, rfl⟩, hscalar, ?_, hnobytes⟩
    · simp only [decodeLeaf, hb', hahead, ok_bind, hstorage, if_pos (Datum.utf8_of_textBytes? hvalid htext)]
      rw [length_measured]
      rfl
    · exact htext.trans (congrArg some hstorage).symm

/-- A byte string travels. -/
theorem Kind.travels_bytes (hk : Builtin k.base) (hb : k.base = .bytes)
    (haccepted : k.accepts C d = true) (levels : Nat) :
    ∃ bs, k.Travels C (Kind.decodeWithin C levels) d bs := by
  obtain ⟨bytes, hfound⟩ : ∃ bs, d.bytes? = some bs := by
    rw [accepts, hb] at haccepted
    exact Option.isSome_iff_exists.1 haccepted
  obtain ⟨hscalar, hnotext, hleaf⟩ := Datum.only_bytes hfound
  have hb' : k.owner.base = .bytes := hb
  refine ⟨measured bytes, travels_of_leaf hk (by simp [hb]) (by simp [hb])
    haccepted hleaf ?_ ?_ levels fun hlimit input rest hsound hbytes => ?_⟩
  · simp only [encodeLeaf, hb, hfound, Option.map_some]
  · rw [length_measured]
    omega
  · rw [length_measured] at hlimit
    obtain ⟨hahead, hstorage⟩ := measured_ahead hsound hbytes (by omega)
    refine ⟨.bytes (input.storage 8 bytes.length), ?_, ⟨rfl, rfl⟩, hscalar, hnotext, ?_⟩
    · simp only [decodeLeaf, hb', hahead, ok_bind]
      rw [length_measured]
      rfl
    · exact hfound.trans (congrArg some hstorage).symm

/-- What a built-in kind accepts that is not of lists or tables is a leaf. -/
theorem Kind.isLeaf_of_accepts (hk : Builtin k.base) (hlist : k.base ≠ .list) (htable : k.base ≠ .table)
    (h : k.accepts C d = true) : d.IsLeaf := by
  rw [accepts] at h
  cases hb : k.base with
  | scalar s =>
    simp only [hb] at h
    obtain ⟨x, hx⟩ := Option.isSome_iff_exists.1 h
    have hpeel : d.peel = (Datum.scalar x).peel := (Datum.only_scalar hx).1
    exact .of_peel hpeel ⟨rfl, rfl⟩
  | text caseBlind =>
    simp only [hb] at h
    obtain ⟨x, hx⟩ := Option.isSome_iff_exists.1 h
    exact (Datum.only_text hx).2.2
  | bytes =>
    simp only [hb] at h
    obtain ⟨x, hx⟩ := Option.isSome_iff_exists.1 h
    exact (Datum.only_bytes hx).2.2
  | list => exact absurd hb hlist
  | table => exact absurd hb htable
  | extension id => exact absurd (hb ▸ hk) (not_builtin_extension id)

/-- A leaf that a built-in kind writes is one that it accepts, and what it writes is not empty. -/
theorem Kind.accepts_of_encodeLeaf (hk : Builtin k.base) {bs : Bytes} (h : k.encodeLeaf C d = .ok bs) :
    k.base ≠ .list ∧ k.base ≠ .table ∧ k.accepts C d = true ∧ 0 < bs.length := by
  have hmeasured : ∀ text, 0 < (measured text).length := fun text => by
    rw [length_measured]
    omega
  have hwritten : ∀ fault, k.encodeLeaf C d ≠ .error fault := fun fault hfault => by
    cases hfault.symm.trans h
  rw [accepts]
  cases hb : k.base with
  | scalar s =>
    cases hx : d.scalarOf? s with
    | none => exact absurd (by simp only [encodeLeaf, hb, hx, Option.map_none]) (hwritten (.mismatch (C.name k)))
    | some x =>
      have hform : k.encodeLeaf C d = .ok x.encode := by simp only [encodeLeaf, hb, hx, Option.map_some]
      obtain rfl := Except.ok.inj (hform.symm.trans h)
      refine ⟨by simp, by simp, congrArg Option.isSome hx, ?_⟩
      rw [Scalar.length_encode]
      exact x.kind.bytes_pos
  | text caseBlind =>
    cases hx : d.textBytes? with
    | none => exact absurd (by simp only [encodeLeaf, hb, hx, Option.map_none]) (hwritten (.mismatch (C.name k)))
    | some text =>
      have hform : k.encodeLeaf C d = .ok (measured text) := by simp only [encodeLeaf, hb, hx, Option.map_some]
      obtain rfl := Except.ok.inj (hform.symm.trans h)
      exact ⟨by simp, by simp, rfl, hmeasured text⟩
  | bytes =>
    cases hx : d.bytes? with
    | none => exact absurd (by simp only [encodeLeaf, hb, hx, Option.map_none]) (hwritten (.mismatch (C.name k)))
    | some bytes =>
      have hform : k.encodeLeaf C d = .ok (measured bytes) := by simp only [encodeLeaf, hb, hx, Option.map_some]
      obtain rfl := Except.ok.inj (hform.symm.trans h)
      exact ⟨by simp, by simp, rfl, hmeasured bytes⟩
  | list | table => exact absurd (by simp only [encodeLeaf, hb]) (hwritten (.mismatch (C.name k)))
  | extension id => exact absurd (hb ▸ hk) (not_builtin_extension id)

/-- What a built-in kind accepts that is not of lists or tables travels. (What is asked of text holds of all
text that the library keeps.) -/
theorem Kind.travels_leaf (hk : Builtin k.base) (hlist : k.base ≠ .list) (htable : k.base ≠ .table)
    (haccepted : k.accepts C d = true)
    (hvalid : ∀ s, d.peel = .text s → (Utf8.decode? s.bytes).isSome) (levels : Nat) :
    ∃ bs, k.Travels C (Kind.decodeWithin C levels) d bs := by
  cases hb : k.base with
  | scalar s => exact travels_scalar hk hb haccepted levels
  | text caseBlind => exact travels_text hk hb haccepted hvalid levels
  | bytes => exact travels_bytes hk hb haccepted levels
  | list => exact absurd hb hlist
  | table => exact absurd hb htable
  | extension id => exact absurd (hb ▸ hk) (not_builtin_extension id)

/-! ## Blocks -/

namespace Wire

variable {decode : Decoder} {K : Kind}

variable (C decode K) in
/-- The binary form of entries: of each the index of its kind, its value and its key, which travel. -/
inductive Body : List (Entry Datum) → Bytes → Prop
  | nil : Body [] []
  | cons {e : Entry Datum} {es : List (Entry Datum)} {index : Nat} {value key following : Bytes}
      (hindex : C.wireIndex e.kind = .ok index) (hvalue : e.kind.Travels C decode e.value value)
      (hkey : K.Travels C decode e.key key) (hrest : Body es following) :
      Body (e :: es) (Bytes.ofNat 2 index ++ value ++ key ++ following)

namespace Body

variable {es : List (Entry Datum)} {body : Bytes}

/-- Entries whose keys and values travel have a body. -/
theorem exists_of_travels (hkey : ∀ e ∈ es, ∃ bs, K.Travels C decode e.key bs)
    (hvalue : ∀ e ∈ es, ∃ bs, e.kind.Travels C decode e.value bs) : ∃ body, Body C decode K es body := by
  -- entry by entry, the index of its kind is there as the kind is built in
  induction es with
  | nil => exact ⟨[], .nil⟩
  | cons e es ih =>
    obtain ⟨key, hk⟩ := hkey e List.mem_cons_self
    obtain ⟨value, hv⟩ := hvalue e List.mem_cons_self
    obtain ⟨index, hindex, -⟩ := C.kindNumbered_wireIndex hv.builtin
    obtain ⟨following, hrest⟩ := ih (fun f hf => hkey f (List.mem_cons_of_mem _ hf))
      fun f hf => hvalue f (List.mem_cons_of_mem _ hf)
    exact ⟨_, .cons hindex hv hk hrest⟩

theorem written (h : Body C decode K es body) :
    C.encodeEntries (es.map (Entry.map (K.encode C) (Kind.encode C))) = .ok body := by
  induction h with
  | nil => rfl
  | cons hindex hvalue hkey _ ih =>
    rw [List.map_cons, Catalogue.encodeEntries, ih]
    simp only [Entry.map, hindex, hvalue.written, hkey.written]
    rfl

/-- Every entry takes as many bytes as the decoder reckons with. -/
theorem least_le_length (h : Body C decode K es body) : leastEntry * es.length ≤ body.length := by
  induction h with
  | nil => exact Nat.le_refl _
  | cons _ hvalue hkey _ ih =>
    have := hvalue.nonempty
    have := hkey.nonempty
    simp only [leastEntry, List.length_cons, List.length_append, Bytes.length_ofNat] at ih ⊢
    omega

/-- A block around the body is the binary form of what has these entries. -/
theorem encode_eq (h : Body C decode K es body) {k : Kind} {d : Datum} {p : Parts}
    (hp : k.parts? d = some p) (hkeyKind : p.keyKind = K) (hentries : p.entries = es) {index : Nat}
    (hindex : C.wireIndex K = .ok index) : k.encode C d = .ok (header index es.length ++ body) := by
  rw [Kind.encode_parts hp, Catalogue.encodeBlock, hkeyKind, hentries, hindex, h.written, ok_bind,
    ok_bind, List.length_map]
  rfl

theorem accepted (h : Body C decode K es body) {e : Entry Datum} (he : e ∈ es) :
    K.accepts C e.key = true ∧ e.kind.accepts C e.value = true := by
  induction h with
  | nil => cases he
  | cons _ hvalue hkey _ ih =>
    rcases List.mem_cons.1 he with rfl | he
    · exact ⟨hkey.accepted, hvalue.accepted⟩
    · exact ih he

end Body

namespace Body

variable {es : List (Entry Datum)} {body : Bytes}

/-- A body is the forms of its entries, one behind another. -/
theorem eq_flatMap (h : Body C decode K es body) : body = es.flatMap (Entry.wireForm C K) := by
  induction h with
  | nil => rfl
  | cons hindex hvalue hkey _ ih =>
    rw [List.flatMap_cons, ← ih, Entry.wireForm, hindex, Kind.wireForm_of_encode hvalue.written,
      Kind.wireForm_of_encode hkey.written]
    rfl

/-- The entries of a body are sent. -/
theorem sent (h : Body C decode K es body) : ∀ e ∈ es, Builtin e.kind.base ∧
    e.Sent C decode (fun inPlace => Datum.Alike (C.rebinding inPlace)) K := by
  induction h with
  | nil => exact List.forall_mem_nil _
  | cons _ hvalue hkey _ ih => exact List.forall_mem_cons.2 ⟨⟨hvalue.builtin, hvalue.sent, hkey.sent⟩, ih⟩

/-- A block around a body is read whole. The count of entries bounds how many buckets a table gets. -/
theorem readBlock (h : Body C decode K es body) (admits : Kind → Entry Datum → Bool) (hk : Builtin K.base)
    {index : Nat} (hindex : C.wireIndex K = .ok index) (hsound : input.Sound)
    (hbytes : input.bytes = header index es.length ++ body ++ rest)
    (hlimit : (header index es.length ++ body).length < limit)
    (hadmits : ∀ e ∈ es, ∀ e', Entry.Alike (C.rebinding input.isInPlace) e e' →
      admits K.owner e' = true) :
    ∃ pairs : List (Entry Datum × Entry Datum), es = pairs.map Prod.fst ∧
      (∀ z ∈ pairs, Entry.Alike (C.rebinding input.isInPlace) z.1 z.2) ∧
      Wire.readBlock C decode admits input =
        .ok ⟨C.rebound input.isInPlace K, es.length, pairs.map Prod.snd,
          (header index es.length ++ body).length, none⟩ := by
  have hleast := h.least_le_length
  have hsent := h.sent
  obtain rfl := h.eq_flatMap
  have alike : ∀ e ∈ es, ∀ e', e.ReadAs C (fun inPlace => Datum.Alike (C.rebinding inPlace))
      input.isInPlace e' → Entry.Alike (C.rebinding input.isInPlace) e e' :=
    fun e he e' hread => ⟨(hsent e he).1, hread.kind, hread.key, hread.value⟩
  obtain ⟨pairs, hfirsts, hreceived, hread⟩ := readBlock_sent (C.kindNumbered_wireIndex hk) hindex
    (fun e he => (hsent e he).2) hsound hbytes hlimit fun e he e' h => hadmits e he e' (alike e he e' h)
  refine ⟨pairs, hfirsts, fun z hz => ?_, ?_⟩
  · exact alike z.1 (hfirsts ▸ List.mem_map_of_mem hz) z.2 (hreceived.readAs z hz)
  · rw [hread, wanted_eq_of_least hleast hbytes]

end Body

end Wire

end

end OrderedTable
