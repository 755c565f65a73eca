import OrderedTable.Proofs.Wire.Mirror

/-!
# Decoding in place and decoding copies agree

On every input, whether it is well-formed or not, a decoder that copies and one that works in place have
the same fault or mirrored results, and take the same number of bytes. This is shown for leaves, entries
and blocks in turn, and for values by induction on the levels that are left
(`Kind.decodeWithin_mirrored`).

`Catalogue.Impartial` is what is asked of the registered extensions: the same for their own decoders, and
that they do not tell mirrored data apart.
-/

namespace OrderedTable

open Wire

variable {C : Catalogue} {buffer : Bytes} {input input' : Input}

/-- Mirrored data that take the same number of bytes. -/
def SameDatum (C : Catalogue) (buffer : Bytes) (r r' : Datum × Nat) : Prop :=
  Datum.Mirrored C buffer r.1 r'.1 ∧ r'.2 = r.2

/-- An extension that does not tell mirrored data apart, and decodes them from mirrored input. -/
structure Extension.Impartial (C : Catalogue) (x : Extension) : Prop where
  respects : ∀ buffer, x.Respects (C.mirroring buffer)
  decode : ∀ buffer input input', Input.Mirrors buffer input input' →
    SameOutcome (SameDatum C buffer) (x.decode input) (x.decode input')

/-- All registered extensions are impartial. -/
def Catalogue.Impartial (C : Catalogue) : Prop :=
  ∀ id ∈ C.registered, (C.extension id).Impartial C

theorem Catalogue.Impartial.respects (h : C.Impartial) (buffer : Bytes) :
    C.Respects (C.mirroring buffer) :=
  fun id hid => (h id hid.of_extension).respects buffer

/-- A decoder that has the same outcome in place as by copy, under kinds with an index. -/
def Wire.Decoder.Agrees (C : Catalogue) (buffer : Bytes) (decode : Decoder) : Prop :=
  ∀ k input input', C.Registered k.base → Input.Mirrors buffer input input' →
    SameOutcome (SameDatum C buffer) (decode k input) (decode k input')

/-! ## Leaves -/

/-- Leaves are read alike: both are faults, or the one in place is a window on what the other copies. -/
theorem Kind.decodeLeaf_mirrored (hC : C.Impartial) {k : Kind} (hk : C.Registered k.base)
    (h : Input.Mirrors buffer input input') :
    SameOutcome (SameDatum C buffer) (k.decodeLeaf C input) (k.decodeLeaf C input') := by
  unfold decodeLeaf
  rw [h.bytes]
  split
  · split
    · exact .fault _
    · exact .result ⟨.scalar _, rfl⟩
  · -- text: both are checked to be UTF-8, and both show the same bytes
    refine .bind_same fun ⟨start, length⟩ hahead => ?_
    obtain ⟨offset, bs, window, hcopy, hplace⟩ := h.storage (le_of_measuredAhead hahead)
    have hbytes : (input.storage start length).bytes = bs := by rw [hcopy]; rfl
    have hbytes' : (input'.storage start length).bytes = bs := by rw [hplace]; exact window.shows
    show SameOutcome (SameDatum C buffer)
      (if (Utf8.decode? (input.storage start length).bytes).isSome then
        .ok (.text (input.storage start length), start + length) else .error WireFault.notUtf8)
      (if (Utf8.decode? (input'.storage start length).bytes).isSome then
        .ok (.text (input'.storage start length), start + length) else .error WireFault.notUtf8)
    rw [hbytes, hbytes', hcopy, hplace]
    split
    · next valid => exact .result ⟨.text window valid, rfl⟩
    · exact .fault _
  · refine .bind_same fun ⟨start, length⟩ hahead => ?_
    obtain ⟨offset, bs, window, hcopy, hplace⟩ := h.storage (le_of_measuredAhead hahead)
    simp only [hcopy, hplace]
    exact .result ⟨.bytes window, rfl⟩
  · exact .fault _
  · exact .fault _
  · next id hb => exact (hC id (Catalogue.Registered.of_extension (hb ▸ hk))).decode buffer _ _ h

/-! ## Blocks -/

namespace Wire

variable {decode : Decoder} {keyKind : Kind}

/-- Entries are read alike if the decoder reads their values and keys alike. -/
theorem readEntry_mirrored (hdecode : Decoder.Agrees C buffer decode)
    (h : Input.Mirrors buffer input input') (hk : C.Registered keyKind.base) (place : Nat) :
    SameOutcome (fun r r' => r.1.Mirrored C buffer r'.1 ∧ r'.2 = r.2)
      (readEntry C decode input keyKind place) (readEntry C decode input' keyKind place) := by
  unfold readEntry
  rw [h.bytes]
  refine .bind_same fun index _ => .bind_same fun kind hkind => ?_
  have hkind := Catalogue.registered_of_kindNumbered hkind
  refine (hdecode kind _ _ hkind (h.advance _)).bind ?_
  rintro ⟨value, valueLength⟩ ⟨value', _⟩ ⟨hvalue, rfl⟩
  refine (hdecode keyKind _ _ hk (h.advance _)).bind ?_
  rintro ⟨key, keyLength⟩ ⟨key', _⟩ ⟨hkey, rfl⟩
  rw [Catalogue.decodedKind_copied h.isInPlace_left,
    Catalogue.decodedKind_inPlace h.isInPlace_right hkind]
  exact .result ⟨⟨hkind, rfl, hkey, hvalue⟩, rfl⟩

/-- Entries are read up to the same place, with the same fault. -/
theorem readEntries_mirrored (hdecode : Decoder.Agrees C buffer decode)
    (h : Input.Mirrors buffer input input') (hk : C.Registered keyKind.base)
    {admits : Kind → Entry Datum → Bool}
    (hadmits : ∀ e e', e.Mirrored C buffer e' → admits keyKind e = admits keyKind e')
    (count place : Nat) :
    ∃ (pairs : List (Entry Datum × Entry Datum)) (after : Nat) (fault : Option WireFault),
      (∀ z ∈ pairs, z.1.Mirrored C buffer z.2) ∧
      readEntries C decode admits input keyKind count place = (pairs.map Prod.fst, after, fault) ∧
      readEntries C decode admits input' keyKind count place =
        (pairs.map Prod.snd, after, fault) := by
  have none_read : ∀ z ∈ ([] : List (Entry Datum × Entry Datum)), z.1.Mirrored C buffer z.2 :=
    fun _ hz => absurd hz List.not_mem_nil
  induction count generalizing place with
  | zero => exact ⟨[], place, none, none_read, rfl, rfl⟩
  | succ count ih =>
    have hentry := readEntry_mirrored hdecode h hk place
    rw [readEntries, readEntries, h.bytes]
    by_cases hplace : place < input.bytes.length
    · rw [if_pos hplace, if_pos hplace]
      -- both reads fail, or both go on behind the entry
      generalize readEntry C decode input keyKind place = x at hentry ⊢
      generalize readEntry C decode input' keyKind place = y at hentry ⊢
      cases hentry with
      | fault fault => exact ⟨[], place, some fault, none_read, rfl, rfl⟩
      | @result r r' hr =>
        obtain ⟨entry, length⟩ := r
        obtain ⟨entry', length'⟩ := r'
        obtain ⟨hentry, rfl⟩ : entry.Mirrored C buffer entry' ∧ length' = length := hr
        obtain ⟨pairs, after, fault, hpairs, hcopy, hplace⟩ := ih (place + length')
        simp only [hcopy, hplace, ← hadmits entry entry' hentry]
        split
        · refine ⟨(entry, entry') :: pairs, after, fault, fun z hz => ?_, rfl, rfl⟩
          rcases List.mem_cons.1 hz with rfl | hz
          · exact hentry
          · exact hpairs z hz
        · exact ⟨[], place, _, none_read, rfl, rfl⟩
    · rw [if_neg hplace, if_neg hplace]
      exact ⟨[], place, none, none_read, rfl, rfl⟩

/-- Blocks whose entries mirror one another, read up to the same place with the same fault. -/
structure Block.Mirrored (C : Catalogue) (buffer : Bytes) (b b' : Block) : Prop where
  keyKind : C.Registered b.keyKind.base ∧ b'.keyKind = C.mirrored b.keyKind
  wanted : b'.wanted = b.wanted
  consumed : b'.consumed = b.consumed
  fault : b'.fault = b.fault
  entries : ∃ pairs : List (Entry Datum × Entry Datum), (∀ z ∈ pairs, z.1.Mirrored C buffer z.2) ∧
    b.entries = pairs.map Prod.fst ∧ b'.entries = pairs.map Prod.snd

/-- Blocks are read alike if the decoder reads what lies in them alike. -/
theorem readBlock_mirrored (hdecode : Decoder.Agrees C buffer decode)
    (h : Input.Mirrors buffer input input') {admits : Kind → Entry Datum → Bool}
    (hadmits : ∀ k, C.Registered k.base → ∀ e e', e.Mirrored C buffer e' → admits k e = admits k e') :
    SameOutcome (Block.Mirrored C buffer) (readBlock C decode admits input)
      (readBlock C decode admits input') := by
  unfold readBlock
  rw [h.bytes]
  refine .bind_same fun ⟨keyKind, declared⟩ hheader => ?_
  have hk := registered_of_readHeader hheader
  obtain ⟨pairs, after, fault, hpairs, hcopy, hplace⟩ :=
    readEntries_mirrored hdecode h hk (hadmits keyKind hk) declared headerLength
  simp only [hcopy, hplace, List.length_map, Catalogue.decodedKind_copied h.isInPlace_left,
    Catalogue.decodedKind_inPlace h.isInPlace_right hk]
  exact .result ⟨⟨hk, rfl⟩, rfl, rfl, rfl, pairs, hpairs, rfl, rfl⟩

end Wire

/-- What is decoded by copy and in place: mirrored, up to the same byte, with the same fault. -/
structure Decoded.Mirrored {α : Type} (R : α → α → Prop) (d d' : Decoded α) : Prop where
  value : R d.value d'.value
  consumed : d'.consumed = d.consumed
  fault : d'.fault = d.fault

namespace Decoded.Mirrored

variable {α : Type} {R : α → α → Prop} {d d' : Decoded α}

/-- Both are whole, or neither is. -/
theorem whole (h : d.Mirrored R d') : SameOutcome R d.whole d'.whole := by
  rw [Decoded.whole, Decoded.whole, h.fault]
  cases d.fault with
  | none => exact .result h.value
  | some fault => exact .fault fault

end Decoded.Mirrored

namespace Wire.Block.Mirrored

variable {b b' : Block}

theorem toListing (h : b.Mirrored C buffer b') :
    b.toListing.Mirrored (fun l l' => Datum.Mirrored C buffer (.list l) (.list l')) b'.toListing := by
  obtain ⟨pairs, hpairs, hfirsts, hseconds⟩ := h.entries
  refine ⟨?_, h.consumed, h.fault⟩
  exact .list pairs hfirsts hseconds h.keyKind (fun z hz => ⟨(hpairs z hz).registered, (hpairs z hz).kind⟩)
    (fun z hz => (hpairs z hz).key) fun z hz => (hpairs z hz).value

/-- Mirrored blocks make mirrored tables, as entry by entry the same is taken. -/
theorem toTable (hC : C.Impartial) (h : b.Mirrored C buffer b') :
    (b.toTable C).Mirrored (Table.Mirrored C buffer) (b'.toTable C) := by
  obtain ⟨pairs, hpairs, hfirsts, hseconds⟩ := h.entries
  refine ⟨?_, h.consumed, h.fault⟩
  show Table.Mirrored C buffer ((Table.empty b.keyKind b.wanted).addAll C b.entries)
    ((Table.empty b'.keyKind b'.wanted).addAll C b'.entries)
  rw [h.wanted, h.keyKind.2, hfirsts, hseconds]
  exact (Table.Mirrored.empty h.keyKind.1 b.wanted).addAll (hC.respects buffer) hpairs

end Wire.Block.Mirrored

/-! ## Values -/

/-- A table takes mirrored entries alike. -/
theorem Wire.tableAdmits_mirrored (hC : C.Impartial) (k : Kind) (hk : C.Registered k.base)
    (e e' : Entry Datum) (he : e.Mirrored C buffer e') : tableAdmits C k e = tableAdmits C k e' := by
  obtain ⟨hkey, hvalue⟩ := Table.Mirrored.accepts_eq (hC.respects buffer) hk rfl he
  rw [tableAdmits, tableAdmits, hkey, hvalue]

/-- However deep values may lie, decoding them in place and by copy agrees. -/
theorem Kind.decodeWithin_mirrored (hC : C.Impartial) (levels : Nat) :
    Decoder.Agrees C buffer (Kind.decodeWithin C levels) := by
  induction levels with
  | zero =>
    intro k input input' hk h
    by_cases hnested : k.base = .list ∨ k.base = .table
    · rw [decodeWithin_zero hnested, decodeWithin_zero hnested]
      exact .fault _
    · obtain ⟨hlist, htable⟩ := not_or.1 hnested
      rw [decodeWithin_leaf hlist htable, decodeWithin_leaf hlist htable]
      exact decodeLeaf_mirrored hC hk h
  | succ levels ih =>
    intro k input input' hk h
    by_cases hlist : k.base = .list
    · rw [decodeWithin_list hlist, decodeWithin_list hlist]
      refine (readBlock_mirrored ih h.nested fun _ _ _ _ _ => rfl).bind fun b b' hb => ?_
      refine hb.toListing.whole.bind fun l l' hl => .result ⟨hl, hb.consumed⟩
    · by_cases htable : k.base = .table
      · rw [decodeWithin_table htable, decodeWithin_table htable]
        refine (readBlock_mirrored ih h.nested (tableAdmits_mirrored hC)).bind fun b b' hb => ?_
        refine (hb.toTable hC).whole.bind fun t t' ht => .result ⟨ht, hb.consumed⟩
      · rw [decodeWithin_leaf hlist htable, decodeWithin_leaf hlist htable]
        exact decodeLeaf_mirrored hC hk h

/-- Values are read alike at every depth, as both inputs are equally deep. -/
theorem Kind.decode_mirrored (hC : C.Impartial) : Decoder.Agrees C buffer (Kind.decode C) := by
  intro k input input' hk h
  rw [decode, decode, h.depth]
  exact decodeWithin_mirrored hC _ k input input' hk h

/-- Whatever the bytes are, decoding a table from a copy and in place agrees: both have the same fault in
the header, or both take the same number of bytes, stop with the same fault if with any, and give tables
whose rows mirror one another. A value under any kind with an index is decoded alike, too. -/
theorem Table.decode_inPlace_mirrors_copied (hC : C.Impartial) (bs : Bytes) :
    SameOutcome (Decoded.Mirrored (Table.Mirrored C bs)) (Table.decode C (.copied bs))
        (Table.decode C (.inPlace bs)) ∧
      ∀ k : Kind, C.Registered k.base →
        SameOutcome (SameDatum C bs) (k.decode C (.copied bs)) (k.decode C (.inPlace bs)) := by
  have start := Input.Mirrors.start bs
  refine ⟨?_, fun k hk => Kind.decode_mirrored hC k _ _ hk start⟩
  exact (readBlock_mirrored (Kind.decode_mirrored hC) start (tableAdmits_mirrored hC)).map
    fun _ _ hb => hb.toTable hC

/-! ## The specimens -/

namespace Extension

variable {S : Likeness}

/-- What says nothing asks only whether a value is the one that it accepts. -/
theorem respects_unit (h : ∀ d d', S.form d d' → (d matches .unit) = (d' matches .unit)) :
    unit.Respects S where
  accepts_eq d d' halike := h d d' halike.form
  digest_eq _ _ _ := rfl
  order_left _ _ _ _ := rfl
  order_right _ _ _ _ := rfl

/-- What treats values as `i32` does sees scalars only. -/
theorem respects_integer (name : String) (h : unit.Respects S) (hk : S.keeps Kind.i32.base) :
    (integer name).Respects S where
  accepts_eq _ _ halike := halike.accepts_eq (C := builtinOnly) (fun _ _ => h) rfl hk
  digest_eq d d' halike := by
    rw [digest_integer, digest_integer]
    exact halike.digest_eq (C := builtinOnly) (fun _ _ => h) rfl hk
  order_left _ _ c halike := halike.order_left (C := builtinOnly) (fun _ _ => h) hk c
  order_right c _ _ halike := halike.order_right (C := builtinOnly) (fun _ _ => h) hk c

/-- A number is read from mirrored input as it is. -/
private theorem decode_i32_mirrored (h : Input.Mirrors buffer input input') :
    SameOutcome (SameDatum C buffer) (Kind.i32.decode builtinOnly input)
      (Kind.i32.decode builtinOnly input') := by
  have leaf : ∀ input, Kind.i32.decode builtinOnly input = Kind.i32.decodeLeaf builtinOnly input :=
    fun _ => Kind.decodeWithin_leaf (k := Kind.i32) (by decide) (by decide) _ _
  rw [leaf, leaf]
  unfold Kind.decodeLeaf
  rw [h.bytes]
  show SameOutcome _ (if _ then _ else _) (if _ then _ else _)
  split
  · exact .fault _
  · exact .result ⟨.scalar _, rfl⟩

end Extension

/-- The registered specimens tell apart nothing that is alike, if the value that says nothing is alike itself
only. -/
theorem Catalogue.specimens_respects {S : Likeness} (hkeeps : ∀ b, S.keeps b ↔ specimens.Registered b)
    (h : ∀ d d', S.form d d' → (d matches .unit) = (d' matches .unit)) : specimens.Respects S := by
  intro id hid
  have hunit := Extension.respects_unit h
  have hk : S.keeps Kind.i32.base := (hkeeps _).2 (by decide)
  have hid := ((hkeeps _).1 hid).of_extension
  have hid : id = 0 ∨ id = 1 ∨ id = 2 := by simpa [specimens] using hid
  rcases hid with rfl | rfl | rfl
  · exact hunit
  · have h := Extension.respects_integer "colliding_i32" hunit hk
    exact ⟨h.accepts_eq, fun _ _ _ => rfl, h.order_left, h.order_right⟩
  · have h := Extension.respects_integer "liar" hunit hk
    exact ⟨h.accepts_eq, h.digest_eq, h.order_left, h.order_right⟩

/-- The registered specimens are impartial. -/
theorem Catalogue.specimens_impartial : specimens.Impartial := by
  intro id hid
  have respects : ∀ buffer, (specimens.extension id).Respects (specimens.mirroring buffer) := by
    intro buffer
    refine specimens_respects (fun _ => .rfl) (fun d d' h => ?_) id ?_
    · have h : Datum.Mirrored specimens buffer d d' := h
      cases h <;> rfl
    · exact List.mem_append_right _ (List.mem_map_of_mem hid)
  have hid : id = 0 ∨ id = 1 ∨ id = 2 := by simpa [specimens] using hid
  rcases hid with rfl | rfl | rfl
  · exact ⟨respects, fun _ _ _ _ => .result ⟨.unit, rfl⟩⟩
  · exact ⟨respects, fun _ _ _ h => Extension.decode_i32_mirrored h⟩
  · exact ⟨respects, fun _ _ _ _ => .result ⟨.scalar _, rfl⟩⟩

/-- A block of two texts under text keys, the second of which is cut off. -/
def Wire.cutOff : Bytes :=
  header 27 2 ++ Bytes.ofNat 2 27 ++ measured [97] ++ measured [107] ++ Bytes.ofNat 2 27 ++ [9, 0]

/-- Both stop at the second text, and have a first entry that mirrors the other. -/
theorem Table.decode_inPlace_mirrors_copied_cutOff :
    Catalogue.specimens.Impartial ∧
      SameOutcome (Decoded.Mirrored (Table.Mirrored .specimens cutOff))
          (Table.decode .specimens (.copied cutOff)) (Table.decode .specimens (.inPlace cutOff)) ∧
        ∀ k : Kind, Catalogue.specimens.Registered k.base →
          SameOutcome (SameDatum .specimens cutOff) (k.decode .specimens (.copied cutOff))
            (k.decode .specimens (.inPlace cutOff)) :=
  ⟨Catalogue.specimens_impartial,
    Table.decode_inPlace_mirrors_copied Catalogue.specimens_impartial cutOff⟩

end OrderedTable
