import OrderedTable.Proofs.Datum.Rebuilding
import OrderedTable.Proofs.Wire.Accounting
import OrderedTable.Proofs.Wire.RoundTrip

/-!
# The normal form of what is read

Many byte strings are read as one table: a flag is any byte but zero, kinds may be named by their twins,
entries may stand in any order, and anything may follow them. Written again, a table that was read takes as
many bytes as it was read from, and these bytes are its normal form: they are read as the same table, and that
is written as they are (`Table.encode_decode_normal`).

Values of built-in kinds that are read are portable, and take as many bytes as before (`Kind.Recovered`). A
table that is read is filled by insertions, and since an entry takes at least four bytes it is never cut down
to fewer buckets than it has entries. A block is as long as the forms of its entries one behind another
(`Kind.length_wireForm_parts`), so it does not matter for its length that they are put in order.
-/

namespace OrderedTable

open Wire

variable {C : Catalogue} {levels : Nat} {k : Kind} {d : Datum}

/-- Twins write alike. -/
theorem Kind.wireForm_congr {k' : Kind} (h : k.base = k'.base) (d : Datum) :
    k.wireForm C d = k'.wireForm C d := by
  rw [wireForm, wireForm, Kind.encode_congr h]

namespace Kind

/-- What has parts takes a header, and what its entries take. -/
theorem length_wireForm_parts {p : Parts} (hp : k.parts? d = some p) (hk : Builtin p.keyKind.base)
    (hkey : ∀ e ∈ p.entries, p.keyKind.Portable C levels e.key)
    (hvalue : ∀ e ∈ p.entries, e.kind.Portable C levels e.value) :
    (k.wireForm C d).length = headerLength + (p.entries.flatMap (Entry.wireForm C p.keyKind)).length := by
  obtain ⟨body, hbody⟩ := Body.exists_of_travels (fun e he => (hkey e he).travels)
    fun e he => (hvalue e he).travels
  obtain ⟨index, hindex, -⟩ := C.kindNumbered_wireIndex hk
  rw [wireForm_of_encode (hbody.encode_eq hp rfl rfl hindex), List.length_append, length_header,
    ← hbody.eq_flatMap]

/-! ## Portable values -/

/-- A value is as portable under the twin. -/
theorem Portable.congr {k' : Kind} (hk : k.base = k'.base) (h : k.Portable C levels d) :
    k'.Portable C levels d := by
  cases h with
  | leaf builtin list table accepted text =>
    exact .leaf (hk ▸ builtin) (hk ▸ list) (hk ▸ table) ((accepts_congr hk d).symm.trans accepted) text
  | list base seen keyKind key value => exact .list (hk ▸ base) seen keyKind key value
  | table base seen steady capacity keyKind key value =>
    exact .table (hk ▸ base) seen steady capacity keyKind key value

/-- With more levels to spare, a value is portable all the more. -/
theorem Portable.mono {levels' : Nat} (h : k.Portable C levels d) (hle : levels ≤ levels') :
    k.Portable C levels' d := by
  induction h generalizing levels' with
  | leaf builtin list table accepted text => exact .leaf builtin list table accepted text
  | list base seen keyKind _ _ ihkey ihvalue =>
    obtain ⟨m, rfl⟩ := Nat.exists_eq_add_of_lt hle
    exact .list base seen keyKind (fun e he => ihkey e he (by omega)) fun e he => ihvalue e he (by omega)
  | table base seen steady capacity keyKind _ _ ihkey ihvalue =>
    obtain ⟨m, rfl⟩ := Nat.exists_eq_add_of_lt hle
    exact .table base seen steady capacity keyKind (fun e he => ihkey e he (by omega))
      fun e he => ihvalue e he (by omega)

theorem Portable.accepted (h : k.Portable C levels d) : k.accepts C d = true := by
  obtain ⟨bs, htravels⟩ := h.travels
  exact htravels.accepted

/-- What is written of a portable value is not empty. -/
theorem Portable.length_wireForm_pos (h : k.Portable C levels d) : 0 < (k.wireForm C d).length := by
  obtain ⟨bs, htravels⟩ := h.travels
  rw [wireForm_of_encode htravels.written]
  exact htravels.nonempty

variable (C levels) in
/-- A value that was read from the bytes ahead, and takes as many again when it is written. -/
structure Recovered (k : Kind) (input : Input) (d : Datum) (n : Nat) : Prop where
  portable : k.Portable C levels d
  length : (k.wireForm C d).length = n
  within : n ≤ input.bytes.length

theorem Recovered.of_nested {input : Input} {n : Nat} (h : k.Recovered C levels input.nested d n) :
    k.Recovered C levels input d n :=
  ⟨h.portable, h.length, h.within⟩

/-- Leaves of built-in kinds are recovered. -/
theorem decodeLeaf_recovered {input : Input} {n : Nat} (hk : Builtin k.base) (hlist : k.base ≠ .list)
    (htable : k.base ≠ .table) (hsound : input.Sound) (h : k.decodeLeaf C input = .ok (d, n)) :
    k.Recovered C levels input d n := by
  have hhonest : C.Honest k.base := fun id hid => absurd (hid ▸ hk) (not_builtin_extension id)
  obtain ⟨haccepts, hle⟩ := decodeLeaf_honest hhonest h
  -- it is left to say for each kind what is written of the leaf, and how long that is
  have recovered : ∀ {bs : Bytes}, k.encodeLeaf C d = .ok bs → bs.length = n →
      (∀ s, d.peel = .text s → (Utf8.decode? s.bytes).isSome) → k.Recovered C levels input d n := by
    intro bs hencode hlength htext
    refine ⟨.leaf hk hlist htable haccepts htext, ?_, hle⟩
    have hform : k.encode C d = .ok bs := by
      rw [encode, read_leaf (parts?_eq_none_of_base hlist htable d)]
      exact hencode
    rw [wireForm_of_encode hform, hlength]
  cases hb : k.base with
  | scalar s =>
    simp only [decodeLeaf, hb] at h
    split at h
    · cases h
    · cases h
      have hencode : k.encodeLeaf C (.scalar (.decode s (input.bytes.take s.bytes))) =
          .ok (Scalar.encode (.decode s (input.bytes.take s.bytes))) := by
        simp [encodeLeaf, hb, Datum.scalarOf?, Datum.scalar?, Datum.peel, Option.filter]
      exact recovered hencode (by rw [Scalar.length_encode, Scalar.kind_decode]) (by rintro _ ⟨⟩)
  | text caseBlind =>
    simp only [decodeLeaf, hb] at h
    obtain ⟨⟨start, length⟩, hahead, h⟩ := ok_of_bind h
    obtain rfl := start_of_measuredAhead hahead
    split at h
    · next hvalid =>
      cases h
      have hencode : k.encodeLeaf C (.text (input.storage 8 length)) =
          .ok (measured (input.storage 8 length).bytes) := by
        simp [encodeLeaf, hb, Datum.textBytes?, Datum.peel]
      refine recovered hencode ?_ ?_
      · rw [length_measured, hsound.length_storage hle]
      · rintro _ ⟨⟩
        exact hvalid
    · cases h
  | bytes =>
    simp only [decodeLeaf, hb] at h
    obtain ⟨⟨start, length⟩, hahead, h⟩ := ok_of_bind h
    obtain rfl := start_of_measuredAhead hahead
    cases h
    have hencode : k.encodeLeaf C (.bytes (input.storage 8 length)) =
        .ok (measured (input.storage 8 length).bytes) := by
      simp [encodeLeaf, hb, Datum.bytes?, Datum.peel]
    exact recovered hencode (by rw [length_measured, hsound.length_storage hle]) (by rintro _ ⟨⟩)
  | list => exact absurd hb hlist
  | table => exact absurd hb htable
  | extension id => exact absurd (hb ▸ hk) (not_builtin_extension id)

end Kind

/-! ## Blocks -/

namespace Wire

variable {decode : Decoder} {admits : Kind → Entry Datum → Bool} {input : Input} {K : Kind}

namespace EntryRead

variable {good : Kind → Prop} {place length : Nat} {e : Entry Datum}

theorem portable (h : EntryRead C good (Kind.Recovered C levels) input K place e length) :
    K.Portable C levels e.key ∧ e.kind.Portable C levels e.value := by
  cases h with
  | mk _ _ hregistered hvalue hkey =>
    exact ⟨hkey.portable, hvalue.portable.congr (C.base_decodedKind input hregistered).symm⟩

theorem length_eq (h : EntryRead C good (Kind.Recovered C levels) input K place e length) :
    length = (e.wireForm C K).length := by
  cases h with
  | mk _ _ hregistered hvalue hkey =>
    rw [Entry.length_wireForm, Kind.wireForm_congr (C.base_decodedKind input hregistered), hvalue.length,
      hkey.length]

/-- An entry takes as many bytes as the decoder reckons with, and lies in the input. -/
theorem least_le (h : EntryRead C good (Kind.Recovered C levels) input K place e length) :
    leastEntry ≤ length ∧ place + length ≤ input.bytes.length := by
  cases h with
  | mk ahead _ _ hvalue hkey =>
    have hvaluePos := hvalue.length ▸ hvalue.portable.length_wireForm_pos
    have hkeyPos := hkey.length ▸ hkey.portable.length_wireForm_pos
    have hwithin := hkey.within
    simp only [Input.advance, List.length_drop, leastEntry] at hwithin ⊢
    omega

end EntryRead

namespace BlockRead

variable {declared : Nat} {block : Block}
variable (h : BlockRead C (fun k => Builtin k.base) (Kind.Recovered C levels) decode admits input K declared
  block)
include h

theorem builtin_keyKind : Builtin block.keyKind.base := h.base_eq ▸ h.keys.1

theorem portable : (∀ e ∈ block.entries, block.keyKind.Portable C levels e.key) ∧
    ∀ e ∈ block.entries, e.kind.Portable C levels e.value := by
  have read : ∀ e ∈ block.entries, K.Portable C levels e.key ∧ e.kind.Portable C levels e.value := by
    intro e he
    obtain ⟨place, length, hentry⟩ := h.runs.exists_of_mem he
    exact hentry.parts.portable
  exact ⟨fun e he => (read e he).1.congr h.base_eq.symm, fun e he => (read e he).2⟩

theorem consumed_eq :
    block.consumed = headerLength + (block.entries.flatMap (Entry.wireForm C block.keyKind)).length := by
  refine h.runs.after_eq fun place e length hentry => ?_
  rw [hentry.parts.length_eq, Entry.wireForm, Entry.wireForm, Kind.wireForm_congr h.base_eq]

/-- Entries that were read take four bytes each, at least, and lie in the input. -/
theorem least_le : headerLength + leastEntry * block.entries.length ≤ block.consumed ∧
    block.consumed ≤ input.bytes.length :=
  h.runs.bounds (fun _ _ _ hentry => hentry.parts.least_le) (headerLength_le_of_readHeader h.header)

/-- There is room in the input for all entries that are there, so as many buckets are asked for. -/
theorem wanted_eq (hfault : block.fault = none) : block.wanted = block.entries.length := by
  have hcount := h.complete.1 hfault
  obtain ⟨hleast, hwithin⟩ := h.least_le
  rw [h.wanted, ← hcount]
  simp only [leastEntry] at hleast ⊢
  omega

/-- A list that is read takes as many bytes as the block did. -/
theorem recoversListing (hk : k.base = .list) :
    k.Recovered C (levels + 1) input (.list block.toListing.value) block.consumed where
  portable := .list hk rfl h.builtin_keyKind h.portable.1 h.portable.2
  length := (Kind.length_wireForm_parts (p := block.toListing.value.parts) (Kind.parts?_of_list hk rfl)
    h.builtin_keyKind h.portable.1 h.portable.2).trans h.consumed_eq.symm
  within := h.least_le.2

/-- A table that is read holds the entries in another order, and takes as many bytes. -/
theorem recoversTable (hfault : block.fault = none) (hk : k.base = .table) :
    k.Recovered C (levels + 1) input (.table (block.toTable C).value) block.consumed := by
  obtain ⟨hkeyKind, hcapacity⟩ : (block.toTable C).value.keyKind = block.keyKind ∧
      (block.toTable C).value.capacity = max block.wanted Table.minCapacity := Table.addAll_fields _ _
  have holds : (block.toTable C).value.entries.Perm block.entries := by
    obtain ⟨hkey, hvalue⟩ := h.portable
    exact Table.addAll_perm (.empty _ _) fun e he => ⟨(hkey e he).accepted, (hvalue e he).accepted⟩
  have hsteady : (block.toTable C).value.Steady C := .addAll C block.keyKind block.wanted block.entries
  generalize (block.toTable C).value = t at hkeyKind hcapacity holds hsteady
  have hsize : t.size = block.wanted := by
    rw [h.wanted_eq hfault, ← holds.length_eq, Table.entries, List.length_map, Table.size]
  have hbuiltin : Builtin t.keyKind.base := hkeyKind ▸ h.builtin_keyKind
  have hkey : ∀ e ∈ t.entries, t.keyKind.Portable C levels e.key := fun e he =>
    hkeyKind ▸ h.portable.1 e (holds.mem_iff.1 he)
  have hvalue : ∀ e ∈ t.entries, e.kind.Portable C levels e.value := fun e he =>
    h.portable.2 e (holds.mem_iff.1 he)
  refine ⟨.table hk rfl hsteady (hsize ▸ hcapacity) hbuiltin hkey hvalue, ?_, h.least_le.2⟩
  calc (k.wireForm C (.table t)).length
      = headerLength + (t.entries.flatMap (Entry.wireForm C t.keyKind)).length :=
        Kind.length_wireForm_parts (p := t.parts) (Kind.parts?_of_table hk rfl) hbuiltin hkey hvalue
    _ = headerLength + (block.entries.flatMap (Entry.wireForm C block.keyKind)).length := by
        rw [(holds.flatMap_right _).length_eq, hkeyKind]
    _ = block.consumed := h.consumed_eq.symm

end BlockRead

/-- However deep values may lie, what is read under built-in kinds is recovered. -/
theorem Traced.decodeWithin_recovered (levels : Nat) :
    DecoderEnsures C (fun k => Builtin k.base) (decodeWithin C levels) (Kind.Recovered C levels) := by
  refine decodeWithin_ensures (Q := Kind.Recovered C) ?_ ?_ ?_ levels
  · intro levels k input d n hk _ hlist htable hsound hd
    exact Kind.decodeLeaf_recovered hk hlist htable hsound hd
  · intro levels k K input declared block _ _ hlist hread _
    exact (hread.recoversListing hlist).of_nested
  · intro levels k K input declared block _ _ htable hread hfault
    exact (hread.recoversTable hfault htable).of_nested

/-- Whatever levels are left, what is read under built-in kinds is recovered. -/
theorem Traced.decode_recovered :
    DecoderEnsures C (fun k => Builtin k.base) (Traced.decode C) (Kind.Recovered C maxNesting) := by
  intro k input hk hindex hsound hmet r hr
  obtain ⟨hportable, hlength, hwithin⟩ :=
    decodeWithin_recovered (maxNesting - input.depth) k input hk hindex hsound hmet r hr
  exact ⟨hportable.mono (Nat.sub_le _ _), hlength, hwithin⟩

end Wire

/-! ## Tables -/

/-- The binary form of a portable table is read back, whatever follows it, as an alike table with as many
buckets that is written in the same form. -/
theorem Table.decode_written {t : Table Datum} (h : Kind.table.Portable C (maxNesting + 1) (.table t))
    {bs rest : Bytes} (hencode : t.encode C = .ok bs) (hlimit : bs.length < limit) {input : Input}
    (hsound : input.Sound) (hdepth : input.depth = 0) (hbytes : input.bytes = bs ++ rest) :
    ∃ d, Table.decode C input = .ok d ∧ d.isComplete = true ∧ d.consumed = bs.length ∧
      d.value.capacity = t.capacity ∧
      Datum.Alike (C.rebinding input.isInPlace) (.table t) (.table d.value) ∧ d.value.encode C = .ok bs := by
  cases h with
  | leaf _ _ table => exact absurd rfl table
  | list base => cases base
  | @table _ _ _ t' _ seen steady capacity keyKind key value =>
    obtain rfl : t = t' := Option.some.inj seen
    obtain ⟨body, hbody⟩ := Body.exists_of_travels (fun e he => (key e he).travels)
      fun e he => (value e he).travels
    obtain ⟨index, hindex, -⟩ := C.kindNumbered_wireIndex keyKind
    have hform := (Kind.encode_table t).symm.trans
      (hbody.encode_eq (k := Kind.table) (d := .table t) rfl rfl rfl hindex)
    obtain rfl := Except.ok.inj (hencode.symm.trans hform)
    obtain ⟨block, u, hread, htable, halike, hbuckets⟩ := hbody.readTable keyKind steady capacity
      (fun e he => (key e he).within) hindex hsound hbytes hlimit
    refine ⟨⟨u, _, none⟩, ?_, rfl, rfl, hbuckets, halike, ?_⟩
    · rw [Table.decode, readBlock_outermost hdepth, hread]
      exact congrArg Except.ok htable
    · have hbuiltin : Builtin Kind.table.base := by decide
      rw [← Kind.encode_table, ← halike.encode_eq not_builtin_extension rfl hbuiltin, Kind.encode_table,
        hencode]

/-- A table that was read whole, under built-in kinds only, has a binary form of as many bytes as were taken
in. However the bytes may have looked that it was read from, this is the form that lasts: it is read, by copy
and in place, whole and up to its last byte, as a table with as many buckets and with the same keys and values
in the same order, under the same kinds or their twins, and that table is written as it was read. (The length
of a byte string is always less than `limit`.) -/
theorem Table.encode_decode_normal (C : Catalogue) {bs : Bytes} {input : Input}
    (hinput : input = .copied bs ∨ input = .inPlace bs) {d : Decoded (Table Datum)}
    (hdecode : Table.decode C input = .ok d) (hcomplete : d.isComplete = true)
    (hmet : ∀ k, .met k ∈ (Traced.table C input).events → Builtin k.base) :
    ∃ form, d.value.encode C = .ok form ∧ form.length = d.consumed ∧ (form.length < limit →
      ∀ again, again = .copied form ∨ again = .inPlace form →
        ∃ d', Table.decode C again = .ok d' ∧ d'.isComplete = true ∧ d'.consumed = form.length ∧
          d'.value.capacity = d.value.capacity ∧
          Datum.Alike (C.rebinding again.isInPlace) (.table d.value) (.table d'.value) ∧
          d'.value.encode C = .ok form) := by
  have hsound := (Input.sound_of_whole hinput).1
  obtain ⟨block, hblock, rfl⟩ := ok_of_map hdecode
  have houtcome := (Traced.readBlock_follows Traced.decode_follows hsound).outcome.trans hblock
  -- making a table of the block meets no kinds
  have hevents := Traced.events_map (Traced.readBlock C (Traced.decode C) (tableAdmits C) input)
    (Block.toTable C)
  obtain ⟨K, declared, hread⟩ := Traced.readBlock_ensures Traced.decode_follows Traced.decode_recovered
    hsound (fun k hk => hmet k (hevents.symm ▸ hk)) block houtcome
  obtain ⟨hportable, hlength, -⟩ := hread.recoversTable (k := Kind.table)
    (Option.isNone_iff_eq_none.1 hcomplete) rfl
  obtain ⟨form, htravels⟩ := hportable.travels
  have hencode := (Kind.encode_table _).symm.trans htravels.written
  refine ⟨form, hencode, ?_, fun hlimit again hagain => ?_⟩
  · rw [← Kind.wireForm_of_encode htravels.written, hlength]
    rfl
  · obtain ⟨hsound, hdepth, hbytes⟩ := Input.sound_of_whole hagain
    exact Table.decode_written hportable hencode hlimit hsound hdepth (hbytes.trans (List.append_nil _).symm)

/-- Keys and two values under twins, the larger keys first, flags of two, a list as the first value, and three
bytes too many. -/
def Wire.irregular : Bytes :=
  header 6 3 ++ (Bytes.ofNat 2 33 ++ (header 6 1 ++ (Bytes.ofNat 2 2 ++ [2] ++ [5])) ++ [9]) ++
    (Bytes.ofNat 2 2 ++ [2] ++ [8]) ++ (Bytes.ofNat 2 1 ++ [0] ++ [3]) ++ [0, 0, 0]

/-- What is read of it has another form of the same length, and that one lasts. -/
theorem Table.encode_decode_normal_irregular :
    ∃ d, Table.decode .specimens (.copied irregular) = .ok d ∧ d.isComplete = true ∧
      (∀ k, .met k ∈ (Traced.table .specimens (.copied irregular)).events → Builtin k.base) ∧
      ∃ form, d.value.encode .specimens = .ok form ∧ form ≠ irregular.take form.length ∧
        form.length = d.consumed ∧ ∃ d', Table.decode .specimens (.copied form) = .ok d' ∧
          d'.isComplete = true ∧ d'.consumed = form.length ∧ d'.value.capacity = d.value.capacity ∧
          Datum.Alike (Catalogue.specimens.rebinding false) (.table d.value) (.table d'.value) ∧
          d'.value.encode .specimens = .ok form := by
  have hrun : (Table.decode .specimens (.copied irregular)).toOption.any (fun d => d.isComplete && d.consumed == 47 &&
      decide ((d.value.encode .specimens).toOption ≠ some (irregular.take d.consumed))) = true := by
    decide +kernel
  have hkinds : (Traced.table .specimens (.copied irregular)).events.all
      fun e => e.kind?.all fun k => decide (Builtin k.base) := by decide +kernel
  have hmet : ∀ k, .met k ∈ (Traced.table .specimens (.copied irregular)).events → Builtin k.base :=
    fun k hk => of_decide_eq_true (List.all_eq_true.1 hkinds _ hk)
  obtain ⟨d, hdecode, hrun⟩ := ok_of_any hrun
  simp only [Bool.and_eq_true, beq_iff_eq, decide_eq_true_eq] at hrun
  obtain ⟨⟨hcomplete, hconsumed⟩, hirregular⟩ := hrun
  obtain ⟨form, hencode, hlength, hread⟩ :=
    Table.encode_decode_normal .specimens (.inl rfl) hdecode hcomplete hmet
  have hlimit : form.length < limit := by
    rw [hlength, hconsumed]
    decide
  refine ⟨d, hdecode, hcomplete, hmet, form, hencode, fun hform => ?_, hlength, hread hlimit _ (.inl rfl)⟩
  rw [hencode, ← hlength] at hirregular
  exact hirregular (congrArg some hform)

end OrderedTable
