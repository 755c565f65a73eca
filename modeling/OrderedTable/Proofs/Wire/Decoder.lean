import OrderedTable.Proofs.Order.Specimens
import OrderedTable.Wire.Decode

/-!
# What a decoder gives

Kinds that are read have an index. What is measured ahead lies in the input, and what was written is read
from it (`Wire.numberAt_append`, `Wire.measuredAhead_measured`, `Wire.readHeader_header`).
`Kind.decodeWithin` reads a list or a table as a block, one level further in, and everything else as a
leaf.
-/

namespace OrderedTable

namespace Catalogue

variable {C : Catalogue}

/-- Only kinds with an index are found by index. -/
theorem registered_of_kindAt? {index : Int} {k : Kind} (h : C.kindAt? index = some k) :
    C.Registered k.base := by
  rw [kindAt?] at h
  split at h
  · cases h
  · obtain ⟨b, hb, rfl⟩ := Option.map_eq_some_iff.1 h
    exact List.mem_of_getElem? hb

/-- Only kinds with an index are found for a number. -/
theorem registered_of_kindNumbered {index : Nat} {k : Kind} (h : C.kindNumbered index = .ok k) :
    C.Registered k.base := by
  rw [kindNumbered] at h
  cases hk : C.kindAt? (Int.bmod index 65536) with
  | none => rw [hk] at h; cases h
  | some l => rw [hk] at h; cases h; exact registered_of_kindAt? hk

/-- In place the kinds that are not compound give way to their twins. -/
theorem decodedKind_eq (input : Input) {k : Kind} (hk : C.Registered k.base) :
    C.decodedKind input k = if input.isInPlace && !C.isCompound k then k.twin else k := by
  -- a kind with an index always has a twin
  have twin : (C.twin? k).getD k = k.twin := by
    rw [twin?]
    split
    · next hb =>
      cases k with
      | mk base borrowing => rw [Kind.twin, show borrowing = true from hb]; rfl
    · cases hi : C.baseIndex? k.base with
      | none => exact absurd hi hk.baseIndex?_ne_none
      | some i => rfl
  rw [decodedKind, twin]

/-- The mode of decoding leaves the base of a kind as it is. -/
theorem base_decodedKind (input : Input) {k : Kind} (hk : C.Registered k.base) :
    (C.decodedKind input k).base = k.base := by
  rw [decodedKind_eq input hk]
  split <;> rfl

/-- The kind that is written for a built-in one is read as the owning kind. -/
theorem kindNumbered_wireIndex {k : Kind} (hk : k.base ∈ builtin) :
    ∃ index, C.wireIndex k = .ok index ∧ index < 1 <<< (8 * 2) ∧ C.kindNumbered index = .ok k.owner := by
  obtain ⟨i, hi⟩ : ∃ i, builtin.idxOf? k.base = some i :=
    Option.ne_none_iff_exists'.1 fun hnone => List.idxOf?_eq_none_iff.1 hnone hk
  obtain ⟨hlt, hget, -⟩ := List.idxOf?_eq_some_iff.1 hi
  have hlt : i < 18 := hlt
  have hbases : C.bases.idxOf? k.base = some i := by
    rw [bases, List.idxOf?, List.findIdx?_append, ← List.idxOf?, hi]
    rfl
  have hbase : C.bases[i]? = some k.base :=
    (List.getElem?_append_left hlt).trans (List.getElem?_eq_some_iff.2 ⟨hlt, hget⟩)
  have hindex : C.baseIndex? k.base = some (2 * i + 1) := by rw [baseIndex?, hbases]; rfl
  -- there are 18 built-in kinds, so the index is not taken as negative
  have hplace : Int.bmod ((2 * i + 1 : Nat) : Int) 65536 = (2 * i + 1 : Nat) :=
    Int.bmod_eq_of_le (by omega) (by omega)
  refine ⟨2 * i + 1, ?_, ?_, ?_⟩
  · rw [wireIndex, hindex]
  · rw [show 1 <<< (8 * 2) = 65536 from rfl]
    omega
  · have hkind : C.kindAt? (2 * i + 1 : Nat) = some k.owner := by
      rw [kindAt?, if_neg (by omega)]
      have hzero : ((2 * i + 1 : Nat) - 1 : Int).toNat = 2 * i := by omega
      have hhalf : 2 * i / 2 = i := by omega
      simp only [hzero, hhalf, hbase, Option.map_some]
      rw [decide_eq_false (by omega)]
      rfl
    rw [kindNumbered, hplace, hkind]
    rfl

end Catalogue

/-! ## Where a decoder stands -/

namespace Input

/-- The bytes ahead are those of the buffer from where the input stands. -/
def Sound (input : Input) : Prop :=
  ∀ buffer offset, input.origin = some (buffer, offset) → buffer.drop offset = input.bytes

/-- Going on in a part of a buffer is going on in the buffer. -/
theorem drop_add_min {buffer bs : Bytes} {offset : Nat} (h : buffer.drop offset = bs) (n : Nat) :
    buffer.drop (offset + min n bs.length) = bs.drop n := by
  rw [← List.drop_drop, h]
  by_cases hn : n ≤ bs.length
  · rw [Nat.min_eq_left hn]
  · rw [Nat.min_eq_right (by omega), List.drop_length, List.drop_of_length_le (by omega)]

theorem isInPlace_advance (input : Input) (n : Nat) : (input.advance n).isInPlace = input.isInPlace :=
  Option.isSome_map

namespace Sound

variable {input : Input}

theorem copied (bs : Bytes) : (Input.copied bs).Sound := by rintro _ _ ⟨⟩

theorem inPlace (bs : Bytes) : (Input.inPlace bs).Sound := by
  rintro _ _ ⟨⟩
  rfl

theorem nested (h : input.Sound) : input.nested.Sound := h

theorem advance (h : input.Sound) (n : Nat) : (input.advance n).Sound := by
  intro buffer offset horigin
  obtain ⟨⟨buffer', start⟩, hstart, heq⟩ := Option.map_eq_some_iff.1 horigin
  cases heq
  exact drop_add_min (h _ _ hstart) n

/-- What is kept are the bytes asked for, wherever they are kept. -/
theorem storage (h : input.Sound) (start length : Nat) :
    (input.storage start length).bytes = (input.bytes.drop start).take length := by
  unfold Input.storage
  split
  · next buffer offset horigin => rw [Storage.bytes, ← List.drop_drop, h _ _ horigin]
  · rfl

/-- No fewer are kept if there are as many. -/
theorem length_storage (h : input.Sound) {start length : Nat} (hle : start + length ≤ input.bytes.length) :
    (input.storage start length).bytes.length = length := by
  rw [h.storage, List.length_take, List.length_drop]
  omega

end Sound

/-- A decoder that has all of the input ahead, in whatever mode. -/
theorem sound_of_whole {input : Input} {bs : Bytes} (h : input = .copied bs ∨ input = .inPlace bs) :
    input.Sound ∧ input.depth = 0 ∧ input.bytes = bs := by
  rcases h with rfl | rfl
  · exact ⟨.copied bs, rfl, rfl⟩
  · exact ⟨.inPlace bs, rfl, rfl⟩

end Input

namespace Wire

/-- A number that is read lies in the input. -/
theorem le_of_numberAt {width place n : Nat} {bs : Bytes} (h : numberAt width place bs = .ok n) :
    width ≤ bs.length - place := by
  rw [numberAt] at h
  split at h
  · next hlen =>
    rw [List.length_take, List.length_drop] at hlen
    omega
  · cases h

/-- What is measured lies in the input. -/
theorem le_of_measuredAhead {bs : Bytes} {start length : Nat}
    (h : measuredAhead bs = .ok (start, length)) : start + length ≤ bs.length := by
  obtain ⟨n, hn, h⟩ := ok_of_bind h
  have hle := le_of_numberAt hn
  split at h
  · cases h
    omega
  · cases h

/-- What is measured comes right behind its length. -/
theorem start_of_measuredAhead {bs : Bytes} {start length : Nat}
    (h : measuredAhead bs = .ok (start, length)) : start = 8 := by
  obtain ⟨n, -, h⟩ := ok_of_bind h
  split at h
  · cases h
    rfl
  · cases h

/-- A number that was written is read. -/
theorem numberAt_append {width n : Nat} (h : n < 1 <<< (8 * width)) {bs : Bytes} {place : Nat}
    (pre post : Bytes) (hbs : bs = pre ++ (Bytes.ofNat width n ++ post)) (hplace : pre.length = place) :
    numberAt width place bs = .ok n := by
  have found : (bs.drop place).take width = Bytes.ofNat width n := by
    rw [hbs, ← hplace, List.drop_left, List.take_left' (Bytes.length_ofNat width n)]
  rw [numberAt, found]
  simp only [Bytes.length_ofNat, if_true, Bytes.toNat_ofNat_of_lt h]

/-- What was written with its length is found behind it. -/
theorem measuredAhead_measured {bs : Bytes} (h : bs.length < 1 <<< (8 * 8)) (rest : Bytes) :
    measuredAhead (measured bs ++ rest) = .ok (8, bs.length) := by
  have hlength : (measured bs ++ rest).length - 8 = bs.length + rest.length := by
    simp only [measured, List.length_append, Bytes.length_ofNat]
    omega
  have hnumber : numberAt 8 0 (measured bs ++ rest) = .ok bs.length :=
    numberAt_append h [] (bs ++ rest) (by rw [measured, List.append_assoc]; rfl) rfl
  rw [measuredAhead, hnumber, hlength]
  show (if _ then _ else _) = _
  rw [if_pos (Nat.le_add_right _ _)]
  rfl

variable {C : Catalogue}

/-- The checks of a header in their order. -/
theorem readHeader_eq (bs : Bytes) : readHeader C bs =
    if bs.length < headerLength then .error (.truncated headerLength bs.length)
    else numberAt 2 0 bs >>= fun found =>
      if found ≠ marker then .error (.badMarker found)
      else numberAt 4 2 bs >>= fun found =>
        if found ≠ version then .error (.unsupportedVersion found)
        else numberAt 2 6 bs >>= fun index => C.kindNumbered index >>= fun keyKind =>
          numberAt 8 8 bs >>= fun declared => .ok (keyKind, declared) :=
  rfl

/-- The keys that a header declares are of a kind with an index. -/
theorem registered_of_readHeader {bs : Bytes} {k : Kind} {count : Nat}
    (h : readHeader C bs = .ok (k, count)) : C.Registered k.base := by
  rw [readHeader_eq] at h
  split at h
  · cases h
  · obtain ⟨_, -, h⟩ := ok_of_bind h
    split at h
    · cases h
    · obtain ⟨_, -, h⟩ := ok_of_bind h
      split at h
      · cases h
      · obtain ⟨_, -, h⟩ := ok_of_bind h
        obtain ⟨k', hk, h⟩ := ok_of_bind h
        obtain ⟨_, -, h⟩ := ok_of_bind h
        cases h
        exact Catalogue.registered_of_kindNumbered hk

/-- The count of entries that was written is found. -/
theorem numberAt_count {index count : Nat} (hcount : count < 1 <<< (8 * 8)) (rest : Bytes) :
    numberAt 8 8 (header index count ++ rest) = .ok count := by
  refine numberAt_append hcount (Bytes.ofNat 2 marker ++ Bytes.ofNat 4 version ++ Bytes.ofNat 2 index) rest
    ?_ (by simp)
  simp only [header, List.append_assoc]

/-- A header that was written is read. -/
theorem readHeader_header {k : Kind} {index count : Nat} (hindex : index < 1 <<< (8 * 2))
    (hk : C.kindNumbered index = .ok k) (hcount : count < 1 <<< (8 * 8)) (rest : Bytes) :
    readHeader C (header index count ++ rest) = .ok (k, count) := by
  have hlength : ¬ (header index count ++ rest).length < headerLength := by
    rw [List.length_append, length_header]
    omega
  have hbytes : header index count ++ rest = Bytes.ofNat 2 marker ++ (Bytes.ofNat 4 version ++
      (Bytes.ofNat 2 index ++ (Bytes.ofNat 8 count ++ rest))) := by
    simp only [header, List.append_assoc]
  have hmarker : numberAt 2 0 (header index count ++ rest) = .ok marker :=
    numberAt_append (by decide) [] _ hbytes rfl
  have hversion : numberAt 4 2 (header index count ++ rest) = .ok version :=
    numberAt_append (by decide) (Bytes.ofNat 2 marker) _ hbytes (Bytes.length_ofNat _ _)
  have hkind : numberAt 2 6 (header index count ++ rest) = .ok index :=
    numberAt_append hindex (Bytes.ofNat 2 marker ++ Bytes.ofNat 4 version) (Bytes.ofNat 8 count ++ rest)
      (by rw [hbytes, List.append_assoc]) (by simp)
  rw [readHeader_eq, if_neg hlength, hmarker, ok_bind, if_neg fun h => h rfl, hversion, ok_bind,
    if_neg fun h => h rfl, hkind, ok_bind, hk, ok_bind, numberAt_count hcount, ok_bind]

/-- Where a header that was written is read, the count of entries is that which was written. -/
theorem count_of_readHeader {k : Kind} {index count declared : Nat} (hcount : count < 1 <<< (8 * 8))
    {rest : Bytes} (h : readHeader C (header index count ++ rest) = .ok (k, declared)) :
    declared = count := by
  rw [readHeader_eq] at h
  split at h
  · cases h
  · obtain ⟨_, -, h⟩ := ok_of_bind h
    split at h
    · cases h
    · obtain ⟨_, -, h⟩ := ok_of_bind h
      split at h
      · cases h
      · obtain ⟨_, -, h⟩ := ok_of_bind h
        obtain ⟨_, -, h⟩ := ok_of_bind h
        rw [numberAt_count hcount, ok_bind] at h
        cases h
        rfl

/-- An entry is read alike by decoders that agree on the rest of the input. -/
theorem readEntry_congr {decode decode' : Decoder} {input : Input}
    (h : ∀ k n, decode k (input.advance n) = decode' k (input.advance n)) (K : Kind) (place : Nat) :
    readEntry C decode input K place = readEntry C decode' input K place := by
  simp only [readEntry, h]

/-- A block is read alike by decoders that agree on the rest of the input. -/
theorem readBlock_congr {decode decode' : Decoder} {input : Input}
    (h : ∀ k n, decode k (input.advance n) = decode' k (input.advance n))
    (admits : Kind → Entry Datum → Bool) :
    readBlock C decode admits input = readBlock C decode' admits input := by
  have entries : ∀ K count place, readEntries C decode admits input K count place =
      readEntries C decode' admits input K count place := by
    intro K count
    induction count with
    | zero => intro place; rfl
    | succ count ih => intro place; simp only [readEntries, readEntry_congr h, ih]
  simp only [readBlock, entries]

/-- What lies in the outermost block is read with all levels left. -/
theorem decode_outermost {input : Input} (hdepth : input.depth = 0) (k : Kind) (n : Nat) :
    Kind.decode C k (input.advance n) = Kind.decodeWithin C maxNesting k (input.advance n) := by
  show Kind.decodeWithin C (maxNesting - input.depth) k _ = _
  rw [hdepth]
  rfl

/-- The outermost block is read with all levels left for what lies in it. -/
theorem readBlock_outermost {input : Input} (hdepth : input.depth = 0)
    {admits : Kind → Entry Datum → Bool} :
    readBlock C (Kind.decode C) admits input = readBlock C (Kind.decodeWithin C maxNesting) admits input :=
  readBlock_congr (decode_outermost hdepth) admits

/-- A block from its header and its entries: without a fault of an entry, it is one if there are too few. -/
theorem readBlock_of_readEntries {decode : Decoder} {admits : Kind → Entry Datum → Bool} {input : Input}
    {K : Kind} {declared after : Nat} {es : List (Entry Datum)} {fault : Option WireFault}
    (hheader : readHeader C input.bytes = .ok (K, declared))
    (hentries : readEntries C decode admits input K declared headerLength = (es, after, fault)) :
    readBlock C decode admits input = .ok ⟨C.decodedKind input K,
      min declared ((input.bytes.length - headerLength) / leastEntry), es, after,
      fault.or (if es.length < declared then some (.incomplete declared es.length) else none)⟩ := by
  rw [readBlock, hheader, ok_bind]
  simp only [hentries]
  rfl

end Wire

namespace Kind

variable {C : Catalogue} {k : Kind}

/-- No list and no table is read once all levels are used. -/
theorem decodeWithin_zero (hk : k.base = .list ∨ k.base = .table) (input : Input) :
    k.decodeWithin C 0 input = .error (.tooDeep Wire.maxNesting) := by
  rcases hk with hk | hk <;> simp only [decodeWithin, hk]

/-- A list is a block, and takes one level. -/
theorem decodeWithin_list (hk : k.base = .list) (levels : Nat) (input : Input) :
    k.decodeWithin C (levels + 1) input =
      (do
        let block ← Wire.readBlock C (decodeWithin C levels) (fun _ _ => true) input.nested
        let list ← block.toListing.whole
        return (.list list, block.consumed)) := by
  simp only [decodeWithin, hk]

/-- A table is a block with entries that it admits, and takes one level. -/
theorem decodeWithin_table (hk : k.base = .table) (levels : Nat) (input : Input) :
    k.decodeWithin C (levels + 1) input =
      (do
        let block ← Wire.readBlock C (decodeWithin C levels) (Wire.tableAdmits C) input.nested
        let table ← (block.toTable C).whole
        return (.table table, block.consumed)) := by
  simp only [decodeWithin, hk]

/-- A leaf takes no level. -/
theorem decodeWithin_leaf (hlist : k.base ≠ .list) (htable : k.base ≠ .table) (levels : Nat)
    (input : Input) : k.decodeWithin C levels input = k.decodeLeaf C input := by
  rw [decodeWithin]
  · exact fun h => absurd h hlist
  · exact fun h => absurd h htable
  · exact fun _ h => absurd h hlist
  · exact fun _ h => absurd h htable

end Kind

end OrderedTable
