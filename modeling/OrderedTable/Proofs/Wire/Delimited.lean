import OrderedTable.Proofs.Wire.Keeping
import OrderedTable.Proofs.Wire.Prefix

/-!
# A decoder looks at nothing else

What is read under built-in kinds from the first bytes of an input is read alike from every input that agrees
on these bytes, and is not read from an input that ends before them: `Wire.Delimited`, here for entries, blocks
and values in turn. The argument goes by the levels of nesting. Two things stand in its way, and neither does
harm. A nested block is read with all of the input ahead, but its entries are delimited and their count is
declared. And a table asks for no more buckets than the input ahead could hold entries, but as every entry
takes four bytes, a block that is whole is never cut down (`Wire.BlockRead.wanted_eq`).

Of a block that is cut off, the entries before the cut are read, and the one that is cut is at fault
(`Wire.BlockRead.cut`).
-/

namespace OrderedTable

open Wire

variable {C : Catalogue} {levels : Nat} {f : Storage → Storage}

/-! ## Delimited values -/

namespace Wire

/-- A decoder under which twins read alike. -/
def Decoder.SeesBase (decode : Decoder) : Prop :=
  ∀ k k' input, k.base = k'.base → decode k input = decode k' input

/-- Entries of built-in kinds are admitted wherever they are kept. -/
def Admission (admits : Kind → Entry Datum → Bool) : Prop :=
  ∀ (f : Storage → Storage) (K : Kind) (e : Entry Datum), (∀ s, (f s).bytes = s.bytes) → Builtin K.base →
    Builtin e.kind.base → admits K (e.keptBy f) = admits K e

/-- What admits everything asks nothing. -/
theorem admission_all : Admission fun _ _ => true := fun _ _ _ _ _ _ => rfl

/-- A table admits what the kinds of its keys and values accept, wherever that is kept. -/
theorem admission_table : Admission (tableAdmits C) := by
  intro f K e hf hK he
  show (K.accepts C (e.key.keptBy f) && e.kind.accepts C (e.value.keptBy f)) = _
  rw [Kind.accepts_keptBy hf hK, Kind.accepts_keptBy hf he]
  rfl

variable (C levels) in
/-- A value that was read, is recovered from the bytes that it takes, and is delimited by them. -/
structure Confined (decode : Decoder) (k : Kind) (input : Input) (d : Datum) (n : Nat) : Prop where
  recovered : k.Recovered C levels input d n
  delimited : Delimited decode k input d n

variable {decode : Decoder} {admits : Kind → Entry Datum → Bool} {input input' : Input} {K : Kind}
variable {place length : Nat} {e : Entry Datum}

namespace Confined

variable {k : Kind} {d : Datum} {n : Nat}

/-- Under a decoder that reads twins alike, a value is as confined under the twin. -/
theorem congr (hdecode : decode.SeesBase) {k' : Kind} (hk : k.base = k'.base)
    (h : Confined C levels decode k input d n) : Confined C levels decode k' input d n := by
  obtain ⟨⟨portable, length, within⟩, ⟨read, keeps, needs⟩⟩ := h
  refine ⟨⟨portable.congr hk, Kind.wireForm_congr hk d ▸ length, within⟩, ?_, fun f input' => ?_,
    fun f m input' => ?_⟩
  · rw [← hdecode k k' input hk, read]
  · rw [← hdecode k k' input' hk]
    exact keeps f input'
  · rw [← hdecode k k' input' hk]
    exact needs f m input'

end Confined

/-! ## Entries -/

variable (C levels decode input K place) in
/-- The steps in which an entry is read. -/
inductive EntrySteps : Entry Datum → Nat → Prop
  | mk {index valueLength keyLength : Nat} {kind : Kind} {key value : Datum}
      (hindex : numberAt 2 place input.bytes = .ok index) (hkind : C.kindNumbered index = .ok kind)
      (hvalue : Confined C levels decode kind (input.advance (place + 2)) value valueLength)
      (hkey : Confined C levels decode K (input.advance (place + 2 + valueLength)) key keyLength) :
      EntrySteps ⟨key, value, C.decodedKind input kind⟩ (2 + valueLength + keyLength)

/-- An entry was read in the steps of which its parts are known. -/
theorem EntryAt.steps (hdecode : decode.SeesBase)
    (h : EntryAt C (fun k => Builtin k.base) (Confined C levels decode) decode admits input K place e length) :
    EntrySteps C levels decode input K place e length := by
  obtain ⟨index, hindex, hrest⟩ := ok_of_bind h.read
  obtain ⟨kind, hkind, hrest⟩ := ok_of_bind hrest
  obtain ⟨⟨value, valueLength⟩, hvalue, hrest⟩ := ok_of_bind hrest
  obtain ⟨⟨key, keyLength⟩, hkey, hrest⟩ := ok_of_bind hrest
  have hentry : (⟨key, value, C.decodedKind input kind⟩, 2 + valueLength + keyLength) = (e, length) :=
    Except.ok.inj hrest
  have hbase := C.base_decodedKind input (Catalogue.registered_of_kindNumbered hkind)
  cases h.parts with
  | @mk kind' key' value' valueLength' keyLength' ahead _ hregistered' hvalue' hkey' =>
    injection hentry with hentry hlength
    injection hentry with heqkey heqvalue heqkind
    subst heqkey heqvalue
    -- twins may come to one kind, but they read alike
    have hsame : kind'.base = kind.base := by
      rw [← C.base_decodedKind input hregistered', ← heqkind, hbase]
    have hvalue' := hvalue'.congr hdecode hsame
    cases hvalue.symm.trans hvalue'.delimited.read
    cases hkey.symm.trans hkey'.delimited.read
    rw [← heqkind]
    exact .mk hindex hkind hvalue' hkey'

namespace EntrySteps

theorem read (h : EntrySteps C levels decode input K place e length) :
    readEntry C decode input K place = .ok (e, length) := by
  cases h with
  | mk hindex hkind hvalue hkey =>
    rw [readEntry, hindex, ok_bind, hkind, ok_bind, hvalue.delimited.read, ok_bind]
    show decode K _ >>= _ = _
    rw [hkey.delimited.read, ok_bind]
    rfl

/-- The entry is read where the bytes that it takes are there. -/
theorem readEntry_again (h : EntrySteps C levels decode input K place e length)
    (hf : ∀ s, (f s).bytes = s.bytes) (hagrees : Input.Agrees f (place + length) input input') :
    readEntry C decode input' K place = .ok (e.keptBy f, length) := by
  cases h with
  | @mk index valueLength keyLength kind key value hindex hkind hvalue hkey =>
    have hvalueAgrees : Input.Agrees f valueLength (input.advance (place + 2)) (input'.advance (place + 2)) :=
      (hagrees.mono (by omega)).advance
    have hkeyAgrees : Input.Agrees f keyLength (input.advance (place + 2 + valueLength))
        (input'.advance (place + 2 + valueLength)) := (hagrees.mono (by omega)).advance
    rw [readEntry, numberAt_agrees hagrees (by omega), hindex, ok_bind, hkind, ok_bind,
      hvalue.delimited.keeps f _ hf hvalueAgrees, ok_bind]
    show decode K _ >>= _ = _
    rw [hkey.delimited.keeps f _ hf hkeyAgrees, ok_bind, hagrees.decodedKind_eq]
    rfl

/-- The entry is not read where the last of these bytes is missing. -/
theorem readEntry_short (h : EntrySteps C levels decode input K place e length)
    (hf : ∀ s, (f s).bytes = s.bytes) {m : Nat} (hagrees : Input.Agrees f m input input')
    (hlength : input'.bytes.length = m) (hm : m < place + length) :
    ∃ fault, readEntry C decode input' K place = .error fault := by
  have hahead : ∀ n, (input'.advance n).bytes.length = m - n := fun n => by
    rw [Input.advance, List.length_drop, hlength]
  cases h with
  | @mk index valueLength keyLength kind key value hindex hkind hvalue hkey =>
    -- the end of the input is in the index, in the value or in the key
    by_cases hfirst : m < place + 2
    · rw [readEntry, numberAt_short (by decide) (hlength ▸ hfirst)]
      exact ⟨_, rfl⟩
    · rw [readEntry, numberAt_agrees hagrees (by omega), hindex, ok_bind, hkind, ok_bind]
      by_cases hsecond : m < place + 2 + valueLength
      · have hcut : Input.Agrees f (m - (place + 2)) (input.advance (place + 2)) (input'.advance (place + 2)) :=
          (hagrees.mono (by omega)).advance
        exact error_bind (hvalue.delimited.needs f _ _ hf hcut (by omega) (hahead _)) _
      · have hvalueAgrees : Input.Agrees f valueLength (input.advance (place + 2))
            (input'.advance (place + 2)) := (hagrees.mono (by omega)).advance
        have hcut : Input.Agrees f (m - (place + 2 + valueLength)) (input.advance (place + 2 + valueLength))
            (input'.advance (place + 2 + valueLength)) := (hagrees.mono (by omega)).advance
        rw [hvalue.delimited.keeps f _ hf hvalueAgrees, ok_bind]
        exact error_bind (hkey.delimited.needs f _ _ hf hcut (by omega) (hahead _)) _

/-- The kinds of the key and of the value are built in. -/
theorem builtin (h : EntrySteps C levels decode input K place e length) : Builtin K.base ∧
    Builtin e.kind.base := by
  cases h with
  | mk _ hkind hvalue hkey =>
    refine ⟨hkey.recovered.portable.builtin, ?_⟩
    rw [C.base_decodedKind input (Catalogue.registered_of_kindNumbered hkind)]
    exact hvalue.recovered.portable.builtin

theorem pos (h : EntrySteps C levels decode input K place e length) : 0 < length := by
  cases h with
  | mk => omega

end EntrySteps

namespace Runs

variable {R : Nat → Entry Datum → Nat → Prop} {after : Nat} {es : List (Entry Datum)}

theorem le (h : Runs R place es after) : place ≤ after := by
  induction h with
  | nil => exact Nat.le_refl _
  | cons _ _ ih => omega

theorem after_nil (h : Runs R place [] after) : after = place := by
  cases h
  rfl

/-- The places where the entries start, and where the last of them ends. -/
theorem exists_places (h : Runs R place es after) : ∃ p : Nat → Nat, p es.length = after ∧
    (∀ k ≤ es.length, Runs R place (es.take k) (p k)) ∧
    ∀ k (hk : k < es.length), R (p k) es[k] (p (k + 1) - p k) ∧ p k ≤ p (k + 1) := by
  induction h with
  | nil place => exact ⟨fun _ => place, rfl, fun _ _ => by rw [List.take_nil]; exact .nil place, nofun⟩
  | @cons place length after e es head rest ih =>
    obtain ⟨p, hafter, hruns, hentry⟩ := ih
    have hfirst : p 0 = place + length := (hruns 0 (Nat.zero_le _)).after_nil
    refine ⟨fun k => k.casesOn place p, hafter, fun k hk => ?_, fun k hk => ?_⟩
    · cases k with
      | zero => exact .nil place
      | succ k => exact .cons head (hruns k (Nat.le_of_succ_le_succ hk))
    · cases k with
      | zero =>
        show R place e (p 0 - place) ∧ place ≤ p 0
        rw [hfirst, Nat.add_sub_cancel_left]
        exact ⟨head, Nat.le_add_right _ _⟩
      | succ k => exact hentry k (Nat.lt_of_succ_lt_succ hk)

/-- Entries that were read are read again where the bytes that they take are there. -/
theorem readEntries_again (hf : ∀ s, (f s).bytes = s.bytes) (hadmits : Admission admits)
    (h : Runs (fun place e length => EntrySteps C levels decode input K place e length ∧ admits K e = true)
      place es after) (hagrees : Input.Agrees f after input input') (count : Nat) :
    readEntries C decode admits input' K (es.length + count) place =
      (es.map (Entry.keptBy f) ++ (readEntries C decode admits input' K count after).1,
        (readEntries C decode admits input' K count after).2) := by
  induction h with
  | nil place => rw [List.length_nil, Nat.zero_add]; rfl
  | @cons place length after e es head rest ih =>
    obtain ⟨hsteps, hadmitted⟩ := head
    have hle := rest.le
    have hpos := hsteps.pos
    have hahead : place < input'.bytes.length := Nat.lt_of_lt_of_le (by omega) hagrees.right
    obtain ⟨hK, hkind⟩ := hsteps.builtin
    rw [List.length_cons, Nat.succ_add, readEntries, if_pos hahead,
      hsteps.readEntry_again hf (hagrees.mono hle)]
    simp only [hadmits f K e hf hK hkind, hadmitted, if_true, ih hagrees]
    rfl

/-- Where the input ends inside of an entry, the entries before it are read. -/
theorem readEntries_cut (hf : ∀ s, (f s).bytes = s.bytes) (hadmits : Admission admits)
    (h : Runs (fun place e length => EntrySteps C levels decode input K place e length ∧ admits K e = true)
      place es after) (next : EntrySteps C levels decode input K after e length) {m : Nat} (hle : after ≤ m)
    (hm : m < after + length) (hagrees : Input.Agrees f m input input') (hlength : input'.bytes.length = m)
    (count : Nat) :
    ∃ fault, readEntries C decode admits input' K (es.length + (count + 1)) place =
      (es.map (Entry.keptBy f), after, fault) ∧ (m = after → fault = none) := by
  rw [h.readEntries_again hf hadmits (hagrees.mono hle), readEntries, hlength]
  -- either some bytes of the next entry are there, or the input ends right before it
  by_cases hahead : after < m
  · obtain ⟨fault, hshort⟩ := next.readEntry_short hf hagrees hlength hm
    rw [if_pos hahead, hshort]
    exact ⟨some fault, by rw [List.append_nil], fun heq => by omega⟩
  · rw [if_neg hahead]
    exact ⟨none, by rw [List.append_nil], fun _ => rfl⟩

end Runs

/-- Some step of a walk goes past a place, if the walk starts before it and ends behind. -/
theorem exists_between {p : Nat → Nat} {n m : Nat} (hfirst : p 0 ≤ m) (hlast : m < p n) :
    ∃ k < n, p k ≤ m ∧ m < p (k + 1) := by
  induction n with
  | zero => omega
  | succ n ih =>
    by_cases hn : p n ≤ m
    · exact ⟨n, Nat.lt_succ_self n, hn, hlast⟩
    · obtain ⟨k, hk, hbetween⟩ := ih (by omega)
      exact ⟨k, Nat.lt_succ_of_lt hk, hbetween⟩

/-! ## Blocks -/

/-- A block with the text and bytes of its entries kept as `f` says. -/
def Block.keptBy (f : Storage → Storage) (block : Block) : Block :=
  { block with entries := block.entries.map (Entry.keptBy f) }

namespace BlockRead

theorem mono {good : Kind → Prop} {Q Q' : Kind → Input → Datum → Nat → Prop}
    (hQ : ∀ k input d n, Q k input d n → Q' k input d n) {declared : Nat} {block : Block}
    (h : BlockRead C good Q decode admits input K declared block) :
    BlockRead C good Q' decode admits input K declared block := by
  refine { h with runs := h.runs.mono fun place e length hentry => { hentry with parts := ?_ } }
  cases hentry.parts with
  | mk ahead hkind hregistered hvalue hkey =>
    exact .mk ahead hkind hregistered (hQ _ _ _ _ hvalue) (hQ _ _ _ _ hkey)

variable {declared : Nat} {block : Block}
variable (h : BlockRead C (fun k => Builtin k.base) (Confined C levels decode) decode admits input K declared
  block)
include h

theorem recovered :
    BlockRead C (fun k => Builtin k.base) (Kind.Recovered C levels) decode admits input K declared block :=
  h.mono fun _ _ _ _ hconfined => hconfined.recovered

theorem steps (hdecode : decode.SeesBase) :
    Runs (fun place e length => EntrySteps C levels decode input K place e length ∧ admits K e = true)
      headerLength block.entries block.consumed :=
  h.runs.mono fun _ _ _ hentry => ⟨hentry.steps hdecode, hentry.admitted⟩

/-- A whole block is read again where the bytes that it takes are there. -/
theorem again (hdecode : decode.SeesBase) (hadmits : Admission admits) (hf : ∀ s, (f s).bytes = s.bytes)
    (hfault : block.fault = none) (hagrees : Input.Agrees f block.consumed input input') :
    readBlock C decode admits input' = .ok (block.keptBy f) := by
  have hcount := h.complete.1 hfault
  obtain ⟨hleast, -⟩ := h.recovered.least_le
  have hheader := (readHeader_agrees (C := C) hagrees (by omega)).trans h.header
  have hentries := (h.steps hdecode).readEntries_again hf hadmits hagrees 0
  rw [readEntries, List.append_nil, Nat.add_zero, hcount] at hentries
  -- the other input has room for all entries too, so what is ahead of it does not cap the buckets
  have hwanted : min declared ((input'.bytes.length - headerLength) / leastEntry) = block.wanted := by
    rw [h.recovered.wanted_eq hfault, hcount]
    have := hagrees.right
    simp only [leastEntry] at hleast ⊢
    omega
  rw [readBlock_of_readEntries hheader hentries, hwanted, hagrees.decodedKind_eq, ← h.keyKind, List.length_map,
    hcount, if_neg (Nat.lt_irrefl _)]
  obtain ⟨keyKind, wanted, entries, consumed, fault⟩ := block
  cases hfault
  rfl

/-- The entries of a whole block stand between places, and where the block is cut off, just those are read that
end before. -/
theorem cut (hdecode : decode.SeesBase) (hadmits : Admission admits) (hfault : block.fault = none) :
    ∃ p : Nat → Nat, p 0 = headerLength ∧ p block.entries.length = block.consumed ∧
      (∀ k (hk : k < block.entries.length), p k < p (k + 1) ∧
        readEntry C decode input K (p k) = .ok (block.entries[k], p (k + 1) - p k)) ∧
      ∀ (f : Storage → Storage) (m : Nat) (input' : Input), (∀ s, (f s).bytes = s.bytes) → headerLength ≤ m →
        m < block.consumed → Input.Agrees f m input input' → input'.bytes.length = m →
        ∃ k fault, k < block.entries.length ∧ p k ≤ m ∧ m < p (k + 1) ∧
          readBlock C decode admits input' = .ok ⟨block.keyKind,
            min block.entries.length ((m - headerLength) / leastEntry),
            (block.entries.take k).map (Entry.keptBy f), p k, some fault⟩ ∧
          (m = p k → fault = .incomplete block.entries.length k) := by
  have hcount := h.complete.1 hfault
  obtain ⟨p, hlast, hruns, hentry⟩ := (h.steps hdecode).exists_places
  have hfirst : p 0 = headerLength := (hruns 0 (Nat.zero_le _)).after_nil
  refine ⟨p, hfirst, hlast, fun k hk => ?_, fun f m input' hf hheader hm hagrees hlength => ?_⟩
  · obtain ⟨⟨hsteps, -⟩, -⟩ := hentry k hk
    exact ⟨by have := hsteps.pos; omega, hsteps.read⟩
  · obtain ⟨k, hk, hle, hlt⟩ := exists_between (hfirst ▸ hheader) (hlast ▸ hm)
    obtain ⟨⟨hsteps, -⟩, hstep⟩ := hentry k hk
    obtain ⟨fault, hentries, hnone⟩ := (hruns k (Nat.le_of_lt hk)).readEntries_cut hf hadmits hsteps hle
      (by omega) hagrees hlength (block.entries.length - k - 1)
    have htaken : (block.entries.take k).length = k := by
      rw [List.length_take]
      omega
    rw [htaken, show k + (block.entries.length - k - 1 + 1) = declared by omega] at hentries
    have hheader := (readHeader_agrees (C := C) hagrees hheader).trans h.header
    refine ⟨k, fault.getD (.incomplete declared k), hk, hle, hlt, ?_, ?_⟩
    · rw [readBlock_of_readEntries hheader hentries, hagrees.decodedKind_eq, ← h.keyKind, List.length_map,
        htaken, if_pos (by omega), hlength, hcount, Option.or_some]
    · intro heq
      rw [hnone heq, hcount]
      rfl

omit h in
/-- What a whole block is put into is delimited by the bytes of the block. -/
theorem delimited (h : BlockRead C (fun k => Builtin k.base) (Confined C levels decode) decode admits
    input.nested K declared block) (hdecode : decode.SeesBase) (hadmits : Admission admits)
    (hfault : block.fault = none) {α : Type} (fill : Block → Decoded α) (datum : α → Datum)
    (hfills : ∀ b, (fill b).fault = b.fault)
    (hkept : ∀ f : Storage → Storage, (∀ s, (f s).bytes = s.bytes) →
      datum (fill (block.keptBy f)).value = (datum (fill block).value).keptBy f)
    {outer : Decoder} {k : Kind} (houter : ∀ input : Input, outer k input =
      readBlock C decode admits input.nested >>= fun b =>
        (fill b).whole >>= fun a => .ok (datum a, b.consumed)) :
    Delimited outer k input (datum (fill block).value) block.consumed := by
  have keeps : ∀ (f : Storage → Storage) (input' : Input), (∀ s, (f s).bytes = s.bytes) →
      Input.Agrees f block.consumed input input' →
      outer k input' = .ok ((datum (fill block).value).keptBy f, block.consumed) := by
    intro f input' hf hagrees
    have hwhole : (fill (block.keptBy f)).whole = .ok (fill (block.keptBy f)).value := by
      rw [Decoded.whole, hfills, Block.keptBy, hfault]
    rw [houter, h.again hdecode hadmits hf hfault hagrees.nested, ok_bind, hwhole, ok_bind, hkept f hf]
    rfl
  refine ⟨?_, keeps, fun f m input' hf hagrees hm hlength => ?_⟩
  · have hread := keeps id input (fun _ => rfl) (.refl h.recovered.least_le.2)
    rwa [Datum.keptBy_id] at hread
  · rw [houter]
    -- a cut behind the header leaves a fault in the block, and a cut before leaves no block
    by_cases hheader : headerLength ≤ m
    · obtain ⟨p, -, -, -, hcut⟩ := h.cut hdecode hadmits hfault
      obtain ⟨k, fault, -, -, -, hblock, -⟩ := hcut f m input'.nested hf hheader hm hagrees.nested hlength
      refine ⟨fault, ?_⟩
      rw [hblock, ok_bind, Decoded.whole, hfills]
      rfl
    · refine error_bind ?_ _
      rw [readBlock, readHeader_eq, if_pos (by rw [Input.nested, hlength]; omega)]
      exact ⟨_, rfl⟩

omit h in
/-- The list of a block whose entries are kept elsewhere. -/
theorem toListing_keptBy (block : Block) (f : Storage → Storage) :
    (block.keptBy f).toListing = block.toListing.map (Listing.keptBy f) := by
  rw [Decoded.map, Listing.keptBy_eq_map]
  rfl

/-- The table of a block whose entries are kept elsewhere. -/
theorem toTable_keptBy (hf : ∀ s, (f s).bytes = s.bytes) :
    (block.keptBy f).toTable C = (block.toTable C).map (Table.keptBy f) := by
  obtain ⟨hkey, hvalue⟩ := h.recovered.portable
  rw [Decoded.map, Block.toTable, Block.toTable,
    ← Table.addAll_keptBy hf h.recovered.builtin_keyKind block.wanted hkey hvalue]
  rfl

end BlockRead

/-! ## Values -/

/-- Twins are read alike. -/
theorem decodeWithin_seesBase (levels : Nat) : Decoder.SeesBase (Kind.decodeWithin C levels) := by
  intro k k' input hk
  by_cases hlist : k.base = .list
  · cases levels with
    | zero => rw [Kind.decodeWithin_zero (.inl hlist), Kind.decodeWithin_zero (.inl (hk ▸ hlist))]
    | succ levels => rw [Kind.decodeWithin_list hlist, Kind.decodeWithin_list (hk ▸ hlist)]
  · by_cases htable : k.base = .table
    · cases levels with
      | zero => rw [Kind.decodeWithin_zero (.inr htable), Kind.decodeWithin_zero (.inr (hk ▸ htable))]
      | succ levels => rw [Kind.decodeWithin_table htable, Kind.decodeWithin_table (hk ▸ htable)]
    · rw [Kind.decodeWithin_leaf hlist htable, Kind.decodeWithin_leaf (hk ▸ hlist) (hk ▸ htable)]
      cases k with
      | mk base borrowing =>
        cases k' with
        | mk base' borrowing' =>
          obtain rfl : base = base' := hk
          cases base with
          | list => exact absurd rfl hlist
          | table => exact absurd rfl htable
          | scalar | text | bytes | extension => rfl

theorem decode_seesBase : Decoder.SeesBase (Kind.decode C) := fun k k' input hk =>
  decodeWithin_seesBase _ k k' input hk

/-- However deep values may lie, what is read under built-in kinds is confined to its bytes: induction on the
levels of nesting. -/
theorem Traced.decodeWithin_confined (levels : Nat) :
    DecoderEnsures C (fun k => Builtin k.base) (decodeWithin C levels)
      (Confined C levels (Kind.decodeWithin C levels)) := by
  refine decodeWithin_ensures (Q := fun levels => Confined C levels (Kind.decodeWithin C levels)) ?_ ?_ ?_
    levels
  · intro levels k input d n hk _ hlist htable hsound hd
    obtain ⟨read, keeps, needs⟩ := Kind.decodeLeaf_delimited hk hd
    have hleaf : ∀ input, k.decodeWithin C levels input = k.decodeLeaf C input :=
      Kind.decodeWithin_leaf hlist htable levels
    exact ⟨Kind.decodeLeaf_recovered hk hlist htable hsound hd, (hleaf _).trans read,
      fun f input' hf hagrees => (hleaf _).trans (keeps f input' hf hagrees),
      fun f m input' hf hagrees hm hlength => hleaf input' ▸ needs f m input' hf hagrees hm hlength⟩
  · intro levels k K input declared block _ _ hlist hread hfault
    refine ⟨(hread.recovered.recoversListing hlist).of_nested, ?_⟩
    refine hread.delimited (decodeWithin_seesBase levels) admission_all hfault Block.toListing .list
      (fun _ => rfl) (fun f _ => ?_) fun input => Kind.decodeWithin_list hlist levels input
    rw [BlockRead.toListing_keptBy]
    rfl
  · intro levels k K input declared block _ _ htable hread hfault
    refine ⟨(hread.recovered.recoversTable hfault htable).of_nested, ?_⟩
    refine hread.delimited (decodeWithin_seesBase levels) admission_table hfault (Block.toTable C) .table
      (fun _ => rfl) (fun f hf => ?_) fun input => Kind.decodeWithin_table htable levels input
    rw [hread.toTable_keptBy hf]
    rfl

/-- Whatever levels are left, what is read under built-in kinds is confined to its bytes. -/
theorem Traced.decode_confined :
    DecoderEnsures C (fun k => Builtin k.base) (Traced.decode C) (Confined C maxNesting (Kind.decode C)) := by
  intro k input hk hindex hsound hmet r hr
  obtain ⟨⟨hportable, hlength, hwithin⟩, read, keeps, needs⟩ :=
    decodeWithin_confined (maxNesting - input.depth) k input hk hindex hsound hmet r hr
  -- inputs that agree are equally deep
  have hdepth : ∀ {f n} {input' : Input}, Input.Agrees f n input input' →
      k.decode C input' = k.decodeWithin C (maxNesting - input.depth) input' := fun hagrees => by
    rw [Kind.decode, hagrees.depth]
  exact ⟨⟨hportable.mono (Nat.sub_le _ _), hlength, hwithin⟩, read,
    fun f input' hf hagrees => (hdepth hagrees).trans (keeps f input' hf hagrees),
    fun f m input' hf hagrees hm hcut => hdepth hagrees ▸ needs f m input' hf hagrees hm hcut⟩

end Wire

end OrderedTable
