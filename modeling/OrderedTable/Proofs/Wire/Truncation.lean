import OrderedTable.Proofs.Wire.Delimited

/-!
# Bytes too many and bytes too few

A list or a table that is read whole under built-in kinds is read alike from any bytes that start with those it
was read from, whatever follows them (`Wire.decode_self_delimiting`). Where these bytes are cut off, the
entries that end before the cut are recovered, no more and no fewer, and what was cut is reported
(`Wire.decode_cut`).

Both hold by copy and in place. What is read in place shares the bytes that it is read from, so it is the same
value with windows on other bytes (`Storage.onto`).
-/

namespace OrderedTable

open Wire

variable {C : Catalogue}

namespace Input

/-- Two byte strings that are read in the same mode, and how bytes of the first are kept if they are read from
the second. -/
inductive SameMode (bs bs' : Bytes) : (Storage → Storage) → Input → Input → Prop
  | copied : SameMode bs bs' id (.copied bs) (.copied bs')
  | inPlace : SameMode bs bs' (.onto bs') (.inPlace bs) (.inPlace bs')

namespace SameMode

variable {bs bs' : Bytes} {f : Storage → Storage} {input input' : Input}

theorem bytes_eq (h : SameMode bs bs' f input input') (s : Storage) : (f s).bytes = s.bytes := by
  cases h with
  | copied => rfl
  | inPlace => exact s.bytes_onto bs'

theorem whole (h : SameMode bs bs' f input input') : input = .copied bs ∨ input = .inPlace bs := by
  cases h with
  | copied => exact .inl rfl
  | inPlace => exact .inr rfl

theorem bytes_input (h : SameMode bs bs' f input input') : input.bytes = bs ∧ input'.bytes = bs' := by
  cases h <;> exact ⟨rfl, rfl⟩

/-- Byte strings that agree on their first bytes are inputs that do. -/
theorem agrees (h : SameMode bs bs' f input input') {n : Nat} (hn : n ≤ bs.length)
    (heq : bs'.take n = bs.take n) : Agrees f n input input' := by
  -- the second string is as long, or its first bytes would be fewer
  have hright : n ≤ bs'.length := by
    have hlength := congrArg List.length heq
    rw [List.length_take, List.length_take] at hlength
    omega
  cases h with
  | copied =>
    exact ⟨hn, hright, heq, rfl, rfl, fun start length hle =>
      congrArg Storage.owned (window_eq_of_take_eq heq hle)⟩
  | inPlace =>
    refine ⟨hn, hright, heq, rfl, rfl, fun start length hle => ?_⟩
    have hwindow : (Storage.shared bs' (0 + start) length).bytes =
        (Storage.shared bs (0 + start) length).bytes := window_eq_of_take_eq heq (by omega)
    exact (if_pos hwindow).symm

end SameMode

end Input

namespace Wire

variable {admits : Kind → Entry Datum → Bool} {input : Input} {block : Block}

/-- A block that was read under built-in kinds only has entries that are confined to their bytes. -/
theorem exists_confined (hsound : input.Sound) (hread : readBlock C (Kind.decode C) admits input = .ok block)
    {events : List Event} (hevents : (Traced.readBlock C (Traced.decode C) admits input).events = events)
    (hmet : ∀ k, .met k ∈ events → Builtin k.base) :
    ∃ K declared, BlockRead C (fun k => Builtin k.base) (Confined C maxNesting (Kind.decode C))
      (Kind.decode C) admits input K declared block :=
  Traced.readBlock_ensures Traced.decode_follows Traced.decode_confined hsound
    (fun k hk => hmet k (hevents ▸ hk)) block
    ((Traced.readBlock_follows Traced.decode_follows hsound).outcome.trans hread)

/-! ## Bytes too many -/

/-- Lists and tables end where they say. One that is read whole, under built-in kinds only, is read whole from
whatever bytes start with those that it was read from, up to the same place, and with the same kinds, keys and
values in the same order and in as many buckets, however deep. Read in place it has windows on the other
bytes, by copy nothing is different. -/
theorem decode_self_delimiting (C : Catalogue) {bs bs' : Bytes} {f : Storage → Storage} {input input' : Input}
    (hmode : Input.SameMode bs bs' f input input') :
    (∀ d, Listing.decode C input = .ok d → d.isComplete = true →
      (∀ k, .met k ∈ (Traced.listing C input).events → Builtin k.base) →
      bs'.take d.consumed = bs.take d.consumed →
      Listing.decode C input' = .ok (d.map (Listing.keptBy f)) ∧
        (input = .copied bs → d.map (Listing.keptBy f) = d)) ∧
    ∀ d, Table.decode C input = .ok d → d.isComplete = true →
      (∀ k, .met k ∈ (Traced.table C input).events → Builtin k.base) →
      bs'.take d.consumed = bs.take d.consumed →
      Table.decode C input' = .ok (d.map (Table.keptBy f)) ∧
        (input = .copied bs → d.map (Table.keptBy f) = d) := by
  obtain ⟨hsound, -, hbytes⟩ := Input.sound_of_whole hmode.whole
  have hid : input = .copied bs → f = id := by
    rintro rfl
    cases hmode
    rfl
  refine ⟨fun d hdecode hcomplete hmet heq => ?_, fun d hdecode hcomplete hmet heq => ?_⟩
  · obtain ⟨block, hblock, rfl⟩ := ok_of_map hdecode
    obtain ⟨K, declared, hread⟩ := exists_confined hsound hblock (Traced.events_map _ Block.toListing).symm hmet
    have hagrees := hmode.agrees (hbytes ▸ hread.recovered.least_le.2) heq
    have hagain := hread.again decode_seesBase admission_all hmode.bytes_eq
      (Option.isNone_iff_eq_none.1 hcomplete) hagrees
    refine ⟨?_, fun hcopied => ?_⟩
    · rw [Listing.decode, hagain, ← BlockRead.toListing_keptBy]
      rfl
    · rw [hid hcopied, Decoded.map, Datum.list.inj (Datum.keptBy_id (.list block.toListing.value))]
  · obtain ⟨block, hblock, rfl⟩ := ok_of_map hdecode
    obtain ⟨K, declared, hread⟩ :=
      exists_confined hsound hblock (Traced.events_map _ (Block.toTable C)).symm hmet
    have hagrees := hmode.agrees (hbytes ▸ hread.recovered.least_le.2) heq
    have hagain := hread.again decode_seesBase admission_table hmode.bytes_eq
      (Option.isNone_iff_eq_none.1 hcomplete) hagrees
    refine ⟨?_, fun hcopied => ?_⟩
    · rw [Table.decode, hagain, ← hread.toTable_keptBy hmode.bytes_eq]
      rfl
    · rw [hid hcopied, Decoded.map, Datum.table.inj (Datum.keptBy_id (.table (block.toTable C).value))]

/-- Under text keys, a list with a text key of its own, and a flag. -/
def lettered : Bytes :=
  header 27 2 ++
    (Bytes.ofNat 2 33 ++ (header 27 1 ++ (Bytes.ofNat 2 1 ++ [1] ++ measured [98])) ++ measured [97]) ++
    (Bytes.ofNat 2 1 ++ [0] ++ measured [99])

/-- What is read of it, as a list and as a table, is whole, and under built-in kinds only. -/
theorem lettered_whole :
    (∃ d, Listing.decode .specimens (.copied lettered) = .ok d ∧ d.isComplete = true ∧ d.consumed = 67 ∧
      ∀ k, .met k ∈ (Traced.listing .specimens (.copied lettered)).events → Builtin k.base) ∧
    ∃ d, Table.decode .specimens (.inPlace lettered) = .ok d ∧ d.isComplete = true ∧ d.consumed = 67 ∧
      ∀ k, .met k ∈ (Traced.table .specimens (.inPlace lettered)).events → Builtin k.base := by
  have whole : ∀ {α : Type} {x : Except WireFault (Decoded α)},
      x.toOption.any (fun d => d.isComplete && d.consumed == 67) = true →
      ∃ d, x = .ok d ∧ d.isComplete = true ∧ d.consumed = 67 := by
    intro α x hx
    obtain ⟨d, rfl, hd⟩ := ok_of_any hx
    simp only [Bool.and_eq_true, beq_iff_eq] at hd
    exact ⟨d, rfl, hd⟩
  have builtin : ∀ {events : List Event},
      (events.all fun e => e.kind?.all fun k => decide (Builtin k.base)) = true →
      ∀ k, .met k ∈ events → Builtin k.base :=
    fun hevents k hk => of_decide_eq_true (List.all_eq_true.1 hevents _ hk)
  obtain ⟨l, hl, hlcomplete, hlconsumed⟩ := whole (x := Listing.decode .specimens (.copied lettered))
    (by decide +kernel)
  obtain ⟨t, ht, htcomplete, htconsumed⟩ := whole (x := Table.decode .specimens (.inPlace lettered))
    (by decide +kernel)
  exact ⟨⟨l, hl, hlcomplete, hlconsumed, builtin (by decide +kernel)⟩,
    t, ht, htcomplete, htconsumed, builtin (by decide +kernel)⟩

/-- One byte more makes no difference to the list that is copied, and gives the table other windows. -/
theorem decode_self_delimiting_lettered :
    (∃ d, Listing.decode .specimens (.copied lettered) = .ok d ∧ d.isComplete = true ∧
      (∀ k, .met k ∈ (Traced.listing .specimens (.copied lettered)).events → Builtin k.base) ∧
      (lettered ++ [7]).take d.consumed = lettered.take d.consumed ∧
      Listing.decode .specimens (.copied (lettered ++ [7])) = .ok d) ∧
    ∃ d, Table.decode .specimens (.inPlace lettered) = .ok d ∧ d.isComplete = true ∧
      (∀ k, .met k ∈ (Traced.table .specimens (.inPlace lettered)).events → Builtin k.base) ∧
      (lettered ++ [7]).take d.consumed = lettered.take d.consumed ∧
      Table.decode .specimens (.inPlace (lettered ++ [7])) =
        .ok (d.map (Table.keptBy (.onto (lettered ++ [7])))) := by
  obtain ⟨⟨l, hl, hlcomplete, hlconsumed, hlmet⟩, t, ht, htcomplete, htconsumed, htmet⟩ := lettered_whole
  have htake : (lettered ++ [7]).take 67 = lettered.take 67 := by decide
  have hlagain := (decode_self_delimiting .specimens .copied).1 l hl hlcomplete hlmet (hlconsumed ▸ htake)
  have htagain := (decode_self_delimiting .specimens .inPlace).2 t ht htcomplete htmet (htconsumed ▸ htake)
  refine ⟨⟨l, hl, hlcomplete, hlmet, hlconsumed ▸ htake, ?_⟩, t, ht, htcomplete, htmet, htconsumed ▸ htake,
    htagain.1⟩
  rw [hlagain.1, hlagain.2 rfl]

/-! ## Bytes too few -/

variable (C) in
/-- The places between the entries of a block: where each of them is read, and where the last one ends. -/
structure Boundaries (input : Input) (K : Kind) (entries : List (Entry Datum)) (p : Nat → Nat) : Prop where
  first : p 0 = headerLength
  increasing : ∀ k < entries.length, p k < p (k + 1)
  entry : ∀ k (hk : k < entries.length),
    readEntry C (Kind.decode C) input K (p k) = .ok (entries[k], p (k + 1) - p k)

variable (C) in
/-- What was read as `d` is made of entries by `fill`, which is also told how many buckets are asked for, and
holds these entries. Cut off behind the header, by copy and in place, it is made of the entries that end before
the cut, and of these only. It was consumed up to where the last of them ends, and there is a fault: if the cut
is just there, the one that tells how many entries were declared and how many are there. -/
def Truncates {α : Type} (decode : Input → Except WireFault (Decoded α))
    (fill : Kind → Nat → List (Entry Datum) → α) (holds : α → List (Entry Datum)) (bs : Bytes) (input : Input)
    (d : Decoded α) : Prop :=
  ∃ K entries p, readHeader C bs = .ok (K, entries.length) ∧
    d.value = fill (C.decodedKind input K) entries.length entries ∧ (holds d.value).Perm entries ∧
    Boundaries C input K entries p ∧ p entries.length = d.consumed ∧
    ∀ m f cut, Input.SameMode bs (bs.take m) f input cut → headerLength ≤ m → m < d.consumed →
      ∃ k value fault, k < entries.length ∧ p k ≤ m ∧ m < p (k + 1) ∧
        decode cut = .ok ⟨value, p k, some fault⟩ ∧
        value = fill (C.decodedKind input K) (min entries.length ((m - headerLength) / leastEntry))
          ((entries.take k).map (Entry.keptBy f)) ∧
        (holds value).Perm ((entries.take k).map (Entry.keptBy f)) ∧
        (m = p k → fault = .incomplete entries.length k)

/-- What a whole block is put into holds, cut off, the entries that end before the cut. -/
theorem BlockRead.truncates {K : Kind} {declared : Nat} {bs : Bytes}
    (h : BlockRead C (fun k => Builtin k.base) (Confined C maxNesting (Kind.decode C)) (Kind.decode C) admits
      input K declared block)
    (hbytes : input.bytes = bs) (hadmits : Admission admits) (hfault : block.fault = none) {α : Type}
    {decode : Input → Except WireFault (Decoded α)} {fill : Kind → Nat → List (Entry Datum) → α}
    {holds : α → List (Entry Datum)}
    (hdecode : ∀ input, decode input = (readBlock C (Kind.decode C) admits input).map fun b =>
      ⟨fill b.keyKind b.wanted b.entries, b.consumed, b.fault⟩)
    (hholds : ∀ (f : Storage → Storage) (wanted : Nat) (es : List (Entry Datum)), (∀ s, (f s).bytes = s.bytes) →
      (∀ e ∈ es, e ∈ block.entries) →
      (holds (fill block.keyKind wanted (es.map (Entry.keptBy f)))).Perm (es.map (Entry.keptBy f))) :
    Truncates C decode fill holds bs input
      ⟨fill block.keyKind block.wanted block.entries, block.consumed, block.fault⟩ := by
  subst hbytes
  have hcount := h.complete.1 hfault
  have hwithin := h.recovered.least_le.2
  obtain ⟨p, hfirst, hlast, hentry, hcut⟩ := h.cut decode_seesBase hadmits hfault
  refine ⟨K, block.entries, p, hcount ▸ h.header, ?_, ?_, ⟨hfirst, fun k hk => (hentry k hk).1,
    fun k hk => (hentry k hk).2⟩, hlast, fun m f cut hmode hheader hm => ?_⟩
  · rw [h.recovered.wanted_eq hfault, h.keyKind]
  · have hid : block.entries.map (Entry.keptBy id) = block.entries := by
      refine (List.map_congr_left fun e _ => ?_).trans (List.map_id _)
      rw [Entry.keptBy, Entry.map, Datum.keptBy_id, Datum.keptBy_id]
      rfl
    have hperm := hholds id block.wanted block.entries (fun _ => rfl) fun _ he => he
    rwa [hid] at hperm
  · have hm' : m ≤ input.bytes.length := Nat.le_trans (Nat.le_of_lt hm) hwithin
    have hagrees := hmode.agrees hm' (by rw [List.take_take, Nat.min_self])
    have hlength : cut.bytes.length = m := by
      rw [hmode.bytes_input.2, List.length_take, Nat.min_eq_left hm']
    obtain ⟨k, fault, hk, hle, hlt, hblock, hincomplete⟩ :=
      hcut f m cut hmode.bytes_eq hheader hm hagrees hlength
    refine ⟨k, _, fault, hk, hle, hlt, ?_, by rw [← h.keyKind], ?_, hincomplete⟩
    · rw [hdecode, hblock]
      rfl
    · exact hholds f _ _ hmode.bytes_eq fun e he => List.mem_of_mem_take he

/-- Where the bytes of a list or a table are cut off that is read whole under built-in kinds only, just the
whole entries are recovered. -/
theorem decode_cut (C : Catalogue) {bs : Bytes} {input : Input}
    (hinput : input = .copied bs ∨ input = .inPlace bs) :
    (∀ d, Listing.decode C input = .ok d → d.isComplete = true →
      (∀ k, .met k ∈ (Traced.listing C input).events → Builtin k.base) →
      Truncates C (Listing.decode C) (fun K _ es => ⟨K, es⟩) Listing.entries bs input d) ∧
    ∀ d, Table.decode C input = .ok d → d.isComplete = true →
      (∀ k, .met k ∈ (Traced.table C input).events → Builtin k.base) →
      Truncates C (Table.decode C) (fun K wanted es => (Table.empty K wanted).addAll C es) Table.entries bs
        input d := by
  obtain ⟨hsound, -, hbytes⟩ := Input.sound_of_whole hinput
  refine ⟨fun d hdecode hcomplete hmet => ?_, fun d hdecode hcomplete hmet => ?_⟩
  · obtain ⟨block, hblock, rfl⟩ := ok_of_map hdecode
    obtain ⟨K, declared, hread⟩ := exists_confined hsound hblock (Traced.events_map _ Block.toListing).symm hmet
    exact hread.truncates hbytes admission_all (Option.isNone_iff_eq_none.1 hcomplete) (fun _ => rfl)
      fun _ _ _ _ _ => .refl _
  · obtain ⟨block, hblock, rfl⟩ := ok_of_map hdecode
    obtain ⟨K, declared, hread⟩ :=
      exists_confined hsound hblock (Traced.events_map _ (Block.toTable C)).symm hmet
    obtain ⟨hkey, hvalue⟩ := hread.recovered.portable
    refine hread.truncates hbytes admission_table (Option.isNone_iff_eq_none.1 hcomplete) (fun _ => rfl)
      fun f wanted es hf hes => ?_
    -- what was read and is kept elsewhere is accepted as it was
    refine Table.addAll_perm (.empty _ _) fun e he => ?_
    obtain ⟨e, hmem, rfl⟩ := List.mem_map.1 he
    have hkey := hkey e (hes e hmem)
    have hvalue := hvalue e (hes e hmem)
    exact ⟨(Kind.accepts_keptBy hf hkey.builtin _).trans hkey.accepted,
      (Kind.accepts_keptBy hf hvalue.builtin _).trans hvalue.accepted⟩

/-- The list by copy and the table in place, wherever they are cut off. -/
theorem decode_cut_lettered :
    (∃ d, Listing.decode .specimens (.copied lettered) = .ok d ∧ d.isComplete = true ∧
      (∀ k, .met k ∈ (Traced.listing .specimens (.copied lettered)).events → Builtin k.base) ∧
      Truncates .specimens (Listing.decode .specimens) (fun K _ es => ⟨K, es⟩) Listing.entries lettered
        (.copied lettered) d) ∧
    ∃ d, Table.decode .specimens (.inPlace lettered) = .ok d ∧ d.isComplete = true ∧
      (∀ k, .met k ∈ (Traced.table .specimens (.inPlace lettered)).events → Builtin k.base) ∧
      Truncates .specimens (Table.decode .specimens)
        (fun K wanted es => (Table.empty K wanted).addAll .specimens es) Table.entries lettered
        (.inPlace lettered) d := by
  obtain ⟨⟨l, hl, hlcomplete, -, hlmet⟩, t, ht, htcomplete, -, htmet⟩ := lettered_whole
  exact ⟨⟨l, hl, hlcomplete, hlmet, (decode_cut .specimens (.inl rfl)).1 l hl hlcomplete hlmet⟩,
    t, ht, htcomplete, htmet, (decode_cut .specimens (.inr rfl)).2 t ht htcomplete htmet⟩

/-- Cut off right behind its first entry, and before its last byte. -/
example : [55, 66].map (fun m => (Table.decode .specimens (.inPlace (lettered.take m))).toOption.map fun d =>
    (d.consumed, d.value.size)) = [some (55, 1), some (55, 1)] := by decide +kernel

end Wire

end OrderedTable
