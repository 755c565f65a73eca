import OrderedTable.Proofs.Table.Assembly
import OrderedTable.Proofs.Wire.Blocks
import OrderedTable.Proofs.Wire.Written

/-!
# What a decoder makes of any bytes

From bytes that nobody vouches for, a decoder of tables or lists gives a value of which everything is
accounted for (`Wire.decode_accounted`). Built-in kinds are read from bytes that are there, and give values
that they accept; of an extension as much has to be known (`Extension.Honest`), but only if its index is met.

A value that is read is `Kind.WellMade`: at every level keys and values are accepted by their kinds, and
tables are assembled from the entries that were read (`Table.Assembled`).
-/

namespace OrderedTable

open Wire

/-! ## Values that are well made -/

/-- A value that its kind accepts and, if it is a list or a table, with keys and values of which the same
holds at every level. Tables are assembled from their entries. All kinds have bases with the property `P`. -/
inductive Kind.WellMade (C : Catalogue) (P : Base → Prop) : Kind → Datum → Prop
  | leaf {k : Kind} {d : Datum} (kept : P k.base) (list : k.base ≠ .list) (table : k.base ≠ .table)
      (accepted : k.accepts C d = true) : WellMade C P k d
  | list {k : Kind} {l : Listing Datum} (kept : P k.base) (base : k.base = .list) (keys : P l.keyKind.base)
      (key : ∀ e ∈ l.entries, WellMade C P l.keyKind e.key)
      (value : ∀ e ∈ l.entries, WellMade C P e.kind e.value) : WellMade C P k (.list l)
  | table {k : Kind} {t : Table Datum} (kept : P k.base) (base : k.base = .table) (keys : P t.keyKind.base)
      (assembled : ∃ wanted entries, t.Assembled C P wanted entries)
      (key : ∀ e ∈ t.entries, WellMade C P t.keyKind e.key)
      (value : ∀ e ∈ t.entries, WellMade C P e.kind e.value) : WellMade C P k (.table t)

namespace Kind.WellMade

variable {C : Catalogue} {P : Base → Prop} {k : Kind} {d : Datum}

theorem accepts (h : k.WellMade C P d) : k.accepts C d = true := by
  cases h with
  | leaf _ _ _ accepted => exact accepted
  | list _ base => rw [Kind.accepts, base]; rfl
  | table _ base => rw [Kind.accepts, base]; rfl

/-- The kinds of what is well made have the property, at every level. -/
theorem within (h : k.WellMade C P d) : k.Within P d := by
  induction h with
  | leaf kept list table => exact (within_leaf (parts?_eq_none_of_base list table _)).2 kept
  | list kept base keys _ _ _ ihvalue => exact .of_parts (parts?_of_list base rfl) kept keys ihvalue
  | table kept base keys _ _ _ _ ihvalue => exact .of_parts (parts?_of_table base rfl) kept keys ihvalue

/-- Being well made depends on the base of the kind only. -/
theorem congr {k' : Kind} (hk : k.base = k'.base) (h : k.WellMade C P d) : k'.WellMade C P d := by
  cases h with
  | leaf kept list table accepted =>
    exact .leaf (hk ▸ kept) (hk ▸ list) (hk ▸ table) ((Kind.accepts_congr hk d).symm.trans accepted)
  | list kept base keys key value => exact .list (hk ▸ kept) (hk ▸ base) keys key value
  | table kept base keys assembled key value =>
    exact .table (hk ▸ kept) (hk ▸ base) keys assembled key value

end Kind.WellMade

/-! ## Leaves -/

/-- An extension whose decoder gives values that it accepts, from bytes that are there. -/
structure Extension.Honest (x : Extension) : Prop where
  accepts : ∀ input d n, x.decode input = .ok (d, n) → x.accepts d = true
  within : ∀ input d n, x.decode input = .ok (d, n) → n ≤ input.bytes.length

/-- The base is built in, or an honest extension. -/
def Catalogue.Honest (C : Catalogue) (b : Base) : Prop := ∀ id, b = .extension id → (C.extension id).Honest

/-- A leaf of a built-in kind is read from bytes that are there, and accepted. An honest extension promises the
same. -/
theorem Kind.decodeLeaf_honest {C : Catalogue} {k : Kind} {input : Input} {d : Datum} {n : Nat}
    (hk : C.Honest k.base) (h : k.decodeLeaf C input = .ok (d, n)) :
    k.accepts C d = true ∧ n ≤ input.bytes.length := by
  obtain ⟨base, borrowing⟩ := k
  unfold decodeLeaf at h
  cases base with
  | scalar s =>
    dsimp only at h
    split at h
    · cases h
    · cases h
      refine ⟨?_, by omega⟩
      simp [accepts, Datum.scalarOf?, Datum.scalar?, Datum.peel]
  | text caseBlind =>
    obtain ⟨⟨start, length⟩, hahead, h⟩ := ok_of_bind h
    have hle := le_of_measuredAhead hahead
    dsimp only at h
    split at h
    · cases h
      exact ⟨rfl, hle⟩
    · cases h
  | bytes =>
    obtain ⟨⟨start, length⟩, hahead, h⟩ := ok_of_bind h
    cases h
    exact ⟨rfl, le_of_measuredAhead hahead⟩
  | list => cases h
  | table => cases h
  | extension id => exact ⟨(hk id rfl).accepts _ _ _ h, (hk id rfl).within _ _ _ h⟩

/-! ## Blocks -/

/-- A value that was read from the bytes ahead, and is well made. -/
structure Kind.WellRead (C : Catalogue) (P : Base → Prop) (k : Kind) (input : Input) (d : Datum) (n : Nat) :
    Prop where
  within : n ≤ input.bytes.length
  wellMade : k.WellMade C P d

namespace Wire

variable {C : Catalogue} {P : Base → Prop} {good : Kind → Prop} {decode : Decoder}
variable {admits : Kind → Entry Datum → Bool} {input : Input} {K : Kind}

namespace EntryRead

variable {place length : Nat} {e : Entry Datum}

/-- An entry takes at least the index of its kind, and lies in the input. -/
theorem bounds (h : EntryRead C good (Kind.WellRead C P) input K place e length) :
    2 ≤ length ∧ place + length ≤ input.bytes.length := by
  cases h with
  | mk ahead _ _ hvalue hkey =>
    have hvalue := hvalue.within
    have hkey := hkey.within
    simp only [Input.advance, List.length_drop] at hvalue hkey
    omega

/-- The key of an entry is well made, and so is its value under the kind that the entry is given. -/
theorem wellMade (h : EntryRead C good (Kind.WellRead C P) input K place e length) :
    K.WellMade C P e.key ∧ e.kind.WellMade C P e.value := by
  cases h with
  | mk _ _ hregistered hvalue hkey =>
    exact ⟨hkey.wellMade, hvalue.wellMade.congr (C.base_decodedKind input hregistered).symm⟩

end EntryRead

namespace BlockRead

variable {declared : Nat} {block : Block}

/-- A block takes at least its header and the indices of its entries, and lies in the input. -/
theorem bounds (h : BlockRead C good (Kind.WellRead C P) decode admits input K declared block) :
    headerLength + 2 * block.entries.length ≤ block.consumed ∧ block.consumed ≤ input.bytes.length :=
  h.runs.bounds (fun _ _ _ hentry => hentry.parts.bounds) (headerLength_le_of_readHeader h.header)

/-- Every entry of a block is well made. -/
theorem wellMade (h : BlockRead C good (Kind.WellRead C P) decode admits input K declared block)
    {e : Entry Datum} (he : e ∈ block.entries) : K.WellMade C P e.key ∧ e.kind.WellMade C P e.value := by
  obtain ⟨place, length, hentry⟩ := h.runs.exists_of_mem he
  exact hentry.parts.wellMade

theorem toListing (h : BlockRead C good (Kind.WellRead C P) decode admits input K declared block)
    (hP : P K.base) {k : Kind} (hk : k.base = .list) (kept : P k.base) :
    k.WellMade C P (.list block.toListing.value) := by
  have hbase := h.base_eq
  exact .list kept hk (hbase ▸ hP) (fun e he => (h.wellMade he).1.congr hbase.symm)
    fun e he => (h.wellMade he).2

/-- The table is assembled from the entries that were read. -/
theorem assembled (h : BlockRead C good (Kind.WellRead C P) decode admits input K declared block)
    (hregistered : ∀ b, P b → C.Registered b) (hP : P K.base) :
    (block.toTable C).value.Assembled C P block.wanted block.entries := by
  have hkey : ∀ e ∈ block.entries, block.keyKind.WellMade C P e.key := fun e he =>
    (h.wellMade he).1.congr h.base_eq.symm
  exact Table.assembled_addAll hregistered (h.base_eq.symm ▸ hP) block.wanted
    (fun e he => (hkey e he).within) fun e he => ⟨(hkey e he).accepts, (h.wellMade he).2.accepts⟩

/-- The table of a block is well made: its rows hold the entries that were read. -/
theorem toTable (h : BlockRead C good (Kind.WellRead C P) decode admits input K declared block)
    (hregistered : ∀ b, P b → C.Registered b) (hP : P K.base) {k : Kind} (hk : k.base = .table)
    (kept : P k.base) : k.WellMade C P (.table (block.toTable C).value) := by
  have hassembled := h.assembled hregistered hP
  have hkeyKind : (block.toTable C).value.keyKind = block.keyKind := (Table.addAll_fields _ _).1
  have hbase : (block.toTable C).value.keyKind.base = K.base := by rw [hkeyKind, h.base_eq]
  refine .table kept hk (hbase ▸ hP) ⟨_, _, hassembled⟩ (fun e he => ?_) fun e he => ?_
  · exact (h.wellMade (hassembled.holds.mem_iff.1 he)).1.congr hbase.symm
  · exact (h.wellMade (hassembled.holds.mem_iff.1 he)).2

end BlockRead

/-! ## Values -/

/-- However deep values may lie, what is read under good kinds is well made. -/
theorem Traced.decodeWithin_wellRead (hregistered : ∀ b, P b → C.Registered b)
    (hgood : ∀ k, good k → C.Registered k.base → C.Honest k.base ∧ P k.base) (levels : Nat) :
    DecoderEnsures C good (decodeWithin C levels) (Kind.WellRead C P) := by
  refine decodeWithin_ensures (Q := fun _ => Kind.WellRead C P) ?_ ?_ ?_ levels
  · intro _ k input d n hk hindex hlist htable _ hd
    obtain ⟨hhonest, hP⟩ := hgood k hk hindex
    obtain ⟨haccepts, hle⟩ := Kind.decodeLeaf_honest hhonest hd
    exact ⟨hle, .leaf hP hlist htable haccepts⟩
  · intro _ k K input declared block hk hindex hlist hread _
    exact ⟨hread.bounds.2,
      hread.toListing (hgood K hread.keys.1 hread.keys.2).2 hlist (hgood k hk hindex).2⟩
  · intro _ k K input declared block hk hindex htable hread _
    exact ⟨hread.bounds.2,
      hread.toTable hregistered (hgood K hread.keys.1 hread.keys.2).2 htable (hgood k hk hindex).2⟩

/-! ## The account -/

/-- What is known of a block of which entries were read, from any bytes: the entries stand one behind
another, from the header on up to the last byte that was taken; no byte was taken that is not there; there
are not more entries than declared, and there is no fault exactly if there are as many. -/
structure Accounted (C : Catalogue) (admits : Kind → Entry Datum → Bool) (input : Input) (K : Kind)
    (declared : Nat) (entries : List (Entry Datum)) (consumed : Nat) (fault : Option WireFault) : Prop where
  runs : Runs (fun place e length => readEntry C (Kind.decode C) input K place = .ok (e, length) ∧
    admits K e = true) headerLength entries consumed
  progress : headerLength + 2 * entries.length ≤ consumed
  within : consumed ≤ input.bytes.length
  count : entries.length ≤ declared
  complete : fault = none ↔ entries.length = declared

/-- What a block says of the entries that it read, without the parts of the entries. -/
theorem BlockRead.accounted {declared : Nat} {block : Block}
    (h : BlockRead C good (Kind.WellRead C P) (Kind.decode C) admits input K declared block) :
    Accounted C admits input K declared block.entries block.consumed block.fault where
  runs := h.runs.mono fun _ _ _ hentry => ⟨hentry.read, hentry.admitted⟩
  progress := h.bounds.1
  within := h.bounds.2
  count := h.count
  complete := h.complete

/-- The bases of built-in kinds, and of the extensions with an index that were met. -/
def Traced.Mentioned (C : Catalogue) (events : List Event) (b : Base) : Prop :=
  C.Registered b ∧ ∀ id, b = .extension id → ∃ k, .met k ∈ events ∧ k.base = b

/-- Built-in bases count as mentioned, whatever was met. -/
theorem Traced.mentioned_of_builtin {events : List Event} {b : Base} (hb : Builtin b) :
    Mentioned C events b :=
  ⟨C.registered_of_builtin hb, fun id hid => absurd (hid ▸ hb) (not_builtin_extension id)⟩

/-- What is done to a result is not an event. -/
theorem Traced.events_map {α β : Type} (x : Traced α) (f : α → β) :
    (x >>= fun a => pure (f a)).events = x.events := by
  cases houtcome : x.outcome with
  | error fault => simp only [Bind.bind, Traced.bind, houtcome]
  | ok a =>
    simp only [Bind.bind, Traced.bind, houtcome]
    exact List.append_nil _

/-- Under a header without fault a block is read and, if all kinds met are honest, well made. -/
theorem exists_blockRead (hsound : input.Sound) {declared : Nat}
    (hheader : readHeader C input.bytes = .ok (K, declared)) {events : List Event}
    (hevents : (Traced.readBlock C (Traced.decode C) admits input).events = events)
    (hhonest : ∀ k, .met k ∈ events → C.Honest k.base) :
    ∃ block, readBlock C (Kind.decode C) admits input = .ok block ∧
      BlockRead C (fun k => .met k ∈ events) (Kind.WellRead C (Traced.Mentioned C events)) (Kind.decode C)
        admits input K declared block := by
  have hgood : ∀ k, .met k ∈ events → C.Registered k.base →
      C.Honest k.base ∧ Traced.Mentioned C events k.base := fun k hmet hindex =>
    ⟨hhonest k hmet, hindex, fun id _ => ⟨k, hmet, rfl⟩⟩
  -- only the kinds that are met in this run are asked to be honest
  have hdecode : Traced.DecoderEnsures C (fun k => .met k ∈ events) (Traced.decode C)
      (Kind.WellRead C (Traced.Mentioned C events)) := fun k input =>
    Traced.decodeWithin_wellRead (fun _ hb => hb.1) hgood (maxNesting - input.depth) k input
  obtain ⟨block, hblock⟩ : ∃ block, readBlock C (Kind.decode C) admits input = .ok block := by
    rw [readBlock, hheader]
    exact ⟨_, rfl⟩
  have houtcome := (Traced.readBlock_follows Traced.decode_follows hsound).outcome.trans hblock
  obtain ⟨K', declared', hread⟩ := Traced.readBlock_ensures Traced.decode_follows hdecode hsound
    (fun k hk => hevents ▸ hk) block houtcome
  cases hheader.symm.trans hread.header
  exact ⟨block, hblock, hread⟩

end Wire

open Wire

/-- Whatever the bytes are, by copy and in place, decoders of tables and of lists look only at bytes that are
there, and fail only for a fault in the header. Failing that, if the kinds met are honest, what is read is
accounted for. A list has just the entries that were read. A table is assembled from them, in not more buckets
than the bytes could hold entries. All keys and values are well made. -/
theorem Wire.decode_accounted (C : Catalogue) {bs : Bytes} {input : Input}
    (hinput : input = .copied bs ∨ input = .inPlace bs) :
    let tables := Traced.table C input
    let lists := Traced.listing C input
    tables.Follows (Table.decode C input) ∧ lists.Follows (Listing.decode C input) ∧
      (∀ fault, readHeader C bs = .error fault →
        Table.decode C input = .error fault ∧ Listing.decode C input = .error fault) ∧
      ∀ K declared, readHeader C bs = .ok (K, declared) →
        ((∀ k, .met k ∈ tables.events → C.Honest k.base) → ∃ d entries, Table.decode C input = .ok d ∧
          Accounted C (tableAdmits C) input K declared entries d.consumed d.fault ∧
          d.value.keyKind = C.decodedKind input K ∧ d.value.size = entries.length ∧
          d.value.capacity ≤ max Table.minCapacity ((bs.length - headerLength) / leastEntry) ∧
          (∃ wanted, d.value.Assembled C (Traced.Mentioned C tables.events) wanted entries) ∧
          Kind.table.WellMade C (Traced.Mentioned C tables.events) (.table d.value)) ∧
        ((∀ k, .met k ∈ lists.events → C.Honest k.base) → ∃ d, Listing.decode C input = .ok d ∧
          Accounted C (fun _ _ => true) input K declared d.value.entries d.consumed d.fault ∧
          d.value.keyKind = C.decodedKind input K ∧
          Kind.list.WellMade C (Traced.Mentioned C lists.events) (.list d.value)) := by
  intro tables lists
  obtain ⟨hsound, -, rfl⟩ := Input.sound_of_whole hinput
  refine ⟨Traced.table_follows hsound, Traced.listing_follows hsound, fun fault hfault => ?_,
    fun K declared hheader => ⟨fun hhonest => ?_, fun hhonest => ?_⟩⟩
  · rw [Table.decode, Listing.decode, readBlock, readBlock, hfault]
    exact ⟨rfl, rfl⟩
  · obtain ⟨block, hblock, hread⟩ :=
      exists_blockRead hsound hheader (Traced.events_map _ (Block.toTable C)).symm hhonest
    have hK : Traced.Mentioned C tables.events K.base := ⟨hread.keys.2, fun id _ => ⟨K, hread.keys.1, rfl⟩⟩
    -- the table is no more than the block that was read, with its entries put in
    have hassembled := hread.assembled (fun _ hb => hb.1) hK
    refine ⟨block.toTable C, block.entries, ?_, hread.accounted, ?_, ?_, ?_, ⟨_, hassembled⟩, ?_⟩
    · rw [Table.decode, hblock]
      rfl
    · exact (Table.addAll_fields _ _).1.trans hread.keyKind
    · rw [← hassembled.holds.length_eq, Table.entries, List.length_map, Table.size]
    · rw [hassembled.capacity, hread.wanted]
      omega
    · exact hread.toTable (fun _ hb => hb.1) hK rfl (Traced.mentioned_of_builtin (by decide))
  · obtain ⟨block, hblock, hread⟩ :=
      exists_blockRead hsound hheader (Traced.events_map _ Block.toListing).symm hhonest
    have hK : Traced.Mentioned C lists.events K.base := ⟨hread.keys.2, fun id _ => ⟨K, hread.keys.1, rfl⟩⟩
    refine ⟨block.toListing, ?_, hread.accounted, hread.keyKind, ?_⟩
    · rw [Listing.decode, hblock]
      rfl
    · exact hread.toListing hK rfl (Traced.mentioned_of_builtin (by decide))

/-! ## The specimens -/

/-- An extension that writes nothing is honest. -/
theorem Extension.honest_unit : unit.Honest where
  accepts _ d n h := by
    cases (Except.ok.inj h : (Datum.unit, 0) = (d, n))
    rfl
  within _ d n h := by
    cases (Except.ok.inj h : (Datum.unit, 0) = (d, n))
    exact Nat.zero_le _

/-- The extension that is read as a number is honest, as numbers are. -/
theorem Extension.honest_colliding : colliding.Honest := by
  have leaf : ∀ input d n, colliding.decode input = .ok (d, n) →
      Kind.i32.accepts builtinOnly d = true ∧ n ≤ input.bytes.length := by
    intro input d n h
    have hleaf : colliding.decode input = Kind.i32.decodeLeaf builtinOnly input :=
      Kind.decodeWithin_leaf (k := Kind.i32) (by decide) (by decide) _ _
    exact Kind.decodeLeaf_honest (k := Kind.i32) nofun (hleaf.symm.trans h)
  exact ⟨fun input d n h => (leaf input d n h).1, fun input d n h => (leaf input d n h).2⟩

/-- The kind that was met, if any was. -/
def Wire.Event.kind? : Event → Option Kind
  | look .. => none
  | met k => some k

/-- Under keys that take no bytes, two entries are declared: a number under an extension whose hash never
tells values apart, and a text that is longer than what is left. -/
def Wire.overdrawn : Bytes := header 37 2 ++ Bytes.ofNat 2 39 ++ [5, 0, 0, 0] ++ Bytes.ofNat 2 27 ++ [9, 0]

/-- The second of two entries is cut off, and the first is accounted for: both kinds that were met are honest. -/
theorem Wire.decode_accounted_overdrawn :
    let input := Input.inPlace overdrawn
    let events := (Traced.table .specimens input).events
    (∀ k, .met k ∈ events → Catalogue.specimens.Honest k.base) ∧
      ∃ d entries, Table.decode .specimens input = .ok d ∧
        Accounted .specimens (tableAdmits .specimens) input (.owning (.extension 0)) 2 entries d.consumed
          d.fault ∧
        d.value.size = entries.length ∧
        (∃ wanted, d.value.Assembled .specimens (Traced.Mentioned .specimens events) wanted entries) ∧
        Kind.table.WellMade .specimens (Traced.Mentioned .specimens events) (.table d.value) := by
  intro input events
  have hhonest : ∀ k, .met k ∈ events → Catalogue.specimens.Honest k.base := by
    intro k hk
    have hkinds : events.filterMap Event.kind? =
        [.owning (.extension 0), .owning (.extension 1), .text] := by decide +kernel
    have hmem : k ∈ events.filterMap Event.kind? := List.mem_filterMap.2 ⟨_, hk, rfl⟩
    simp only [hkinds, List.mem_cons, List.not_mem_nil, or_false] at hmem
    intro id hid
    rcases hmem with rfl | rfl | rfl
    · cases hid
      exact Extension.honest_unit
    · cases hid
      exact Extension.honest_colliding
    · cases hid
  have hheader : readHeader .specimens overdrawn = .ok (.owning (.extension 0), 2) := by
    have hrun : (readHeader .specimens overdrawn).toOption.any
        (fun r => decide (r = (.owning (.extension 0), 2))) = true := by decide +kernel
    obtain ⟨r, hread, hr⟩ := ok_of_any hrun
    rw [hread, of_decide_eq_true hr]
  have hinput : input = .copied overdrawn ∨ input = .inPlace overdrawn := .inr rfl
  obtain ⟨-, -, -, haccounts⟩ := Wire.decode_accounted .specimens hinput
  obtain ⟨d, entries, hdecode, haccounted, -, hsize, -, hassembled, hwellMade⟩ :=
    (haccounts _ _ hheader).1 hhonest
  exact ⟨hhonest, d, entries, hdecode, haccounted, hsize, hassembled, hwellMade⟩

end OrderedTable
