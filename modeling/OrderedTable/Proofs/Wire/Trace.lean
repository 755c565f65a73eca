import OrderedTable.Proofs.Wire.Decoder

/-!
# What a decoder looks at

The decoder again, and this time it keeps a record of what it does on the way (`Traced`): every stretch of
bytes that it takes out of its input or of the buffer behind it, and every kind that it comes upon. Step by
step it is the decoder of `OrderedTable.Wire.Decode`. It has the same outcome, and all bytes it looks at are
there (`Traced.Follows`), whatever the input is.
-/

namespace OrderedTable.Wire

/-- What is recorded of a decoder. -/
inductive Event where
  /-- The bytes from `start` to `stop` are taken out of `size` bytes. -/
  | look (size start stop : Nat)
  /-- The index of a kind is read. -/
  | met (k : Kind)

/-- Bytes are taken only from where there are some. -/
def Event.InRange : Event → Prop
  | look size start stop => start ≤ stop ∧ stop ≤ size
  | met _ => True

/-- A computation of a decoder, with what it did on the way. -/
structure Traced (α : Type) where
  events : List Event
  outcome : Except WireFault α

namespace Traced

variable {α β : Type}

/-- One computation after another, as far as there is no fault. -/
protected def bind (x : Traced α) (f : α → Traced β) : Traced β :=
  match x.outcome with
  | .ok a => ⟨x.events ++ (f a).events, (f a).outcome⟩
  | .error fault => ⟨x.events, .error fault⟩

instance : Monad Traced where
  pure a := ⟨[], .ok a⟩
  bind := Traced.bind

/-- Stops with a fault. -/
def fail (fault : WireFault) : Traced α := ⟨[], .error fault⟩

/-- A computation of which nothing is recorded. -/
def untold (x : Except WireFault α) : Traced α := ⟨[], x⟩

/-- Only records something. -/
def note (e : Event) : Traced Unit := ⟨[e], .ok ()⟩

/-- Goes on also after a fault. -/
def attempt (x : Traced α) : Traced (Except WireFault α) := ⟨x.events, .ok x.outcome⟩

/-! ## The decoder

Each function goes through the steps of the one that has its name without a record, and notes what it takes
out of which bytes. -/

def numberAt (width place : Nat) (bs : Bytes) : Traced Nat :=
  if ((bs.drop place).take width).length = width then do
    note (.look bs.length place (place + width))
    return Bytes.toNat ((bs.drop place).take width)
  else fail (.truncated width (bs.length - place))

def measuredAhead (bs : Bytes) : Traced (Nat × Nat) := do
  let length ← numberAt 8 0 bs
  if length ≤ bs.length - 8 then return (8, length)
  else fail (.truncated length (bs.length - 8))

def advance (input : Input) (n : Nat) : Traced Input := do
  note (.look input.bytes.length (min n input.bytes.length) input.bytes.length)
  return input.advance n

/-- A copy is taken out of the bytes ahead; in place, it is the buffer that the window is on. -/
def storage (input : Input) (start length : Nat) : Traced Storage := do
  note <|
    match input.origin with
    | some (buffer, offset) => .look buffer.length (offset + start) (offset + start + length)
    | none => .look input.bytes.length start (start + length)
  return input.storage start length

variable (C : Catalogue)

def kindNumbered (index : Nat) : Traced Kind := do
  let k ← untold (C.kindNumbered index)
  note (.met k)
  return k

def readHeader (bs : Bytes) : Traced (Kind × Nat) :=
  if bs.length < headerLength then fail (.truncated headerLength bs.length)
  else do
    let found ← numberAt 2 0 bs
    if found ≠ marker then fail (.badMarker found)
    else do
      let found ← numberAt 4 2 bs
      if found ≠ version then fail (.unsupportedVersion found)
      else do
        let keyKind ← kindNumbered C (← numberAt 2 6 bs)
        let declared ← numberAt 8 8 bs
        return (keyKind, declared)

section
variable (decode : Kind → Input → Traced (Datum × Nat)) (admits : Kind → Entry Datum → Bool) (input : Input)

def readEntry (keyKind : Kind) (place : Nat) : Traced (Entry Datum × Nat) := do
  let kind ← kindNumbered C (← numberAt 2 place input.bytes)
  let (value, valueLength) ← decode kind (← advance input (place + 2))
  let (key, keyLength) ← decode keyKind (← advance input (place + 2 + valueLength))
  return (⟨key, value, C.decodedKind input kind⟩, 2 + valueLength + keyLength)

def readEntries (keyKind : Kind) :
    (count place : Nat) → Traced (List (Entry Datum) × Nat × Option WireFault)
  | 0, place => return ([], place, none)
  | count + 1, place =>
    if place < input.bytes.length then do
      match ← (readEntry C decode input keyKind place).attempt with
      | .error fault => return ([], place, some fault)
      | .ok (entry, length) =>
        if admits keyKind entry then do
          let (entries, after, fault) ← readEntries keyKind count (place + length)
          return (entry :: entries, after, fault)
        else return ([], place, some (.mismatch (C.name keyKind)))
    else return ([], place, none)

def readBlock : Traced Block := do
  let (keyKind, declared) ← readHeader C input.bytes
  let (entries, after, fault) ← readEntries C decode admits input keyKind declared headerLength
  let short : Option WireFault :=
    if entries.length < declared then some (.incomplete declared entries.length) else none
  return {
    keyKind := C.decodedKind input keyKind
    wanted := min declared ((input.bytes.length - headerLength) / leastEntry)
    entries, consumed := after, fault := fault.or short }

end

/-- Nothing is recorded of what an extension does with its input. -/
def decodeLeaf (k : Kind) (input : Input) : Traced (Datum × Nat) :=
  match k.base with
  | .scalar s =>
    if input.bytes.length < s.bytes then fail (.truncated s.bytes input.bytes.length)
    else do
      note (.look input.bytes.length 0 s.bytes)
      return (.scalar (.decode s (input.bytes.take s.bytes)), s.bytes)
  | .text _ => do
    let (start, length) ← measuredAhead input.bytes
    let storage ← storage input start length
    if (Utf8.decode? storage.bytes).isSome then return (.text storage, start + length)
    else fail .notUtf8
  | .bytes => do
    let (start, length) ← measuredAhead input.bytes
    let storage ← storage input start length
    return (.bytes storage, start + length)
  | .list | .table => fail (.mismatch (C.name k))
  | .extension id => untold ((C.extension id).decode input)

def decodeWithin (levels : Nat) (k : Kind) (input : Input) : Traced (Datum × Nat) :=
  match k.base, levels with
  | .list, 0 | .table, 0 => fail (.tooDeep maxNesting)
  | .list, levels + 1 => do
    let block ← readBlock C (decodeWithin levels) (fun _ _ => true) input.nested
    let list ← untold block.toListing.whole
    return (.list list, block.consumed)
  | .table, levels + 1 => do
    let block ← readBlock C (decodeWithin levels) (tableAdmits C) input.nested
    let table ← untold (block.toTable C).whole
    return (.table table, block.consumed)
  | _, _ => decodeLeaf C k input

def decode (k : Kind) (input : Input) : Traced (Datum × Nat) :=
  decodeWithin C (maxNesting - input.depth) k input

def listing (input : Input) : Traced (Decoded (Listing Datum)) := do
  let block ← readBlock C (decode C) (fun _ _ => true) input
  return block.toListing

def table (input : Input) : Traced (Decoded (Table Datum)) := do
  let block ← readBlock C (decode C) (tableAdmits C) input
  return block.toTable C

variable {C}

/-! ## The same outcome, and nothing out of range -/

/-- The outcome is the one given, and bytes were looked at only where there are some. -/
structure Follows (x : Traced α) (y : Except WireFault α) : Prop where
  outcome : x.outcome = y
  inRange : ∀ e ∈ x.events, e.InRange

namespace Follows

theorem pure (a : α) : Follows (pure a) (.ok a) := ⟨rfl, by rintro e ⟨⟩⟩

theorem fail (fault : WireFault) : Follows (fail fault : Traced α) (.error fault) := ⟨rfl, by rintro e ⟨⟩⟩

theorem untold (y : Except WireFault α) : Follows (untold y) y := ⟨rfl, by rintro e ⟨⟩⟩

/-- Steps one behind another follow steps one behind another. -/
theorem bind {x : Traced α} {y : Except WireFault α} {f : α → Traced β} {g : α → Except WireFault β}
    (hx : x.Follows y) (hf : ∀ a, y = .ok a → (f a).Follows (g a)) : (x >>= f).Follows (y >>= g) := by
  obtain ⟨rfl, hrange⟩ := hx
  cases houtcome : x.outcome with
  | error fault =>
    have hbind : x >>= f = ⟨x.events, .error fault⟩ := by simp only [Bind.bind, Traced.bind, houtcome]
    rw [hbind]
    exact ⟨rfl, hrange⟩
  | ok a =>
    have hbind : x >>= f = ⟨x.events ++ (f a).events, (f a).outcome⟩ := by
      simp only [Bind.bind, Traced.bind, houtcome]
    obtain ⟨hnext, hrange'⟩ := hf a houtcome
    rw [hbind]
    exact ⟨hnext, fun e he => (List.mem_append.1 he).elim (hrange e) (hrange' e)⟩

/-- A step that has no part in the outcome. -/
theorem step {x : Traced α} {a : α} {f : α → Traced β} {y : Except WireFault β} (hx : x.Follows (.ok a))
    (hf : (f a).Follows y) : (x >>= f).Follows y :=
  hx.bind (g := fun _ => y) fun _ h => Except.ok.inj h ▸ hf

theorem map {x : Traced α} {y : Except WireFault α} (hx : x.Follows y) (f : α → β) :
    (x >>= fun a => Pure.pure (f a)).Follows (y.map f) := by
  have hbind := hx.bind fun a _ => Follows.pure (f a)
  cases y <;> exact hbind

theorem note {e : Event} (he : e.InRange) : Follows (note e) (.ok ()) :=
  ⟨rfl, fun _ h => List.mem_singleton.1 h ▸ he⟩

theorem attempt {x : Traced α} {y : Except WireFault α} (hx : x.Follows y) : x.attempt.Follows (.ok y) :=
  ⟨congrArg Except.ok hx.outcome, hx.inRange⟩

end Follows

/-- A number is taken from where it is. -/
theorem numberAt_follows {width : Nat} (hwidth : 0 < width) (place : Nat) (bs : Bytes) :
    (numberAt width place bs).Follows (Wire.numberAt width place bs) := by
  rw [numberAt, Wire.numberAt]
  split
  · next hlength =>
    rw [List.length_take, List.length_drop] at hlength
    exact .step (.note ⟨by omega, by omega⟩) (.pure _)
  · exact .fail _

/-- What is measured is found where its length says. -/
theorem measuredAhead_follows (bs : Bytes) : (measuredAhead bs).Follows (Wire.measuredAhead bs) := by
  refine (numberAt_follows (by decide) 0 bs).bind fun length _ => ?_
  split
  · exact .pure _
  · exact .fail _

theorem advance_follows (input : Input) (n : Nat) : (advance input n).Follows (.ok (input.advance n)) :=
  .step (.note ⟨Nat.min_le_right _ _, Nat.le_refl _⟩) (.pure _)

/-- What lies ahead in the input lies in the buffer behind it. -/
theorem storage_follows {input : Input} (h : input.Sound) {start length : Nat}
    (hle : start + length ≤ input.bytes.length) (hstart : 0 < start) :
    (storage input start length).Follows (.ok (input.storage start length)) := by
  refine .step (.note ?_) (.pure _)
  split
  · next buffer offset horigin =>
    have hlength : input.bytes.length = buffer.length - offset := by
      rw [← h buffer offset horigin, List.length_drop]
    exact ⟨by omega, by omega⟩
  · exact ⟨by omega, hle⟩

/-- A kind that is found is recorded. -/
theorem met_follows (y : Except WireFault Kind) :
    (untold y >>= fun k => note (.met k) >>= fun _ => pure k).Follows y := by
  cases y with
  | error fault => exact ⟨rfl, by rintro e ⟨⟩⟩
  | ok k => exact .step (.untold _) (.step (.note trivial) (.pure _))

/-- The kind of an index is recorded if there is one. -/
theorem kindNumbered_follows (index : Nat) : (kindNumbered C index).Follows (C.kindNumbered index) :=
  met_follows (C.kindNumbered index)

/-- Reading a header follows its checks in their order. -/
theorem readHeader_follows (bs : Bytes) : (readHeader C bs).Follows (Wire.readHeader C bs) := by
  rw [Wire.readHeader_eq, readHeader]
  split
  · exact .fail _
  · refine (numberAt_follows (by decide) 0 bs).bind fun found _ => ?_
    split
    · exact .fail _
    · refine (numberAt_follows (by decide) 2 bs).bind fun found _ => ?_
      split
      · exact .fail _
      · refine (numberAt_follows (by decide) 6 bs).bind fun index _ => ?_
        refine (kindNumbered_follows index).bind fun keyKind _ => ?_
        exact (numberAt_follows (by decide) 8 bs).bind fun declared _ => .pure _

/-- A decoder with a record that follows a decoder without. -/
def DecoderFollows (T : Kind → Input → Traced (Datum × Nat)) (decode : Decoder) : Prop :=
  ∀ k input, input.Sound → (T k input).Follows (decode k input)

section
variable {T : Kind → Input → Traced (Datum × Nat)} {decode : Decoder} {admits : Kind → Entry Datum → Bool}
variable {input : Input}

/-- Reading an entry follows its steps. -/
theorem readEntry_follows (hT : DecoderFollows T decode) (h : input.Sound) (keyKind : Kind) (place : Nat) :
    (readEntry C T input keyKind place).Follows (Wire.readEntry C decode input keyKind place) := by
  refine (numberAt_follows (by decide) place input.bytes).bind fun index _ => ?_
  refine (kindNumbered_follows index).bind fun kind _ => .step (advance_follows input _) ?_
  refine (hT kind _ (h.advance _)).bind fun ⟨value, valueLength⟩ _ => .step (advance_follows input _) ?_
  exact (hT keyKind _ (h.advance _)).bind fun ⟨key, keyLength⟩ _ => .pure _

/-- Reading entries one behind another never fails: a fault is part of the result. -/
theorem readEntries_follows (hT : DecoderFollows T decode) (h : input.Sound) (keyKind : Kind)
    (count place : Nat) :
    (readEntries C T admits input keyKind count place).Follows
      (.ok (Wire.readEntries C decode admits input keyKind count place)) := by
  -- induction on the entries still declared, from any place on
  induction count generalizing place with
  | zero => exact .pure _
  | succ count ih =>
    rw [readEntries, Wire.readEntries]
    split
    · refine .step (readEntry_follows hT h keyKind place).attempt ?_
      cases hentry : Wire.readEntry C decode input keyKind place with
      | error fault => exact .pure _
      | ok r =>
        obtain ⟨entry, length⟩ := r
        dsimp only
        split
        · exact .step (ih (place + length)) (.pure _)
        · exact .pure _
    · exact .pure _

/-- Reading a block follows its header and its entries. -/
theorem readBlock_follows (hT : DecoderFollows T decode) (h : input.Sound) :
    (readBlock C T admits input).Follows (Wire.readBlock C decode admits input) := by
  refine (readHeader_follows input.bytes).bind fun ⟨keyKind, declared⟩ _ => ?_
  exact .step (readEntries_follows hT h keyKind declared headerLength) (.pure _)

end

/-- What is measured ahead lies behind its length, in the buffer too. -/
theorem measured_follows {input : Input} (h : input.Sound) {f : Nat × Nat → Storage → Traced β}
    {g : Nat × Nat → Except WireFault β}
    (hf : ∀ place, (f place (input.storage place.1 place.2)).Follows (g place)) :
    (measuredAhead input.bytes >>= fun place => storage input place.1 place.2 >>= f place).Follows
      (Wire.measuredAhead input.bytes >>= g) := by
  refine (measuredAhead_follows input.bytes).bind fun ⟨start, length⟩ hahead => ?_
  have hle := le_of_measuredAhead hahead
  have hstart := start_of_measuredAhead hahead
  exact .step (storage_follows h hle (by omega)) (hf _)

/-- Reading a leaf takes what is measured, or as many bytes as a scalar has. -/
theorem decodeLeaf_follows {input : Input} (h : input.Sound) (k : Kind) :
    (decodeLeaf C k input).Follows (k.decodeLeaf C input) := by
  obtain ⟨base, borrowing⟩ := k
  unfold decodeLeaf Kind.decodeLeaf
  cases base with
  | scalar s =>
    dsimp only
    split
    · exact .fail _
    · exact .step (.note ⟨Nat.zero_le _, by omega⟩) (.pure _)
  | text caseBlind =>
    refine measured_follows h fun place => ?_
    dsimp only
    split
    · exact .pure _
    · exact .fail _
  | bytes => exact measured_follows h fun place => .pure _
  | list => exact .fail _
  | table => exact .fail _
  | extension id => exact .untold _

theorem decodeWithin_zero {k : Kind} (hk : k.base = .list ∨ k.base = .table) (input : Input) :
    decodeWithin C 0 k input = fail (.tooDeep maxNesting) := by
  rcases hk with hk | hk <;> simp only [decodeWithin, hk]

theorem decodeWithin_list {k : Kind} (hk : k.base = .list) (levels : Nat) (input : Input) :
    decodeWithin C (levels + 1) k input =
      (do
        let block ← readBlock C (decodeWithin C levels) (fun _ _ => true) input.nested
        let list ← untold block.toListing.whole
        return (.list list, block.consumed)) := by
  simp only [decodeWithin, hk]

theorem decodeWithin_table {k : Kind} (hk : k.base = .table) (levels : Nat) (input : Input) :
    decodeWithin C (levels + 1) k input =
      (do
        let block ← readBlock C (decodeWithin C levels) (tableAdmits C) input.nested
        let table ← untold (block.toTable C).whole
        return (.table table, block.consumed)) := by
  simp only [decodeWithin, hk]

theorem decodeWithin_leaf {k : Kind} (hlist : k.base ≠ .list) (htable : k.base ≠ .table) (levels : Nat)
    (input : Input) : decodeWithin C levels k input = decodeLeaf C k input := by
  rw [decodeWithin]
  · exact fun h => absurd h hlist
  · exact fun h => absurd h htable
  · exact fun _ h => absurd h hlist
  · exact fun _ h => absurd h htable

/-- However deep values may lie, the decoder with a record follows the one without. -/
theorem decodeWithin_follows (levels : Nat) :
    DecoderFollows (decodeWithin C levels) (Kind.decodeWithin C levels) := by
  -- each level follows if the level below does
  induction levels with
  | zero =>
    intro k input h
    by_cases hnested : k.base = .list ∨ k.base = .table
    · rw [decodeWithin_zero hnested, Kind.decodeWithin_zero hnested]
      exact .fail _
    · obtain ⟨hlist, htable⟩ := not_or.1 hnested
      rw [decodeWithin_leaf hlist htable, Kind.decodeWithin_leaf hlist htable]
      exact decodeLeaf_follows h k
  | succ levels ih =>
    intro k input h
    by_cases hlist : k.base = .list
    · rw [decodeWithin_list hlist, Kind.decodeWithin_list hlist]
      refine (readBlock_follows ih h.nested).bind fun block _ => ?_
      exact (Follows.untold block.toListing.whole).bind fun l _ => .pure _
    · by_cases htable : k.base = .table
      · rw [decodeWithin_table htable, Kind.decodeWithin_table htable]
        refine (readBlock_follows ih h.nested).bind fun block _ => ?_
        exact (Follows.untold (block.toTable C).whole).bind fun t _ => .pure _
      · rw [decodeWithin_leaf hlist htable, Kind.decodeWithin_leaf hlist htable]
        exact decodeLeaf_follows h k

theorem decode_follows : DecoderFollows (decode C) (Kind.decode C) := fun k input h =>
  decodeWithin_follows (maxNesting - input.depth) k input h

theorem listing_follows {input : Input} (h : input.Sound) :
    (listing C input).Follows (Listing.decode C input) :=
  (readBlock_follows decode_follows h).map fun block => block.toListing

theorem table_follows {input : Input} (h : input.Sound) : (table C input).Follows (Table.decode C input) :=
  (readBlock_follows decode_follows h).map fun block => block.toTable C

end Traced

end OrderedTable.Wire
