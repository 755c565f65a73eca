import OrderedTable.Proofs.Wire.Trace

/-!
# Blocks that are read

What a decoder gives depends on the kinds that it meets, as extensions may do anything. `Traced.Ensures` is
what holds of a result as long as all kinds met are good, and `Traced.DecoderEnsures` lifts that to decoders.

A block that is read has entries one behind another (`Runs`), each of which was read and admitted where it
stands (`EntryAt`). There are not more than declared, and there is no fault exactly if there are as many
(`BlockRead`).
-/

namespace OrderedTable

namespace Wire

/-! ## Results, as long as the kinds met are good -/

namespace Traced

variable {α β : Type}

/-- What holds of the result, as long as all kinds met are good. -/
def Ensures (good : Kind → Prop) (x : Traced α) (Q : α → Prop) : Prop :=
  (∀ k, .met k ∈ x.events → good k) → ∀ a, x.outcome = .ok a → Q a

namespace Ensures

variable {good : Kind → Prop} {P : α → Prop} {Q : β → Prop}

theorem of_outcome {x : Traced α} (h : ∀ a, x.outcome = .ok a → P a) : x.Ensures good P := fun _ => h

theorem pure {a : α} (h : P a) : (pure a : Traced α).Ensures good P :=
  of_outcome fun _ h' => Except.ok.inj h' ▸ h

/-- Steps one behind another: as long as the kinds met in both are good, the second may rely on the first. -/
theorem bind {x : Traced α} {f : α → Traced β} (hx : x.Ensures good P)
    (hf : ∀ a, x.outcome = .ok a → P a → (f a).Ensures good Q) : (x >>= f).Ensures good Q := by
  intro hmet b hb
  cases houtcome : x.outcome with
  | error fault =>
    have hbind : x >>= f = ⟨x.events, .error fault⟩ := by simp only [Bind.bind, Traced.bind, houtcome]
    rw [hbind] at hb
    cases hb
  | ok a =>
    have hbind : x >>= f = ⟨x.events ++ (f a).events, (f a).outcome⟩ := by
      simp only [Bind.bind, Traced.bind, houtcome]
    rw [hbind] at hmet hb
    -- the kinds met in the first step are among those met in both
    have hP := hx (fun k hk => hmet k (List.mem_append_left _ hk)) a houtcome
    exact hf a houtcome hP (fun k hk => hmet k (List.mem_append_right _ hk)) b hb

/-- Where nothing needs to be known of a step but its outcome. -/
theorem step {x : Traced α} {f : α → Traced β} (hf : ∀ a, x.outcome = .ok a → (f a).Ensures good Q) :
    (x >>= f).Ensures good Q :=
  (of_outcome fun _ _ => trivial).bind (P := fun _ => True) fun a ha _ => hf a ha

theorem fail (fault : WireFault) : (fail fault : Traced α).Ensures good P := of_outcome nofun

theorem attempt {x : Traced α} (hx : x.Ensures good P) :
    x.attempt.Ensures good fun y => ∀ a, y = .ok a → P a :=
  fun hmet _ hy a ha => hx hmet a ((Except.ok.inj hy).trans ha)

/-- The kind that is met is good if all are. -/
theorem kindNumbered (C : Catalogue) (index : Nat) : (Traced.kindNumbered C index).Ensures good good := by
  refine step fun k _ hmet k' hk' => ?_
  cases hk'
  exact hmet k List.mem_cons_self

end Ensures

end Traced

/-! ## Entries one behind another -/

/-- The entries from a place on up to another, where `R` says which entry is at a place and how long it is. -/
inductive Runs (R : Nat → Entry Datum → Nat → Prop) :
    (place : Nat) → (es : List (Entry Datum)) → (after : Nat) → Prop
  | nil (place : Nat) : Runs R place [] place
  | cons {place length after : Nat} {e : Entry Datum} {es : List (Entry Datum)} (head : R place e length)
      (rest : Runs R (place + length) es after) : Runs R place (e :: es) after

namespace Runs

variable {R R' : Nat → Entry Datum → Nat → Prop} {place after : Nat} {es : List (Entry Datum)}

theorem mono (h : Runs R place es after) (hR : ∀ place e length, R place e length → R' place e length) :
    Runs R' place es after := by
  induction h with
  | nil place => exact .nil place
  | cons head _ ih => exact .cons (hR _ _ _ head) ih

/-- Where entries take a least number of bytes and stay within a bound, so do all of them together. -/
theorem bounds {least bound : Nat} (h : Runs R place es after)
    (hR : ∀ place e length, R place e length → least ≤ length ∧ place + length ≤ bound)
    (hplace : place ≤ bound) : place + least * es.length ≤ after ∧ after ≤ bound := by
  induction h with
  | nil place => exact ⟨Nat.le_refl _, hplace⟩
  | @cons place length after e es head _ ih =>
    obtain ⟨hleast, hbound⟩ := hR _ _ _ head
    obtain ⟨hlow, hhigh⟩ := ih hbound
    rw [List.length_cons, Nat.mul_succ]
    exact ⟨by omega, hhigh⟩

/-- Where entries are as long as what `f` makes of them, so are all of them together. -/
theorem after_eq {f : Entry Datum → Bytes} (h : Runs R place es after)
    (hR : ∀ place e length, R place e length → length = (f e).length) :
    after = place + (es.flatMap f).length := by
  induction h with
  | nil place => rfl
  | cons head _ ih =>
    rw [ih, List.flatMap_cons, List.length_append, ← hR _ _ _ head, Nat.add_assoc]

/-- Each of the entries stands at some place. -/
theorem exists_of_mem (h : Runs R place es after) {e : Entry Datum} (he : e ∈ es) :
    ∃ place length, R place e length := by
  induction h with
  | nil => cases he
  | cons head _ ih =>
    rcases List.mem_cons.1 he with rfl | he
    · exact ⟨_, _, head⟩
    · exact ih he

end Runs

section
variable (C : Catalogue) (good : Kind → Prop) (Q : Kind → Input → Datum → Nat → Prop)

/-- The entry at a place with its length, where `Q` holds of its value and of its key. -/
inductive EntryRead (input : Input) (keyKind : Kind) (place : Nat) : Entry Datum → Nat → Prop
  | mk {kind : Kind} {key value : Datum} {valueLength keyLength : Nat}
      (ahead : place + 2 ≤ input.bytes.length) (hkind : good kind) (hregistered : C.Registered kind.base)
      (hvalue : Q kind (input.advance (place + 2)) value valueLength)
      (hkey : Q keyKind (input.advance (place + 2 + valueLength)) key keyLength) :
      EntryRead input keyKind place ⟨key, value, C.decodedKind input kind⟩ (2 + valueLength + keyLength)

variable (decode : Decoder) (admits : Kind → Entry Datum → Bool)

/-- An entry that was read and admitted at a place. -/
structure EntryAt (input : Input) (K : Kind) (place : Nat) (e : Entry Datum) (length : Nat) : Prop where
  read : readEntry C decode input K place = .ok (e, length)
  admitted : admits K e = true
  parts : EntryRead C good Q input K place e length

/-- A block that was read, under a header with the given kind of keys and count. -/
structure BlockRead (input : Input) (K : Kind) (declared : Nat) (block : Block) : Prop where
  header : readHeader C input.bytes = .ok (K, declared)
  keys : good K ∧ C.Registered K.base
  keyKind : block.keyKind = C.decodedKind input K
  wanted : block.wanted = min declared ((input.bytes.length - headerLength) / leastEntry)
  runs : Runs (EntryAt C good Q decode admits input K) headerLength block.entries block.consumed
  count : block.entries.length ≤ declared
  complete : block.fault = none ↔ block.entries.length = declared

end

section
variable {C : Catalogue} {good : Kind → Prop} {Q : Kind → Input → Datum → Nat → Prop}
variable {T : Kind → Input → Traced (Datum × Nat)} {decode : Decoder} {admits : Kind → Entry Datum → Bool}
variable {input : Input} {K : Kind}

/-- What counts as whole is what was decoded, without a fault. -/
theorem value_of_whole {α : Type} {d : Decoded α} {a : α} (h : d.whole = .ok a) :
    d.value = a ∧ d.fault = none := by
  unfold Decoded.whole at h
  split at h
  · next hfault => exact ⟨Except.ok.inj h, hfault⟩
  · cases h

/-- Where a header was read, there are as many bytes. -/
theorem headerLength_le_of_readHeader {bs : Bytes} {k : Kind} {declared : Nat}
    (h : readHeader C bs = .ok (k, declared)) : headerLength ≤ bs.length := by
  rw [readHeader_eq] at h
  split at h
  · cases h
  · omega

/-- The keys are given the kind of the header, or its twin. -/
theorem BlockRead.base_eq {declared : Nat} {block : Block}
    (h : BlockRead C good Q decode admits input K declared block) : block.keyKind.base = K.base := by
  rw [h.keyKind, C.base_decodedKind input h.keys.2]

namespace Traced

variable (C good) in
/-- Under good kinds with an index, `Q` holds of what the decoder gives. -/
def DecoderEnsures (T : Kind → Input → Traced (Datum × Nat)) (Q : Kind → Input → Datum → Nat → Prop) :
    Prop :=
  ∀ k input, good k → C.Registered k.base → input.Sound →
    (T k input).Ensures good fun r => Q k input r.1 r.2

/-- The kind of keys in a header was met. -/
theorem readHeader_ensures (bs : Bytes) : (readHeader C bs).Ensures good fun r => good r.1 := by
  unfold readHeader
  split
  · exact .fail _
  · refine .step fun found _ => ?_
    split
    · exact .fail _
    · refine .step fun found _ => ?_
      split
      · exact .fail _
      · refine .step fun index _ => (Ensures.kindNumbered C index).bind fun k _ hk => ?_
        exact .step fun declared _ => .pure hk

/-- An entry that is read is an index and what the decoder gives of the value and of the key. -/
theorem readEntry_ensures (hQ : DecoderEnsures C good T Q) (h : input.Sound) (hK : good K)
    (hregistered : C.Registered K.base) (place : Nat) :
    (readEntry C T input K place).Ensures good fun r => EntryRead C good Q input K place r.1 r.2 := by
  have advanced : ∀ {n : Nat} {ahead : Input}, (advance input n).outcome = .ok ahead →
      ahead = input.advance n := fun h => (Except.ok.inj h).symm
  refine .step fun index hindex => (Ensures.kindNumbered C index).bind fun kind hkind hgood => ?_
  have hnumber := (numberAt_follows (by decide) place input.bytes).outcome.symm.trans hindex
  have hkind := Catalogue.registered_of_kindNumbered ((kindNumbered_follows index).outcome.symm.trans hkind)
  refine .step fun ahead hahead => ?_
  obtain rfl := advanced hahead
  refine (hQ kind _ hgood hkind (h.advance _)).bind fun ⟨value, valueLength⟩ _ hvalue => ?_
  refine .step fun ahead hahead => ?_
  obtain rfl := advanced hahead
  refine (hQ K _ hK hregistered (h.advance _)).bind fun ⟨key, keyLength⟩ _ hkey => .pure ?_
  have hle := le_of_numberAt hnumber
  exact .mk (by omega) hgood hkind hvalue hkey

/-- The entries that are read stand one behind another, and a fault stops short of the count. -/
theorem readEntries_ensures (hT : DecoderFollows T decode) (hQ : DecoderEnsures C good T Q) (h : input.Sound)
    (hK : good K) (hregistered : C.Registered K.base) (count place : Nat) :
    (readEntries C T admits input K count place).Ensures good fun r =>
      Runs (EntryAt C good Q decode admits input K) place r.1 r.2.1 ∧
        r.1.length ≤ count ∧ (r.2.2 ≠ none → r.1.length < count) := by
  -- induction on the entries still declared, from any place on
  induction count generalizing place with
  | zero => exact .pure ⟨.nil place, Nat.le_refl _, fun h => absurd rfl h⟩
  | succ count ih =>
    have stopped : ∀ fault : Option WireFault, (pure ([], place, fault) : Traced _).Ensures good fun r =>
        Runs (EntryAt C good Q decode admits input K) place r.1 r.2.1 ∧ r.1.length ≤ count + 1 ∧
          (r.2.2 ≠ none → r.1.length < count + 1) :=
      fun _ => .pure ⟨.nil place, Nat.zero_le _, fun _ => Nat.succ_pos _⟩
    rw [readEntries]
    split
    · refine (readEntry_ensures hQ h hK hregistered place).attempt.bind fun y hy hread => ?_
      have hy := (readEntry_follows hT h K place).attempt.outcome.symm.trans hy
      cases y with
      | error fault => exact stopped (some fault)
      | ok r =>
        obtain ⟨e, length⟩ := r
        dsimp only
        split
        · next hadmits =>
          refine (ih (place + length)).bind fun rest _ hrest => .pure ?_
          obtain ⟨hruns, hcount, hfault⟩ := hrest
          refine ⟨.cons ⟨Except.ok.inj hy, hadmits, hread _ rfl⟩ hruns, Nat.succ_le_succ hcount, ?_⟩
          exact fun hne => Nat.succ_lt_succ (hfault hne)
        · exact stopped _
    · exact stopped none

/-- A block that is read has a header, and entries one behind another under it. -/
theorem readBlock_ensures (hT : DecoderFollows T decode) (hQ : DecoderEnsures C good T Q) (h : input.Sound) :
    (readBlock C T admits input).Ensures good fun block =>
      ∃ K declared, BlockRead C good Q decode admits input K declared block := by
  refine (readHeader_ensures input.bytes).bind fun ⟨K, declared⟩ hheader hK => ?_
  have hheader := (readHeader_follows input.bytes).outcome.symm.trans hheader
  have hregistered := registered_of_readHeader hheader
  refine (readEntries_ensures hT hQ h hK hregistered declared headerLength).bind
    fun result _ hresult => .pure ?_
  obtain ⟨es, after, fault⟩ := result
  obtain ⟨hruns, hcount, hfault⟩ := hresult
  refine ⟨K, declared, hheader, ⟨hK, hregistered⟩, rfl, rfl, hruns, hcount, ?_⟩
  -- without a fault of an entry, it is one if there are too few
  show Option.or fault (if es.length < declared then _ else none) = none ↔ es.length = declared
  cases fault with
  | some fault =>
    have hshort : es.length < declared := hfault nofun
    exact ⟨nofun, fun heq => absurd hshort (by omega)⟩
  | none =>
    have hcount : es.length ≤ declared := hcount
    split
    · exact ⟨nofun, fun heq => by omega⟩
    · exact ⟨fun _ => by omega, fun _ => rfl⟩

/-- What holds of leaves that are read, and of lists and tables with good parts, holds of all that is read,
however deep values may lie: induction on the levels of nesting. -/
theorem decodeWithin_ensures {Q : Nat → Kind → Input → Datum → Nat → Prop}
    (leaf : ∀ (levels : Nat) (k : Kind) (input : Input) (d : Datum) (n : Nat), good k → C.Registered k.base →
      k.base ≠ .list → k.base ≠ .table → input.Sound → k.decodeLeaf C input = .ok (d, n) →
      Q levels k input d n)
    (list : ∀ (levels : Nat) (k K : Kind) (input : Input) (declared : Nat) (block : Block), good k →
      C.Registered k.base → k.base = .list → BlockRead C good (Q levels) (Kind.decodeWithin C levels)
        (fun _ _ => true) input.nested K declared block → block.fault = none →
      Q (levels + 1) k input (.list block.toListing.value) block.consumed)
    (table : ∀ (levels : Nat) (k K : Kind) (input : Input) (declared : Nat) (block : Block), good k →
      C.Registered k.base → k.base = .table → BlockRead C good (Q levels) (Kind.decodeWithin C levels)
        (tableAdmits C) input.nested K declared block → block.fault = none →
      Q (levels + 1) k input (.table (block.toTable C).value) block.consumed) (levels : Nat) :
    DecoderEnsures C good (decodeWithin C levels) (Q levels) := by
  have leaf : ∀ (levels : Nat) (k : Kind) (input : Input), good k → C.Registered k.base → input.Sound →
      k.base ≠ .list → k.base ≠ .table →
      (decodeWithin C levels k input).Ensures good fun r => Q levels k input r.1 r.2 := by
    intro levels k input hk hindex hinput hlist htable
    rw [decodeWithin_leaf hlist htable]
    exact .of_outcome fun ⟨d, n⟩ hd =>
      leaf levels k input d n hk hindex hlist htable hinput
        ((decodeLeaf_follows hinput k).outcome.symm.trans hd)
  -- out of levels, only leaves are read
  induction levels with
  | zero =>
    intro k input hk hindex hinput
    by_cases hnested : k.base = .list ∨ k.base = .table
    · rw [decodeWithin_zero hnested]
      exact .fail _
    · obtain ⟨hlist, htable⟩ := not_or.1 hnested
      exact leaf 0 k input hk hindex hinput hlist htable
  | succ levels ih =>
    intro k input hk hindex hinput
    by_cases hlist : k.base = .list
    · rw [decodeWithin_list hlist]
      refine (readBlock_ensures (decodeWithin_follows levels) ih hinput.nested).bind
        fun block _ ⟨K, declared, hread⟩ => .step fun l hl => .pure ?_
      obtain ⟨rfl, hfault⟩ := value_of_whole hl
      exact list levels k K input declared block hk hindex hlist hread hfault
    · by_cases htable : k.base = .table
      · rw [decodeWithin_table htable]
        refine (readBlock_ensures (decodeWithin_follows levels) ih hinput.nested).bind
          fun block _ ⟨K, declared, hread⟩ => .step fun t ht => .pure ?_
        obtain ⟨rfl, hfault⟩ := value_of_whole ht
        exact table levels k K input declared block hk hindex htable hread hfault
      · exact leaf (levels + 1) k input hk hindex hinput hlist htable

end Traced

end

end Wire

end OrderedTable
