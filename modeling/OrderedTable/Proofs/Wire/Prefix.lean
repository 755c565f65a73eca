import OrderedTable.Proofs.Datum.Keeping
import OrderedTable.Proofs.Wire.Normal

/-!
# Inputs that agree on their first bytes

Two inputs may go on differently behind their first `n` bytes, and stand in different buffers
(`Input.Agrees`). A decoder that takes `n` bytes or fewer from the one should not tell them apart, and one that
needs more than the `n` bytes that the other has should fail on it. `Wire.Delimited` says so of a value, and
this is shown here for headers and for leaves of built-in kinds (`Kind.decodeLeaf_delimited`).
-/

namespace OrderedTable

open Wire

/-! ## Agreeing inputs -/

/-- The same bytes stand at the same place among the first ones. -/
theorem window_eq_of_take_eq {bs bs' : Bytes} {n : Nat} (h : bs'.take n = bs.take n) {start length : Nat}
    (hle : start + length ≤ n) : (bs'.drop start).take length = (bs.drop start).take length := by
  have hwindow : ∀ bs : Bytes, ((bs.take n).drop start).take length = (bs.drop start).take length := by
    intro bs
    rw [List.drop_take, List.take_take, Nat.min_eq_left (by omega)]
  rw [← hwindow, h, hwindow]

/-- Inputs with the same first `n` bytes, read in the same mode and at the same depth. What is kept of these
bytes is kept as `f` says. -/
structure Input.Agrees (f : Storage → Storage) (n : Nat) (input input' : Input) : Prop where
  left : n ≤ input.bytes.length
  right : n ≤ input'.bytes.length
  bytes : input'.bytes.take n = input.bytes.take n
  depth : input'.depth = input.depth
  isInPlace : input'.isInPlace = input.isInPlace
  storage : ∀ start length, start + length ≤ n →
    input'.storage start length = f (input.storage start length)

namespace Input

/-- What is kept of a part of an input is kept of the input. -/
theorem storage_advance {input : Input} {n : Nat} (h : n ≤ input.bytes.length) (start length : Nat) :
    (input.advance n).storage start length = input.storage (n + start) length := by
  obtain ⟨bytes, origin, depth⟩ := input
  cases origin with
  | none => simp only [storage, advance, Option.map_none, List.drop_drop]
  | some window => simp only [storage, advance, Option.map_some, Nat.min_eq_left h, Nat.add_assoc]

namespace Agrees

variable {f : Storage → Storage} {n : Nat} {input input' : Input}

theorem refl (h : n ≤ input.bytes.length) : Agrees id n input input :=
  ⟨h, h, rfl, rfl, rfl, fun _ _ _ => rfl⟩

theorem mono (h : Agrees f n input input') {m : Nat} (hm : m ≤ n) : Agrees f m input input' where
  left := Nat.le_trans hm h.left
  right := Nat.le_trans hm h.right
  bytes := by
    have htake := congrArg (List.take m) h.bytes
    rwa [List.take_take, List.take_take, Nat.min_eq_left hm] at htake
  depth := h.depth
  isInPlace := h.isInPlace
  storage start length hle := h.storage start length (Nat.le_trans hle hm)

theorem window (h : Agrees f n input input') {start length : Nat} (hle : start + length ≤ n) :
    (input'.bytes.drop start).take length = (input.bytes.drop start).take length :=
  window_eq_of_take_eq h.bytes hle

theorem nested (h : Agrees f n input input') : Agrees f n input.nested input'.nested where
  left := h.left
  right := h.right
  bytes := h.bytes
  depth := congrArg (fun depth => min (depth + 1) maxDepth) h.depth
  isInPlace := h.isInPlace
  storage := h.storage

theorem advance {m : Nat} (h : Agrees f (m + n) input input') :
    Agrees f n (input.advance m) (input'.advance m) where
  left := by
    have := h.left
    simp only [Input.advance, List.length_drop]
    omega
  right := by
    have := h.right
    simp only [Input.advance, List.length_drop]
    omega
  bytes := h.window (Nat.le_refl _)
  depth := h.depth
  isInPlace := by rw [isInPlace_advance, isInPlace_advance, h.isInPlace]
  storage start length hle := by
    have hleft := h.left
    have hright := h.right
    rw [storage_advance (by omega), storage_advance (by omega), h.storage _ _ (by omega)]

theorem decodedKind_eq (h : Agrees f n input input') (C : Catalogue) (k : Kind) :
    C.decodedKind input' k = C.decodedKind input k := by
  rw [Catalogue.decodedKind, Catalogue.decodedKind, h.isInPlace]

end Agrees

end Input

/-! ## Numbers and headers -/

namespace Wire

variable {C : Catalogue} {f : Storage → Storage} {n : Nat} {input input' : Input}

/-- A number is read where its bytes are. -/
theorem numberAt_of_le {width place : Nat} {bs : Bytes} (h : place + width ≤ bs.length) :
    numberAt width place bs = .ok (Bytes.toNat ((bs.drop place).take width)) := by
  have hlength : ((bs.drop place).take width).length = width := by
    rw [List.length_take, List.length_drop]
    omega
  rw [numberAt, if_pos hlength]

/-- A number is not read where its last byte is missing. -/
theorem numberAt_short {width place : Nat} {bs : Bytes} (hwidth : 0 < width)
    (h : bs.length < place + width) :
    numberAt width place bs = .error (.truncated width (bs.length - place)) := by
  have hlength : ((bs.drop place).take width).length ≠ width := by
    rw [List.length_take, List.length_drop]
    omega
  rw [numberAt, if_neg hlength]

/-- A number among the first bytes is read alike. -/
theorem numberAt_agrees (h : Input.Agrees f n input input') {width place : Nat} (hle : place + width ≤ n) :
    numberAt width place input'.bytes = numberAt width place input.bytes := by
  rw [numberAt_of_le (Nat.le_trans hle h.right), numberAt_of_le (Nat.le_trans hle h.left), h.window hle]

/-- A header among the first bytes is read alike. -/
theorem readHeader_agrees (h : Input.Agrees f n input input') (hn : headerLength ≤ n) :
    readHeader C input'.bytes = readHeader C input.bytes := by
  have hlength := Nat.le_trans hn h.left
  have hlength' := Nat.le_trans hn h.right
  have hnumber : ∀ {width place : Nat}, place + width ≤ 16 →
      numberAt width place input'.bytes = numberAt width place input.bytes :=
    fun hle => numberAt_agrees h (Nat.le_trans hle hn)
  rw [readHeader_eq, readHeader_eq, if_neg (Nat.not_lt.2 hlength), if_neg (Nat.not_lt.2 hlength'),
    hnumber (by decide), hnumber (by decide), hnumber (by decide), hnumber (by decide)]

/-- The length of what is measured ahead, and that it is there. -/
theorem measuredAhead_ok_iff {bs : Bytes} {start length : Nat} :
    measuredAhead bs = .ok (start, length) ↔
      numberAt 8 0 bs = .ok length ∧ start = 8 ∧ start + length ≤ bs.length := by
  constructor
  · intro h
    obtain ⟨n, hn, hrest⟩ := ok_of_bind h
    have hstart := start_of_measuredAhead h
    have hle := le_of_measuredAhead h
    split at hrest
    · cases hrest
      exact ⟨hn, hstart, hle⟩
    · cases hrest
  · rintro ⟨hnumber, rfl, hle⟩
    rw [measuredAhead, hnumber, ok_bind, if_pos (by omega)]
    rfl

/-- What is measured ahead among the first bytes is found alike. -/
theorem measuredAhead_agrees (h : Input.Agrees f n input input') {start length : Nat}
    (hahead : measuredAhead input.bytes = .ok (start, length)) (hle : start + length ≤ n) :
    measuredAhead input'.bytes = .ok (start, length) := by
  obtain ⟨hnumber, rfl, -⟩ := measuredAhead_ok_iff.1 hahead
  refine measuredAhead_ok_iff.2 ⟨?_, rfl, Nat.le_trans hle h.right⟩
  rw [numberAt_agrees h (by omega), hnumber]

/-- What is measured is not found where the last byte of it is missing. -/
theorem measuredAhead_short (h : Input.Agrees f n input input') {start length : Nat}
    (hahead : measuredAhead input.bytes = .ok (start, length)) (hn : n < start + length)
    (hlength : input'.bytes.length = n) : ∃ fault, measuredAhead input'.bytes = .error fault := by
  cases hahead' : measuredAhead input'.bytes with
  | error fault => exact ⟨fault, rfl⟩
  | ok found =>
    obtain ⟨start', length'⟩ := found
    obtain ⟨hnumber, rfl, -⟩ := measuredAhead_ok_iff.1 hahead
    obtain ⟨hnumber', rfl, hle⟩ := measuredAhead_ok_iff.1 hahead'
    rw [numberAt_agrees h (by omega), hnumber] at hnumber'
    cases hnumber'
    omega

/-! ## Values -/

/-- A value that a decoder gives, from `n` bytes. It gives the same value from every input that agrees on
these, and none from an input that ends before them. -/
structure Delimited (decode : Decoder) (k : Kind) (input : Input) (d : Datum) (n : Nat) : Prop where
  read : decode k input = .ok (d, n)
  keeps : ∀ f input', (∀ s : Storage, (f s).bytes = s.bytes) → Input.Agrees f n input input' →
    decode k input' = .ok (d.keptBy f, n)
  needs : ∀ f m input', (∀ s : Storage, (f s).bytes = s.bytes) → Input.Agrees f m input input' → m < n →
    input'.bytes.length = m → ∃ fault, decode k input' = .error fault

theorem error_bind {ε α β : Type} {x : Except ε α} (h : ∃ fault, x = .error fault) (g : α → Except ε β) :
    ∃ fault, x >>= g = .error fault := by
  obtain ⟨fault, rfl⟩ := h
  exact ⟨fault, rfl⟩

/-- What is read as the bytes behind their length is delimited, as far as it does not matter where these are
kept. -/
theorem Delimited.of_measured {decode : Decoder} {k : Kind} (make : Storage → Except WireFault Datum)
    (hdecode : ∀ input, decode k input = measuredAhead input.bytes >>= fun place =>
      make (input.storage place.1 place.2) >>= fun d => .ok (d, place.1 + place.2))
    (hmake : ∀ f : Storage → Storage, (∀ s, (f s).bytes = s.bytes) → ∀ s d, make s = .ok d →
      make (f s) = .ok (d.keptBy f))
    {input : Input} {d : Datum} {n : Nat} (h : decode k input = .ok (d, n)) : Delimited decode k input d n := by
  obtain ⟨⟨start, length⟩, hahead, hrest⟩ := ok_of_bind ((hdecode input).symm.trans h)
  obtain ⟨d, hmade, hrest⟩ := ok_of_bind hrest
  cases hrest
  refine ⟨h, fun f input' hf hagrees => ?_, fun f m input' _ hagrees hm hlength => ?_⟩
  · rw [hdecode, measuredAhead_agrees hagrees hahead (Nat.le_refl _), ok_bind]
    dsimp only
    rw [hagrees.storage _ _ (Nat.le_refl _), hmake f hf _ _ hmade, ok_bind]
  · rw [hdecode]
    exact error_bind (measuredAhead_short hagrees hahead hm hlength) _

end Wire

/-- Leaves of built-in kinds are delimited. -/
theorem Kind.decodeLeaf_delimited {C : Catalogue} {k : Kind} (hk : Builtin k.base) {input : Input} {d : Datum}
    {n : Nat} (h : k.decodeLeaf C input = .ok (d, n)) : Delimited (Kind.decodeLeaf C) k input d n := by
  cases hb : k.base with
  | scalar s =>
    have hdecode : ∀ input, k.decodeLeaf C input =
        if input.bytes.length < s.bytes then .error (.truncated s.bytes input.bytes.length)
        else .ok (.scalar (.decode s (input.bytes.take s.bytes)), s.bytes) := by
      intro input
      simp only [decodeLeaf, hb]
    have hread := h
    rw [hdecode] at hread
    split at hread
    · cases hread
    · cases hread
      refine ⟨h, fun f input' hf hagrees => ?_, fun f m input' _ hagrees hm hlength => ?_⟩
      · rw [hdecode, if_neg (Nat.not_lt.2 hagrees.right), hagrees.bytes]
        rfl
      · rw [hdecode, if_pos (hlength ▸ hm)]
        exact ⟨_, rfl⟩
  | text caseBlind =>
    refine .of_measured (fun s => if (Utf8.decode? s.bytes).isSome then .ok (.text s) else .error .notUtf8)
      (fun input => ?_) (fun f hf s d hmade => ?_) h
    · simp only [decodeLeaf, hb]
      congr 1
      funext place
      split <;> rfl
    · rw [hf]
      split at hmade
      · next hvalid =>
        cases hmade
        rw [if_pos hvalid]
        rfl
      · cases hmade
  | bytes =>
    refine .of_measured (fun s => .ok (.bytes s)) (fun input => ?_) (fun f hf s d hmade => ?_) h
    · simp only [decodeLeaf, hb]
      rfl
    · cases hmade
      rfl
  | list => simp only [decodeLeaf, hb] at h; cases h
  | table => simp only [decodeLeaf, hb] at h; cases h
  | extension id => exact absurd (hb ▸ hk) (not_builtin_extension id)

end OrderedTable
