import Mathlib.Algebra.Ring.Parity
import Mathlib.Data.FinEnum
import Mathlib.Data.Nat.ModEq
import Mathlib.Data.Nat.Prime.Basic
import OrderedTable.Bytes.Mixing

/-!
# No step of the digest loses anything

Each step of the one-at-a-time digest is a bijection of the 64-bit state, for every byte that is taken in. Adding a word
to itself shifted to the left multiplies it by an odd number (`injective_addShiftLeft`); and of a word that was combined
with itself shifted to the right nothing is lost, since two words with one result differ by a word that a shift leaves
as it is (`injective_xorShiftRight`).

So states that differ stay different whatever bytes follow (`foldl_stir_inj`), and a digest tells any two byte strings
apart that differ in one byte only (`digest_single_byte`).
-/

namespace OrderedTable.Bytes

open Function

/-! ## Shifts -/

/-- Adding a number to itself shifted is multiplying it by an odd number. -/
theorem toNat_addShiftLeft (k x : UInt64) :
    (x + (x <<< k)).toNat = x.toNat * (2 ^ (k.toNat % 64) + 1) % 2 ^ 64 := by
  rw [UInt64.toNat_add, UInt64.toNat_shiftLeft, Nat.add_mod_mod, Nat.shiftLeft_eq, Nat.mul_add_one, Nat.add_comm]

/-- An odd factor can be cancelled. -/
theorem injective_addShiftLeft {k : UInt64} (hk : k.toNat % 64 ≠ 0) : Injective fun x : UInt64 => x + (x <<< k) := by
  intro x y h
  have hodd : Odd (2 ^ (k.toNat % 64) + 1) := (even_two.pow_of_ne_zero hk).add_one
  have hcoprime : Nat.gcd (2 ^ 64) (2 ^ (k.toNat % 64) + 1) = 1 := (Nat.coprime_two_left.2 hodd).pow_left 64
  have hmod : x.toNat * (2 ^ (k.toNat % 64) + 1) ≡ y.toNat * (2 ^ (k.toNat % 64) + 1) [MOD 2 ^ 64] := by
    have hvalue := congrArg UInt64.toNat h
    rwa [toNat_addShiftLeft, toNat_addShiftLeft] at hvalue
  have hcancel := Nat.ModEq.cancel_right_of_coprime hcoprime hmod
  exact UInt64.toNat_inj.1 (hcancel.eq_of_lt_of_lt x.toNat_lt y.toNat_lt)

/-- Only the word without bits stays as it is when it is shifted to the right. -/
theorem eq_zero_of_shiftRight {k z : UInt64} (hk : k.toNat % 64 ≠ 0) (h : z >>> k = z) : z = 0 := by
  have hdiv : z.toNat / 2 ^ (k.toNat % 64) = z.toNat := by
    rw [← Nat.shiftRight_eq_div_pow, ← UInt64.toNat_shiftRight, h]
  have hpow : 1 < 2 ^ (k.toNat % 64) := Nat.one_lt_two_pow hk
  by_contra hz
  have hpos : 0 < z.toNat := Nat.pos_of_ne_zero fun hzero => hz (UInt64.toNat_inj.1 hzero)
  exact absurd hdiv (Nat.div_lt_self hpos hpow).ne

/-- Two words with one result differ by such a word. -/
theorem injective_xorShiftRight {k : UInt64} (hk : k.toNat % 64 ≠ 0) : Injective fun x : UInt64 => x ^^^ (x >>> k) := by
  intro x y h
  have hdiff : (x ^^^ y) >>> k = x ^^^ y := by
    rw [UInt64.shiftRight_xor]
    have hzero : (x ^^^ x >>> k) ^^^ (y ^^^ y >>> k) = 0 := UInt64.xor_eq_zero_iff.2 h
    refine (UInt64.xor_eq_zero_iff.1 (Eq.trans ?_ hzero)).symm
    ac_rfl
  exact UInt64.xor_eq_zero_iff.1 (eq_zero_of_shiftRight hk hdiff)

/-! ## Steps -/

/-- A byte takes every state to another, and leaves out none. -/
theorem bijective_stir (byte : UInt8) : Bijective fun state => stir state byte := by
  refine Finite.injective_iff_bijective.1 ?_
  have hadd : Injective fun state : UInt64 => state + byte.toUInt64 := fun _ _ h => (UInt64.add_left_inj _).1 h
  exact (injective_xorShiftRight (k := 6) (by decide)).comp
    ((injective_addShiftLeft (k := 10) (by decide)).comp hadd)

/-- The last step of the digest loses nothing of the state. -/
theorem bijective_settle : Bijective settle := by
  refine Finite.injective_iff_bijective.1 ?_
  exact (injective_addShiftLeft (k := 15) (by decide)).comp
    ((injective_xorShiftRight (k := 11) (by decide)).comp (injective_addShiftLeft (k := 3) (by decide)))

/-- From one state different bytes lead to different states. -/
theorem injective_stir (state : UInt64) : Injective (stir state) := by
  have hadd : Injective fun byte : UInt8 => state + byte.toUInt64 := fun _ _ h =>
    UInt8.toUInt64_inj.1 ((UInt64.add_right_inj _).1 h)
  exact (injective_xorShiftRight (k := 6) (by decide)).comp
    ((injective_addShiftLeft (k := 10) (by decide)).comp hadd)

/-! ## Runs -/

/-- States that differ stay different, whatever bytes follow. -/
theorem injective_foldl_stir (bs : Bytes) : Injective fun state => bs.foldl stir state := by
  induction bs with
  | nil => exact injective_id
  | cons byte bs ih => exact ih.comp (bijective_stir byte).injective

/-- Every step is a bijection of the states, and so is the last one. Of two byte strings that differ in one byte only,
whatever is before and behind it, the digests differ. -/
theorem digest_single_byte :
    (∀ byte, Bijective fun state => stir state byte) ∧ Bijective settle ∧
      ∀ (before behind : Bytes) (a b : UInt8),
        digest (before ++ [a] ++ behind) = digest (before ++ [b] ++ behind) ↔ a = b := by
  refine ⟨bijective_stir, bijective_settle, fun before behind a b => ?_⟩
  have hfold (c : UInt8) : digest (before ++ [c] ++ behind) =
      settle (behind.foldl stir (stir (before.foldl stir 0) c)) := by
    rw [digest, List.foldl_append, List.foldl_append, List.foldl_cons, List.foldl_nil]
  rw [hfold, hfold, bijective_settle.injective.eq_iff, (injective_foldl_stir behind).eq_iff, (injective_stir _).eq_iff]

end OrderedTable.Bytes
