/-!
# Byte strings

Everything that is measured, hashed or written here is a `List UInt8`. This module names that type
and gives the one number format the library writes: a natural number in a fixed count of bytes,
least significant byte first.

* `Bytes.ofNat width n` and `Bytes.toNat` write and read such a number. `toNat_ofNat` says that
  reading undoes writing up to the width, and `length_ofNat` that the width is always filled.
* `Bytes.order` compares byte strings from the left, a proper beginning coming first.
-/

namespace OrderedTable

/-- A string of bytes. -/
abbrev Bytes := List UInt8

namespace Bytes

/-- The `width` bytes of `n`, least significant first; what does not fit is dropped. -/
def ofNat : (width n : Nat) → Bytes
  | 0, _ => []
  | width + 1, n => UInt8.ofNat (n % 256) :: ofNat width (n / 256)

/-- The number whose bytes are given least significant first. -/
def toNat : Bytes → Nat
  | [] => 0
  | b :: bs => b.toNat + 256 * toNat bs

/-- A number takes as many bytes as the width says. -/
@[simp] theorem length_ofNat (width n : Nat) : (ofNat width n).length = width := by
  induction width generalizing n with
  | zero => rfl
  | succ width ih => simp [ofNat, ih]

/-- One more byte makes room for 256 times as many numbers. -/
private theorem one_shiftLeft_succ (width : Nat) :
    1 <<< (8 * (width + 1)) = 256 * (1 <<< (8 * width)) := by
  rw [Nat.mul_succ, Nat.add_comm, Nat.shiftLeft_add, Nat.shiftLeft_eq, Nat.shiftLeft_eq,
    Nat.shiftLeft_eq, Nat.one_mul, Nat.one_mul]

/-- Reading undoes writing, but for what the width cannot hold. -/
theorem toNat_ofNat (width n : Nat) : toNat (ofNat width n) = n % (1 <<< (8 * width)) := by
  induction width generalizing n with
  | zero => simp [ofNat, toNat, Nat.mod_one]
  | succ width ih =>
    have byte : (UInt8.ofNat (n % 256)).toNat = n % 256 := by
      rw [UInt8.toNat_ofNat']
      omega
    rw [ofNat, toNat, ih, byte, one_shiftLeft_succ, Nat.mod_mul]

/-- A number that the width can hold is read back unchanged. -/
theorem toNat_ofNat_of_lt {width n : Nat} (h : n < 1 <<< (8 * width)) :
    toNat (ofNat width n) = n := by
  rw [toNat_ofNat, Nat.mod_eq_of_lt h]

/-- Byte strings compared from the left; a proper beginning of a string comes before it. -/
def order : Bytes → Bytes → Ordering
  | [], [] => .eq
  | [], _ :: _ => .lt
  | _ :: _, [] => .gt
  | a :: as, b :: bs => (compare a.toNat b.toNat).then (order as bs)

end Bytes

end OrderedTable
