import OrderedTable.Bytes.Basic
import OrderedTable.Decimal.Shortest

/-!
# Scalars

Truth values, integers of a fixed width and binary floats. A scalar carries its own kind, and its
bits are a `BitVec` of that kind's width, so that no scalar is out of range and a NaN keeps its
payload.

* `Scalar.rank` places a scalar among those of its kind: integers by value, floats in the total
  order of their format. `Scalar.order` compares ranks.
* `Scalar.encode` and `Scalar.decode` write and read its bytes, least significant first; any byte
  but zero reads as `true`. `decode_encode` says that reading undoes writing.
* `Scalar.text` is its text in base ten.
-/

namespace OrderedTable

/-- The integer kinds. -/
inductive IntKind where
  | i8 | u8 | i16 | u16 | i32 | u32 | i64 | u64 | i128 | u128
  deriving DecidableEq, Repr

namespace IntKind

/-- How many bytes an integer takes. -/
def bytes : IntKind → Nat
  | i8 | u8 => 1
  | i16 | u16 => 2
  | i32 | u32 => 4
  | i64 | u64 => 8
  | i128 | u128 => 16

/-- How many bits an integer takes. -/
def bits (k : IntKind) : Nat := 8 * k.bytes

/-- Whether the first bit is a sign. -/
def isSigned : IntKind → Bool
  | i8 | i16 | i32 | i64 | i128 => true
  | u8 | u16 | u32 | u64 | u128 => false

/-- The number that bits stand for. -/
def toInt (k : IntKind) (x : BitVec k.bits) : Int :=
  if k.isSigned then x.toInt else x.toNat

/-- Whether a number is one of the kind's. -/
def holds (k : IntKind) (n : Int) : Bool := k.toInt (BitVec.ofInt k.bits n) = n

/-- The name of the kind. -/
def name : IntKind → String
  | i8 => "i8" | u8 => "u8" | i16 => "i16" | u16 => "u16" | i32 => "i32"
  | u32 => "u32" | i64 => "i64" | u64 => "u64" | i128 => "i128" | u128 => "u128"

/-- The name of the XML Schema type with the same values. -/
def schemaName : IntKind → String
  | i8 => "xs:byte" | u8 => "xs:unsignedByte"
  | i16 => "xs:short" | u16 => "xs:unsignedShort"
  | i32 => "xs:int" | u32 => "xs:unsignedInt"
  | i64 => "xs:long" | u64 => "xs:unsignedLong"
  | i128 => "xs:integer" | u128 => "xs:nonNegativeInteger"

/-- The integers from `-2 ^ 63` on and below `2 ^ 63` are those of `i64`. -/
theorem holds_i64_iff {n : Int} : i64.holds n ↔ -0x8000000000000000 ≤ n ∧ n < 0x8000000000000000 := by
  have hvalue : i64.toInt (BitVec.ofInt i64.bits n) = n.bmod (2 ^ 64) := BitVec.toInt_ofInt n
  rw [holds, hvalue, decide_eq_true_iff, Int.bmod_def]
  omega

/-- The natural numbers below `2 ^ 64` are those of `u64`. -/
theorem holds_u64_iff {n : Int} : u64.holds n ↔ 0 ≤ n ∧ n < 0x10000000000000000 := by
  have hvalue : u64.toInt (BitVec.ofInt u64.bits n) = n % 2 ^ 64 := by
    show (((BitVec.ofInt 64 n).toNat : Nat) : Int) = n % 2 ^ 64
    rw [BitVec.toNat_ofInt]
    omega
  rw [holds, hvalue, decide_eq_true_iff]
  omega

/-- Every number of a kind of at most 64 bits is one of `i64` or of `u64`. -/
theorem holds_toInt_of_le {k : IntKind} (h : k.bytes ≤ 8) (x : BitVec k.bits) :
    i64.holds (k.toInt x) ∨ u64.holds (k.toInt x) := by
  rw [holds_i64_iff, holds_u64_iff]
  have hpow : (2 : Int) ^ k.bits ≤ 2 ^ 64 ∧ (2 : Nat) ^ k.bits ≤ 2 ^ 64 := by cases k <;> revert h <;> decide
  rw [toInt]
  split
  · have hlow := BitVec.le_two_mul_toInt (x := x)
    have hhigh := BitVec.two_mul_toInt_lt (x := x)
    omega
  · have hlt := x.isLt
    omega

end IntKind

/-- The kinds of scalars. -/
inductive ScalarKind where
  | bool
  | int (k : IntKind)
  | float (k : FloatKind)
  deriving DecidableEq, Repr

namespace ScalarKind

/-- How many bytes a scalar takes. -/
def bytes : ScalarKind → Nat
  | bool => 1
  | int k => k.bytes
  | float k => k.bytes

/-- The name of the kind. -/
def name : ScalarKind → String
  | bool => "bool"
  | int k => k.name
  | float .f32 => "f32"
  | float .f64 => "f64"

/-- The name of the XML Schema type with the same values. -/
def schemaName : ScalarKind → String
  | bool => "xs:boolean"
  | int k => k.schemaName
  | float .f32 => "xs:float"
  | float .f64 => "xs:double"

end ScalarKind

/-- A truth value, an integer or a float, with its kind. -/
inductive Scalar where
  | bool (b : Bool)
  | int (k : IntKind) (bits : BitVec k.bits)
  | float (k : FloatKind) (bits : BitVec k.bits)
  deriving DecidableEq, Repr

namespace Scalar

/-- The kind of a scalar. -/
def kind : Scalar → ScalarKind
  | bool _ => .bool
  | int k _ => .int k
  | float k _ => .float k

/-- The scalar of a kind that has no bit set: `false`, zero. -/
def zero : ScalarKind → Scalar
  | .bool => bool false
  | .int k => int k 0
  | .float k => float k 0

/-- The place of a scalar among those of its kind. -/
def rank : Scalar → Int
  | bool b => if b then 1 else 0
  | int k x => k.toInt x
  | float k x => k.rank x.toNat

/-- Scalars of one kind compared by rank. -/
def order (a b : Scalar) : Ordering := compare a.rank b.rank

/-- The text of a scalar in base ten. -/
def text : Scalar → String
  | bool b => if b then "true" else "false"
  | int k x => toString (k.toInt x)
  | float k x => k.text x.toNat

/-- The bytes of a scalar, least significant first. -/
def encode : Scalar → Bytes
  | bool b => [if b then 1 else 0]
  | int k x => Bytes.ofNat k.bytes x.toNat
  | float k x => Bytes.ofNat k.bytes x.toNat

/-- The scalar of a kind with the given bytes. -/
def decode (k : ScalarKind) (bs : Bytes) : Scalar :=
  match k with
  | .bool => bool (bs.head? ≠ some 0)
  | .int k => int k (BitVec.ofNat _ (Bytes.toNat bs))
  | .float k => float k (BitVec.ofNat _ (Bytes.toNat bs))

/-- Bytes are read as a scalar of the kind that they are read under. -/
@[simp] theorem kind_decode (k : ScalarKind) (bs : Bytes) : (decode k bs).kind = k := by
  cases k <;> rfl

/-- A scalar takes as many bytes as its kind says. -/
@[simp] theorem length_encode (s : Scalar) : s.encode.length = s.kind.bytes := by
  cases s <;> simp [encode, kind, ScalarKind.bytes]

/-- What is written is read back. -/
theorem decode_encode (s : Scalar) : decode s.kind s.encode = s := by
  cases s with
  | bool b => cases b <;> rfl
  | int k x =>
    have : x.toNat < 1 <<< (8 * k.bytes) := by
      rw [Nat.one_shiftLeft]
      exact x.isLt
    simp [encode, kind, decode, Bytes.toNat_ofNat_of_lt this]
  | float k x =>
    have : x.toNat < 1 <<< (8 * k.bytes) := by
      rw [Nat.one_shiftLeft]
      exact x.isLt
    simp [encode, kind, decode, Bytes.toNat_ofNat_of_lt this]

end Scalar

end OrderedTable
