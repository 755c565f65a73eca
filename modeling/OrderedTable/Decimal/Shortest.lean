/-!
# The shortest decimal of a binary float

A finite binary float is `m · 2 ^ q`. Every real closer to it than to its neighbours reads back as
it, so the library prints the point of that interval that lies on the coarsest decimal grid: no
shorter decimal reads back. Of two such points the nearer one is taken, and the upper one where both
are equally near. All arithmetic is on natural numbers.

* `Format` gives the widths of the two formats, `Format.decode` the parts of a float's bits.
* `shortest` finds the decimal `digits · 10 ^ exponent`.
* `Decimal.positional` writes it out in full, never with an exponent.
* `Format.text` is the text of a float, and `Format.rank` its place in the total order, where
  `-0` comes before `0` and the NaNs lie at both ends.
-/

namespace OrderedTable

/-- The natural number `digits` times ten to the power of `exponent`. -/
structure Decimal where
  digits : Nat
  exponent : Int
  deriving DecidableEq, Repr

namespace Decimal

/-- A positive binary float: `mantissa` times two to the power of `exponent`. `closeBelow` holds
where the next float below is only half as far away as the next one above. -/
structure Binary where
  mantissa : Nat
  exponent : Int
  closeBelow : Bool
  deriving DecidableEq, Repr

/-- The point of the grid of multiples of `10 ^ exponent` that reads back as `b` and lies nearest to
it, if there is one. Everything is measured in quarters of the last place of `b`, over `unit`. -/
def Binary.onGrid (b : Binary) (exponent : Int) : Option Decimal :=
  let quarter := b.exponent - 2
  let scale := Nat.pow 10 (-exponent).toNat <<< quarter.toNat
  let unit := Nat.pow 10 exponent.toNat <<< (-quarter).toNat
  let value := 4 * b.mantissa * scale
  let low := (4 * b.mantissa - if b.closeBelow then 1 else 2) * scale
  let high := (4 * b.mantissa + 2) * scale
  let endsIncluded := b.mantissa % 2 = 0
  let below := value / unit
  let belowReads : Bool := low < below * unit || (endsIncluded && low = below * unit)
  let aboveReads : Bool := (below + 1) * unit < high || (endsIncluded && (below + 1) * unit = high)
  let aboveNearer : Bool := (below + 1) * unit - value ≤ value - below * unit
  if aboveReads && (!belowReads || aboveNearer) then some ⟨below + 1, exponent⟩
  else if belowReads then some ⟨below, exponent⟩
  else none

/-- An exponent whose power of ten exceeds `b`. -/
def Binary.reach (b : Binary) : Int :=
  (Nat.log2 b.mantissa + b.exponent + 1) * 30103 / 100000 + 1

/-- The decimal with the fewest digits that reads back as `b`. The grids are tried from the coarsest
down; twenty-five of them suffice, as a grid finer than the gap between two floats has a hit. -/
def shortest (b : Binary) : Decimal :=
  ((List.range 25).findSome? fun (i : Nat) => b.onGrid (b.reach - i)).getD ⟨b.mantissa, b.exponent⟩

/-- The decimal written out in full. -/
def positional (d : Decimal) : String :=
  let digits := Nat.toDigits 10 d.digits
  let places := (-d.exponent).toNat
  String.ofList <|
    if places = 0 then digits ++ List.replicate d.exponent.toNat '0'
    else
      let padded := List.replicate (places + 1 - digits.length) '0' ++ digits
      padded.take (padded.length - places) ++ '.' :: padded.drop (padded.length - places)

end Decimal

/-- A binary interchange format: a sign bit, then the exponent bits, then the fraction bits. -/
inductive FloatKind where
  | f32
  | f64
  deriving DecidableEq, Repr

namespace FloatKind

/-- How many bytes a float takes. -/
def bytes : FloatKind → Nat
  | f32 => 4
  | f64 => 8

/-- How many bits a float takes. -/
def bits (k : FloatKind) : Nat := 8 * k.bytes

/-- How many of them hold the fraction. -/
def fractionBits : FloatKind → Nat
  | f32 => 23
  | f64 => 52

/-- How many of them hold the exponent. -/
def exponentBits (k : FloatKind) : Nat := k.bits - 1 - k.fractionBits

/-- The exponent field that infinities and NaNs carry. -/
def topExponent (k : FloatKind) : Nat := 1 <<< k.exponentBits - 1

/-- The fraction field of a float's bits. -/
def fraction (k : FloatKind) (x : Nat) : Nat := x % (1 <<< k.fractionBits)

/-- The exponent field of a float's bits. -/
def exponentField (k : FloatKind) (x : Nat) : Nat := (x >>> k.fractionBits) % (1 <<< k.exponentBits)

/-- Whether the sign bit is set. -/
def isNegative (k : FloatKind) (x : Nat) : Bool := x.testBit (k.bits - 1)

/-- Whether the bits are those of a number. -/
def isFinite (k : FloatKind) (x : Nat) : Bool := k.exponentField x ≠ k.topExponent

/-- The magnitude of a finite float other than zero. -/
def magnitude (k : FloatKind) (x : Nat) : Decimal.Binary :=
  let field := k.exponentField x
  let least : Int := 2 - (1 <<< (k.exponentBits - 1) : Nat) - k.fractionBits
  if field = 0 then ⟨k.fraction x, least, false⟩
  else ⟨k.fraction x + 1 <<< k.fractionBits, least + field - 1, k.fraction x = 0 && 1 < field⟩

/-- The text of a float: the shortest decimal that reads back, written out in full. -/
def text (k : FloatKind) (x : Nat) : String :=
  let sign := if k.isNegative x then "-" else ""
  if k.isFinite x then
    if k.exponentField x = 0 && k.fraction x = 0 then sign ++ "0"
    else sign ++ (Decimal.shortest (k.magnitude x)).positional
  else if k.fraction x = 0 then sign ++ "inf"
  else "NaN"

/-- The place of a float in the total order of its format: larger bits are further from zero. -/
def rank (k : FloatKind) (x : Nat) : Nat :=
  if k.isNegative x then 1 <<< k.bits - 1 - x else 1 <<< (k.bits - 1) + x

example : Decimal.shortest (f64.magnitude 0x3FB999999999999A) = ⟨1, -1⟩ := by decide +kernel
example : Decimal.shortest (f32.magnitude 0x3DCCCCCD) = ⟨1, -1⟩ := by decide +kernel
example : Decimal.shortest (f64.magnitude 1) = ⟨5, -324⟩ := by decide +kernel

end FloatKind

end OrderedTable
