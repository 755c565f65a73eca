import OrderedTable.Bytes.Basic

/-!
# The one-at-a-time digest

A 64-bit digest of a byte string: each byte is added to the state and stirred in by two shifts
(`stir`), and a last step (`settle`) spreads the state once every byte is in. All arithmetic is
modulo `2 ^ 64`. The digest decides which bucket of a table a key is filed under, and nothing else.
-/

namespace OrderedTable.Bytes

/-- Takes one byte into the state. -/
def stir (state : UInt64) (byte : UInt8) : UInt64 :=
  let added := state + byte.toUInt64
  let spread := added + (added <<< 10)
  spread ^^^ (spread >>> 6)

/-- The last step, after the last byte. -/
def settle (state : UInt64) : UInt64 :=
  let a := state + (state <<< 3)
  let b := a ^^^ (a >>> 11)
  b + (b <<< 15)

/-- The digest of a byte string. -/
def digest (bs : Bytes) : UInt64 :=
  settle (bs.foldl stir 0)

end OrderedTable.Bytes
