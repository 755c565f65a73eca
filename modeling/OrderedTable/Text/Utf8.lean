import OrderedTable.Bytes.Basic

/-!
# UTF-8

A character is written in one to four bytes. Bytes are read one at a time by a small machine: between
characters it stands at the start, and inside a character it knows how many bytes are still owed and
in which range the next one must lie (`Pending`). It refuses a byte at exactly the place where no
character can go on, so what it has taken by then is a longest beginning of a character.

* `Utf8.pieces` cuts a byte string into its characters and the longest beginnings that came to
  nothing; `decode?` wants no such remains, and `decodeLossy` puts U+FFFD for each of them.
* `decode?_encode`: what is written is read back.
-/

namespace OrderedTable.Utf8

/-- The bytes of one character. -/
def encodeChar (c : Char) : Bytes :=
  let n := c.toNat
  if n < 0x80 then
    [UInt8.ofNat n]
  else if n < 0x800 then
    [UInt8.ofNat (0xC0 + n / 64), UInt8.ofNat (0x80 + n % 64)]
  else if n < 0x10000 then
    [UInt8.ofNat (0xE0 + n / 4096), UInt8.ofNat (0x80 + n / 64 % 64), UInt8.ofNat (0x80 + n % 64)]
  else
    [UInt8.ofNat (0xF0 + n / 262144), UInt8.ofNat (0x80 + n / 4096 % 64),
      UInt8.ofNat (0x80 + n / 64 % 64), UInt8.ofNat (0x80 + n % 64)]

/-- The bytes of a text. -/
def encode (text : String) : Bytes :=
  text.toList.flatMap encodeChar

/-- A character begun: the next byte lies between `low` and `high`, `after` more follow it, and
`soFar` is the number spelled by the bits read. -/
structure Pending where
  after : Nat
  low : Nat
  high : Nat
  soFar : Nat
  deriving DecidableEq, Repr

/-- What one more byte does. -/
inductive Step where
  | char (c : Char)
  | more (p : Pending)
  | refused
  deriving DecidableEq, Repr

/-- The first byte of a character. -/
def start (byte : UInt8) : Step :=
  let n := byte.toNat
  if n < 0x80 then .char (Char.ofNat n)
  else if n < 0xC2 then .refused
  else if n < 0xE0 then .more ⟨0, 0x80, 0xBF, n - 0xC0⟩
  else if n = 0xE0 then .more ⟨1, 0xA0, 0xBF, 0⟩
  else if n = 0xED then .more ⟨1, 0x80, 0x9F, 13⟩
  else if n < 0xF0 then .more ⟨1, 0x80, 0xBF, n - 0xE0⟩
  else if n = 0xF0 then .more ⟨2, 0x90, 0xBF, 0⟩
  else if n < 0xF4 then .more ⟨2, 0x80, 0xBF, n - 0xF0⟩
  else if n = 0xF4 then .more ⟨2, 0x80, 0x8F, 4⟩
  else .refused

/-- A further byte of a character. -/
def Pending.next (p : Pending) (byte : UInt8) : Step :=
  let n := byte.toNat
  if p.low ≤ n ∧ n ≤ p.high then
    let soFar := 64 * p.soFar + (n - 0x80)
    match p.after with
    | 0 => .char (Char.ofNat soFar)
    | after + 1 => .more ⟨after, 0x80, 0xBF, soFar⟩
  else
    .refused

/-- What a step yields, and the character it leaves begun. -/
def Step.yield : Step → List (Option Char) × Option Pending
  | .char c => ([some c], none)
  | .more p => ([], some p)
  | .refused => ([none], none)

/-- One byte, inside a character or between two: what it yields, and what it leaves begun. A byte
refused inside a character ends that character and is looked at again as a first byte. -/
def advance (begun : Option Pending) (byte : UInt8) : List (Option Char) × Option Pending :=
  match begun with
  | none => (start byte).yield
  | some p =>
    match p.next byte with
    | .refused => (none :: (start byte).yield.1, (start byte).yield.2)
    | step => step.yield

/-- The characters of a byte string in order, with `none` for each longest beginning of a character
that does not end as one. -/
def pieces (begun : Option Pending) : Bytes → List (Option Char)
  | [] => if begun.isSome then [none] else []
  | b :: bs => (advance begun b).1 ++ pieces (advance begun b).2 bs

/-- The text that a byte string spells, if it is UTF-8 throughout. -/
def decode? (bs : Bytes) : Option String :=
  ((pieces none bs).mapM id).map String.ofList

/-- The text of a byte string with U+FFFD for each longest beginning that is no character. -/
def decodeLossy (bs : Bytes) : String :=
  String.ofList ((pieces none bs).map (·.getD '\uFFFD'))

/-! ## What is written is read back -/

/-- A number below 256 is the byte that it is made into. -/
private theorem toNat_byte {n : Nat} (h : n < 256) : (UInt8.ofNat n).toNat = n := by
  rw [UInt8.toNat_ofNat']
  omega

/-- A byte that is a character by itself is one, and the next byte starts afresh. -/
theorem pieces_of_start_char {b : UInt8} {c : Char} (h : start b = .char c) (bs : Bytes) :
    pieces none (b :: bs) = some c :: pieces none bs := by
  simp [pieces, advance, Step.yield, h]

/-- A byte that starts a longer character waits for the others. -/
theorem pieces_of_start_more {b : UInt8} {p : Pending} (h : start b = .more p) (bs : Bytes) :
    pieces none (b :: bs) = pieces (some p) bs := by
  simp [pieces, advance, Step.yield, h]

/-- The last byte of a character completes it. -/
theorem pieces_of_next_char {p : Pending} {b : UInt8} {c : Char} (h : p.next b = .char c)
    (bs : Bytes) : pieces (some p) (b :: bs) = some c :: pieces none bs := by
  simp [pieces, advance, Step.yield, h]

/-- A byte in the middle of a character is added to what is pending. -/
theorem pieces_of_next_more {p q : Pending} {b : UInt8} (h : p.next b = .more q) (bs : Bytes) :
    pieces (some p) (b :: bs) = pieces (some q) bs := by
  simp [pieces, advance, Step.yield, h]

/-- The last byte of a character adds its six bits. -/
private theorem next_last {low high soFar x : Nat} (hx : x < 64) (hl : low ≤ 0x80 + x)
    (hh : 0x80 + x ≤ high) :
    Pending.next ⟨0, low, high, soFar⟩ (UInt8.ofNat (0x80 + x)) =
      .char (Char.ofNat (64 * soFar + x)) := by
  rw [Pending.next, toNat_byte (by omega)]
  dsimp only
  rw [if_pos ⟨hl, hh⟩, Nat.add_sub_cancel_left]

/-- A byte in the middle of a character adds its six bits, and the next one may have any. -/
private theorem next_inner {after low high soFar x : Nat} (hx : x < 64) (hl : low ≤ 0x80 + x)
    (hh : 0x80 + x ≤ high) :
    Pending.next ⟨after + 1, low, high, soFar⟩ (UInt8.ofNat (0x80 + x)) =
      .more ⟨after, 0x80, 0xBF, 64 * soFar + x⟩ := by
  rw [Pending.next, toNat_byte (by omega)]
  dsimp only
  rw [if_pos ⟨hl, hh⟩, Nat.add_sub_cancel_left]

/-- A byte below 128 is a character by itself. -/
private theorem start_ascii {n : Nat} (h : n < 0x80) :
    start (UInt8.ofNat n) = .char (Char.ofNat n) := by
  rw [start, toNat_byte (by omega)]
  exact if_pos h

/-- What a first byte of two is followed by. -/
private theorem start_two {x : Nat} (hl : 2 ≤ x) (hh : x < 32) :
    start (UInt8.ofNat (0xC0 + x)) = .more ⟨0, 0x80, 0xBF, x⟩ := by
  rw [start, toNat_byte (by omega)]
  rw [if_neg (by omega), if_neg (by omega), if_pos (by omega), Nat.add_sub_cancel_left]

/-- The range of the byte after a first byte of three: no text needs fewer bytes, and no half of a
surrogate pair is a character. -/
private theorem start_three {x : Nat} (h : x < 16) :
    start (UInt8.ofNat (0xE0 + x)) =
      .more ⟨1, if x = 0 then 0xA0 else 0x80, if x = 13 then 0x9F else 0xBF, x⟩ := by
  rw [start, toNat_byte (by omega)]
  rw [if_neg (by omega), if_neg (by omega), if_neg (by omega)]
  by_cases h0 : x = 0
  · subst h0; rfl
  by_cases h1 : x = 13
  · subst h1; rfl
  rw [if_neg (by omega), if_neg (by omega), if_pos (by omega), Nat.add_sub_cancel_left,
    if_neg h0, if_neg h1]

/-- What a first byte of four is followed by: the first and the last plane leave less room. -/
private theorem start_four {x : Nat} (h : x < 5) :
    start (UInt8.ofNat (0xF0 + x)) =
      .more ⟨2, if x = 0 then 0x90 else 0x80, if x = 4 then 0x8F else 0xBF, x⟩ := by
  have : x = 0 ∨ x = 1 ∨ x = 2 ∨ x = 3 ∨ x = 4 := by omega
  rcases this with rfl | rfl | rfl | rfl | rfl <;> rfl

/-- A character's bytes are read as that character. -/
theorem pieces_encodeChar (c : Char) (bs : Bytes) :
    pieces none (encodeChar c ++ bs) = some c :: pieces none bs := by
  have valid : c.toNat < 0xD800 ∨ (0xDFFF < c.toNat ∧ c.toNat < 0x110000) := c.valid
  have back : Char.ofNat c.toNat = c := Char.ofNat_toNat c
  unfold encodeChar
  generalize c.toNat = n at valid back
  subst back
  dsimp only
  split
  · exact pieces_of_start_char (start_ascii (by assumption)) bs
  split
  · refine (pieces_of_start_more (start_two (by omega) (by omega)) _).trans ?_
    refine (pieces_of_next_char (next_last (by omega) (by omega) (by omega)) _).trans ?_
    rw [show 64 * (n / 64) + n % 64 = n by omega]
    rfl
  split
  · refine (pieces_of_start_more (start_three (by omega)) _).trans ?_
    refine (pieces_of_next_more (next_inner (by omega) (by split <;> omega) (by split <;> omega))
      _).trans ?_
    refine (pieces_of_next_char (next_last (by omega) (by omega) (by omega)) _).trans ?_
    rw [show 64 * (64 * (n / 4096) + n / 64 % 64) + n % 64 = n by omega]
    rfl
  · refine (pieces_of_start_more (start_four (by omega)) _).trans ?_
    refine (pieces_of_next_more (next_inner (by omega) (by split <;> omega) (by split <;> omega))
      _).trans ?_
    refine (pieces_of_next_more (next_inner (by omega) (by omega) (by omega)) _).trans ?_
    refine (pieces_of_next_char (next_last (by omega) (by omega) (by omega)) _).trans ?_
    rw [show 64 * (64 * (64 * (n / 262144) + n / 4096 % 64) + n / 64 % 64) + n % 64 = n by omega]
    rfl

/-- The bytes of a text fall into its characters. -/
theorem pieces_encode (text : String) : pieces none (encode text) = text.toList.map some := by
  unfold encode
  induction text.toList with
  | nil => rfl
  | cons c cs ih => rw [List.flatMap_cons, pieces_encodeChar, ih, List.map_cons]

/-- What is written is read back. -/
theorem decode?_encode (text : String) : decode? (encode text) = some text := by
  have all : ∀ cs : List Char, (cs.map some).mapM id = some cs := by
    intro cs
    induction cs with
    | nil => rfl
    | cons c cs ih => simp [ih]
  rw [decode?, pieces_encode, all, Option.map_some, String.ofList_toList]

/-- Different texts have different bytes. -/
theorem encode_injective {s t : String} (h : encode s = encode t) : s = t := by
  have hdecode := congrArg decode? h
  rw [decode?_encode, decode?_encode] at hdecode
  exact Option.some.inj hdecode

/-- Reading with replacement changes nothing in a text. -/
theorem decodeLossy_encode (text : String) : decodeLossy (encode text) = text := by
  rw [decodeLossy, pieces_encode, List.map_map]
  simp [Function.comp_def]

end OrderedTable.Utf8
