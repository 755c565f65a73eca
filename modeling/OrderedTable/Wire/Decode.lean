import OrderedTable.Table.Placement
import OrderedTable.Wire.Encode

/-!
# Reading the binary form

The form that `OrderedTable.Wire.Encode` writes is read from untrusted bytes. A block has a header,
whose faults leave nothing to be read, and entries, which are taken until the declared count is
reached, the input ends or one of them is at fault; what was taken by then is kept. Inside an entry a
list or table counts only if it is whole.

Read in place, text and byte strings share the input, and every value that is not compound, and the
keys likewise, are given the borrowing kind. A table is read into as many buckets as it has entries,
as far as the input ahead can hold so many.

Lists and tables lie at most `Wire.maxNesting` deep inside one another. `Kind.decodeWithin` recurses
on the levels that are left.
-/

namespace OrderedTable

/-- What was decoded, how many bytes it took, and the fault that stopped it early, if any. -/
structure Decoded (α : Type) where
  value : α
  consumed : Nat
  fault : Option WireFault

namespace Decoded

variable {α β : Type}

/-- Whether nothing stopped the decoding. -/
def isComplete (d : Decoded α) : Bool := d.fault.isNone

/-- What was decoded, if nothing stopped it. -/
def whole (d : Decoded α) : Except WireFault α :=
  match d.fault with
  | none => .ok d.value
  | some fault => .error fault

/-- The same outcome for another value. -/
def map (f : α → β) (d : Decoded α) : Decoded β := ⟨f d.value, d.consumed, d.fault⟩

end Decoded

namespace Wire

/-- How deep lists and tables may lie inside the outermost one. -/
def maxNesting : Nat := 32

/-- The fewest bytes that an entry is reckoned to take: the index of a kind, and one byte each for
value and key. -/
def leastEntry : Nat := 4

/-- The number in the `width` bytes at a place. -/
def numberAt (width place : Nat) (bs : Bytes) : Except WireFault Nat :=
  let found := (bs.drop place).take width
  if found.length = width then .ok (Bytes.toNat found)
  else .error (.truncated width (bs.length - place))

/-- The place and length of bytes with their length in front. -/
def measuredAhead (bs : Bytes) : Except WireFault (Nat × Nat) := do
  let length ← numberAt 8 0 bs
  if length ≤ bs.length - 8 then return (8, length)
  else throw (.truncated length (bs.length - 8))

/-- A decoder of one value under a kind: the value, and how many bytes it took. -/
abbrev Decoder := Kind → Input → Except WireFault (Datum × Nat)

/-- A block taken apart: the kind its keys are given, how many buckets it wants, the entries that
were read, how many bytes they took with the header, and the fault that stopped them. -/
structure Block where
  keyKind : Kind
  wanted : Nat
  entries : List (Entry Datum)
  consumed : Nat
  fault : Option WireFault

end Wire

open Wire

variable (C : Catalogue)

/-- The kind with an index of two bytes, the first bit of which is a sign. -/
def Catalogue.kindNumbered (index : Nat) : Except WireFault Kind :=
  let place := Int.bmod index 65536
  (C.kindAt? place).elim (.error (.unknownKind place)) .ok

/-- The kind that a value or key is given: its own or, in place, the borrowing twin if it is not
compound. -/
def Catalogue.decodedKind (input : Input) (k : Kind) : Kind :=
  if input.isInPlace && !C.isCompound k then (C.twin? k).getD k else k

/-- The kind of the keys and the count of entries that a block declares. -/
def Wire.readHeader (bs : Bytes) : Except WireFault (Kind × Nat) := do
  if bs.length < headerLength then throw (.truncated headerLength bs.length)
  let found ← numberAt 2 0 bs
  if found ≠ marker then throw (.badMarker found)
  let found ← numberAt 4 2 bs
  if found ≠ version then throw (.unsupportedVersion found)
  let keyKind ← C.kindNumbered (← numberAt 2 6 bs)
  let declared ← numberAt 8 8 bs
  return (keyKind, declared)

/-- The entry at a place in the input, and how many bytes it takes. -/
def Wire.readEntry (decode : Decoder) (input : Input) (keyKind : Kind) (place : Nat) :
    Except WireFault (Entry Datum × Nat) := do
  let kind ← C.kindNumbered (← numberAt 2 place input.bytes)
  let (value, valueLength) ← decode kind (input.advance (place + 2))
  let (key, keyLength) ← decode keyKind (input.advance (place + 2 + valueLength))
  return (⟨key, value, C.decodedKind input kind⟩, 2 + valueLength + keyLength)

/-- At most `count` entries from a place on: those read, the place after them, and the fault of the
entry that could not be read. Entries must be admitted by `admits`. -/
def Wire.readEntries (decode : Decoder) (admits : Kind → Entry Datum → Bool) (input : Input)
    (keyKind : Kind) : (count place : Nat) → List (Entry Datum) × Nat × Option WireFault
  | 0, place => ([], place, none)
  | count + 1, place =>
    if place < input.bytes.length then
      match readEntry C decode input keyKind place with
      | .error fault => ([], place, some fault)
      | .ok (entry, length) =>
        if admits keyKind entry then
          let (entries, after, fault) :=
            readEntries decode admits input keyKind count (place + length)
          (entry :: entries, after, fault)
        else ([], place, some (.mismatch (C.name keyKind)))
    else ([], place, none)

/-- The block that the input starts with. -/
def Wire.readBlock (decode : Decoder) (admits : Kind → Entry Datum → Bool) (input : Input) :
    Except WireFault Block := do
  let (keyKind, declared) ← readHeader C input.bytes
  let (entries, after, fault) :=
    readEntries C decode admits input keyKind declared headerLength
  let short : Option WireFault :=
    if entries.length < declared then some (.incomplete declared entries.length) else none
  return {
    keyKind := C.decodedKind input keyKind
    wanted := min declared ((input.bytes.length - headerLength) / leastEntry)
    entries, consumed := after, fault := fault.or short }

/-- Whether a table takes an entry. -/
def Wire.tableAdmits (keyKind : Kind) (e : Entry Datum) : Bool :=
  keyKind.accepts C e.key && e.kind.accepts C e.value

/-- The list that a block holds. -/
def Wire.Block.toListing (b : Block) : Decoded (Listing Datum) :=
  ⟨⟨b.keyKind, b.entries⟩, b.consumed, b.fault⟩

/-- The table that a block holds. -/
def Wire.Block.toTable (b : Block) : Decoded (Table Datum) :=
  ⟨(Table.empty b.keyKind b.wanted).addAll C b.entries, b.consumed, b.fault⟩

/-- The value that input starts with, under a kind other than of lists and tables. -/
def Kind.decodeLeaf (k : Kind) (input : Input) : Except WireFault (Datum × Nat) :=
  match k.base with
  | .scalar s =>
    if input.bytes.length < s.bytes then .error (.truncated s.bytes input.bytes.length)
    else .ok (.scalar (.decode s (input.bytes.take s.bytes)), s.bytes)
  | .text _ => do
    let (start, length) ← measuredAhead input.bytes
    let storage := input.storage start length
    if (Utf8.decode? storage.bytes).isSome then return (.text storage, start + length)
    else throw .notUtf8
  | .bytes => do
    let (start, length) ← measuredAhead input.bytes
    return (.bytes (input.storage start length), start + length)
  | .list | .table => .error (.mismatch (C.name k))
  | .extension id => (C.extension id).decode input

/-- The value that input starts with, with lists and tables at most `levels` deep inside it. -/
def Kind.decodeWithin (levels : Nat) (k : Kind) (input : Input) : Except WireFault (Datum × Nat) :=
  match k.base, levels with
  | .list, 0 | .table, 0 => .error (.tooDeep maxNesting)
  | .list, levels + 1 => do
    let block ← readBlock C (decodeWithin levels) (fun _ _ => true) input.nested
    let list ← block.toListing.whole
    return (.list list, block.consumed)
  | .table, levels + 1 => do
    let block ← readBlock C (decodeWithin levels) (tableAdmits C) input.nested
    let table ← (block.toTable C).whole
    return (.table table, block.consumed)
  | _, _ => k.decodeLeaf C input

/-- The value that input starts with, and how many bytes it takes. -/
def Kind.decode (k : Kind) (input : Input) : Except WireFault (Datum × Nat) :=
  k.decodeWithin C (maxNesting - input.depth) input

/-- The list that input starts with, as far as it can be read. -/
def Listing.decode (input : Input) : Except WireFault (Decoded (Listing Datum)) :=
  (readBlock C (Kind.decode C) (fun _ _ => true) input).map (·.toListing)

/-- The table that input starts with, as far as it can be read. -/
def Table.decode (input : Input) : Except WireFault (Decoded (Table Datum)) :=
  (readBlock C (Kind.decode C) (tableAdmits C) input).map (·.toTable C)

end OrderedTable
