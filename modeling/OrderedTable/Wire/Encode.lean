import OrderedTable.Catalogue.Basic
import OrderedTable.Datum.Reading

/-!
# Writing the binary form

A list or a table is written as a block:

```text
marker (2 bytes) | version (4) | index of the kind of the keys (2) | count of entries (8)
then for each entry: index of the kind of the value (2) | value | key
```

Numbers stand least significant byte first, and an index is always that of the owning kind. A scalar
is its bytes, a text or byte string its length in eight bytes and then itself, a list or table a
block again. The first entry that cannot be written decides the fault; within an entry its kind comes
before its value, and its value before its key.
-/

namespace OrderedTable

namespace Wire

/-- The first two bytes of a block. -/
def marker : Nat := 0x4ABC

/-- The version of the form. -/
def version : Nat := 10

/-- How many bytes come before the first entry. -/
def headerLength : Nat := 2 + 4 + 2 + 8

/-- What comes before the first entry. -/
def header (keyIndex count : Nat) : Bytes :=
  Bytes.ofNat 2 marker ++ Bytes.ofNat 4 version ++ Bytes.ofNat 2 keyIndex ++ Bytes.ofNat 8 count

/-- All headers are of one length. -/
theorem length_header (keyIndex count : Nat) : (header keyIndex count).length = headerLength := by
  simp [header, headerLength]

/-- Bytes with their length in front. -/
def measured (bs : Bytes) : Bytes := Bytes.ofNat 8 bs.length ++ bs

end Wire

namespace Catalogue

variable (C : Catalogue)

/-- The index written for a kind. -/
def wireIndex (k : Kind) : Except WireFault Nat :=
  match C.baseIndex? k.base with
  | some index => .ok index
  | none => .error (.unregistered (C.name k))

/-- Entries whose keys and values are written already. -/
def encodeEntries : List (Entry (Except WireFault Bytes)) → Except WireFault Bytes
  | [] => .ok []
  | e :: rest => do
    let index ← C.wireIndex e.kind
    let value ← e.value
    let key ← e.key
    let following ← encodeEntries rest
    return Bytes.ofNat 2 index ++ value ++ key ++ following

/-- A block whose keys and values are written already. -/
def encodeBlock (keyKind : Kind) (entries : List (Entry (Except WireFault Bytes))) :
    Except WireFault Bytes := do
  let keyIndex ← C.wireIndex keyKind
  let body ← C.encodeEntries entries
  return Wire.header keyIndex entries.length ++ body

end Catalogue

variable (C : Catalogue)

/-- The binary form of a value that is no list or table. -/
def Kind.encodeLeaf (k : Kind) (d : Datum) : Except WireFault Bytes :=
  let orMismatch (form : Option Bytes) : Except WireFault Bytes :=
    match form with
    | some bs => .ok bs
    | none => .error (.mismatch (C.name k))
  match k.base with
  | .scalar s => orMismatch ((d.scalarOf? s).map Scalar.encode)
  | .text _ => orMismatch (d.textBytes?.map Wire.measured)
  | .bytes => orMismatch (d.bytes?.map Wire.measured)
  | .list | .table => orMismatch none
  | .extension id => (C.extension id).encode d

/-- The reading that makes a binary form of a value. -/
def encoding : Reading (Except WireFault Bytes) where
  leaf := Kind.encodeLeaf C
  list l := C.encodeBlock l.keyKind l.entries
  table t := C.encodeBlock t.keyKind t.entries

/-- The binary form of a value. -/
def Kind.encode (k : Kind) (d : Datum) : Except WireFault Bytes := k.read (encoding C) d

/-- The binary form of a list. -/
def Listing.encode (l : Listing Datum) : Except WireFault Bytes :=
  (encoding C).list (l.map (Kind.encode C))

/-- The binary form of a table. -/
def Table.encode (t : Table Datum) : Except WireFault Bytes :=
  (encoding C).table (t.map (Kind.encode C))

end OrderedTable
