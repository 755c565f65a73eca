import OrderedTable.Bytes.Storage
import OrderedTable.Kind.Basic

/-!
# Data

A `Datum` is anything that a table can hold as a key or a value. It does not say under which kind it
is to be read: that is recorded beside it, in the entry of the list or table that holds it.

Lists and tables are data too, so the four record types below take the type `δ` of what they hold as
a parameter. `Listing Datum` and `Table Datum` are the lists and tables themselves; with another `δ`
they hold what some reading of the data made of each key and value (`OrderedTable.Datum.Reading`).

The rows of a table stand in one sequence, the *global order*: by bucket, and within a bucket in the
bucket's own order. Every row says which bucket it was filed under, so a bucket is the run of the
rows that name it, and a row carries the handle it was given when it was inserted.
-/

namespace OrderedTable

/-- A key with its value, and the kind under which the value is read. -/
structure Entry (δ : Type) where
  key : δ
  value : δ
  kind : Kind
  deriving Repr

/-- A list of entries, with the kind under which its keys are read. -/
structure Listing (δ : Type) where
  keyKind : Kind
  entries : List (Entry δ)
  deriving Repr

/-- The name of a row within its table; no name is given twice. -/
structure Handle where
  serial : Nat
  deriving DecidableEq, Repr

/-- An entry in its place in a table: the bucket it is filed under, and its handle. -/
structure Row (δ : Type) extends Entry δ where
  bucket : Nat
  handle : Handle
  deriving Repr

/-- A hash table: `capacity` buckets, whose rows stand one after another. -/
structure Table (δ : Type) where
  /-- The kind under which the keys are read. -/
  keyKind : Kind
  /-- How many buckets there are. -/
  capacity : Nat
  /-- The kind of the value inserted last. -/
  lastAdded : Option Kind
  /-- The serial number of the next handle. -/
  nextSerial : Nat
  /-- The rows in global order. -/
  rows : List (Row δ)
  deriving Repr

namespace Listing

/-- The list without entries. -/
def empty {δ : Type} (keyKind : Kind) : Listing δ := ⟨keyKind, []⟩

end Listing

namespace Table

variable {δ : Type}

/-- The fewest buckets a table has. -/
def minCapacity : Nat := 64

/-- The table without rows, with as many buckets as wanted but not fewer than `minCapacity`. -/
def empty (keyKind : Kind) (wanted : Nat) : Table δ :=
  ⟨keyKind, max wanted minCapacity, none, 0, []⟩

/-- How many rows there are. -/
def size (t : Table δ) : Nat := t.rows.length

/-- The entries in global order. -/
def entries (t : Table δ) : List (Entry δ) := t.rows.map Row.toEntry

/-- The rows filed under a bucket, in the bucket's order. -/
def bucketRows (t : Table δ) (bucket : Nat) : List (Row δ) := t.rows.filter (·.bucket = bucket)

/-- The table without its rows. The kind inserted last is kept, and no handle is given again. -/
def clear (t : Table δ) : Table δ := { t with rows := [] }

end Table

/-- Whether text or bytes in a plain form belong to the value or are constant. -/
inductive Plain where
  | held
  | constant
  deriving DecidableEq, Repr

/-- A key or a value of any kind. -/
inductive Datum where
  | scalar (s : Scalar)
  /-- Text as this library keeps it: bytes that are UTF-8. -/
  | text (bytes : Storage)
  /-- Bytes as this library keeps them. -/
  | bytes (bytes : Storage)
  /-- Text in a plain form. -/
  | plainText (form : Plain) (text : String)
  /-- Bytes in a plain form. -/
  | plainBytes (form : Plain) (bytes : Bytes)
  /-- The value that says nothing. -/
  | unit
  /-- A datum inside another; most readers look through one such layer. -/
  | boxed (inner : Datum)
  | list (l : Listing Datum)
  | table (t : Table Datum)

end OrderedTable
