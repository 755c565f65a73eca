import OrderedTable.Datum.Summary
import OrderedTable.Guarded.Basic
import OrderedTable.Kind.Copy
import OrderedTable.Kind.Format
import OrderedTable.Wire.Encode

/-!
# Operations on guarded tables

Each operation on a table as a program that enters the table once: as a read if it only looks, as a
write if it may change something. A refused operation that can report a fault reports that the table is
busy; one that cannot answers as for a table that is not there. Showing a table reports a fault of its own,
and the diagnostic text says that the table is borrowed.
-/

namespace OrderedTable.Program

variable {ι : Type}

/-- What is seen in a table. -/
def inspect {α : Type} (x : ι) (view : Table Datum → α) : Program ι (Except TableFault α) :=
  read x fun t => done (view t)

/-- What is seen in a table, or what is said of one that cannot be read. -/
def look {α : Type} (x : ι) (missing : α) (view : Table Datum → α) : Program ι α := do
  return (← inspect x view).toOption.getD missing

/-- Changes a table, and answers with what came of it. -/
def change {α : Type} (x : ι) (act : Table Datum → α × Table Datum) :
    Program ι (Except TableFault α) :=
  write x fun t => done (act t)

/-- Changes a table by an insertion, which may be refused and then leaves it as it was. Answers with
the handle of the new row. -/
def insert (x : ι) (act : Table Datum → Except TableFault (Table Datum)) :
    Program ι (Except TableFault Handle) := do
  let inserted ← change x fun t =>
    match act t with
    | .ok t' => (.ok t.nextHandle, t')
    | .error fault => (.error fault, t)
  return inserted.bind id

variable (C : Catalogue)

/-- Inserts an entry. -/
def add (x : ι) (e : Entry Datum) : Program ι (Except TableFault Handle) :=
  insert x (·.add C e)

/-- Inserts a key with a value under the inferred kind. -/
def addInferred (x : ι) (key value : Datum) : Program ι (Except TableFault Handle) :=
  insert x (·.addInferred C key value)

/-- Inserts a copy of an entry. -/
def addCopied (x : ι) (e : Entry Datum) : Program ι (Except TableFault Handle) :=
  insert x (·.addCopied C e)

/-- Removes the oldest entry with a key, and answers with it. -/
def remove (x : ι) (key : Datum) : Program ι (Except TableFault (Option (Entry Datum))) :=
  change x fun t =>
    match t.remove? C key with
    | some (e, t') => (some e, t')
    | none => (none, t)

/-- Removes every entry. -/
def clear (x : ι) : Program ι (Except TableFault Unit) :=
  change x fun t => ((), t.clear)

/-- Does something with the oldest row with a key while the table is being read. Nothing is done if
there is none or the table cannot be read. -/
def withEntry {α : Type} (x : ι) (key : Datum) (body : Row Datum → Program ι α) :
    Program ι (Option α) := do
  let found ← read x fun t =>
    match t.find? C key with
    | some r => do return some (← body r)
    | none => return none
  return found.toOption.bind id

/-- A copy of the value of the oldest entry with a key. -/
def get? (x : ι) (key : Datum) : Program ι (Option Datum) := do
  return (← withEntry C x key fun r => done (r.kind.copy C r.value)).bind id

/-- Whether there is an entry with a key. -/
def contains (x : ι) (key : Datum) : Program ι Bool := look x false (·.contains C key)

/-- The bucket of a key. -/
def bucketOf (x : ι) (key : Datum) : Program ι Nat := look x 0 (·.bucketOf C key)

/-- How many rows there are. -/
def size (x : ι) : Program ι Nat := look x 0 (·.size)

/-- Whether there are no rows. -/
def isEmpty (x : ι) : Program ι Bool := do return (← size x) == 0

/-- How many buckets there are. -/
def capacity (x : ι) : Program ι Nat := look x 0 (·.capacity)

/-- The kind of the keys. -/
def keyKind? (x : ι) : Program ι (Option Kind) := look x none fun t => some t.keyKind

/-- A copy of the table. -/
def copy (x : ι) : Program ι (Except TableFault (Table Datum)) := inspect x (·.copy C)

/-- How two tables compare. A table compared with itself only needs to be readable. -/
def compare [DecidableEq ι] (x y : ι) : Program ι (Except TableFault Ordering) :=
  if x = y then inspect x fun _ => .eq
  else do
    let compared ← read x fun t => inspect y fun u => t.order C u
    return compared.bind id

/-- The binary form of the table. -/
def encode (x : ι) : Program ι (Except TableFault Bytes) := do
  let encoded ← inspect x fun t => (t.encode C).mapError .wire
  return encoded.bind id

/-- The text of the table as bytes. -/
def bytes (x : ι) : Program ι (Except TableFault Bytes) := inspect x fun t => Utf8.encode (t.format C)

/-- The text of the table, as it is shown. What kept it from being shown is not reported. -/
def format (x : ι) : Program ι (Except FormatFault String) := do
  let shown ← inspect x (·.format C)
  return shown.mapError fun _ => .failed

/-- The diagnostic text of the table. -/
def summary (x : ι) : Program ι String :=
  look x "SyncHashTable(<borrowed>)" fun t => "SyncHashTable(" ++ t.summary C ++ ")"

end OrderedTable.Program
