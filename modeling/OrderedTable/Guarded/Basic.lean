import OrderedTable.Table.Walk

/-!
# Guarded tables

A guarded table may be entered again by a program that is inside it already: a read inside reads, but
nothing inside a write, and no write inside a read. What is not admitted is refused at once as busy,
and a refusal changes nothing.

* A `Guarded` table knows how many reads it is inside of and whether it is inside a write.
* A `Program` runs over several guarded tables. Its reads and writes have bodies, which are programs
  again and may depend on what they see.
* `Program.run` carries a program out on guarded tables. What it answers says what was refused.
* `Program.carry` says the same by the accesses around a step, without any marks on the tables: it is
  the rule that the marks are there to keep.
-/

namespace OrderedTable

/-- A table with the reads and writes that are inside it. -/
structure Guarded where
  table : Table Datum
  readers : Nat
  writing : Bool

namespace Guarded

/-- A table that nothing is inside of. -/
def free (t : Table Datum) : Guarded := ⟨t, 0, false⟩

/-- Whether nothing is inside the table. -/
def isFree (g : Guarded) : Bool := g.readers = 0 && !g.writing

/-- Whether a read is admitted. -/
def admitsRead (g : Guarded) : Bool := !g.writing

/-- Whether a write is admitted. -/
def admitsWrite (g : Guarded) : Bool := g.isFree

/-- A read goes in. -/
def enterRead (g : Guarded) : Guarded := { g with readers := g.readers + 1 }

/-- A read comes out. -/
def leaveRead (g : Guarded) : Guarded := { g with readers := g.readers - 1 }

/-- A write goes in. -/
def enterWrite (g : Guarded) : Guarded := { g with writing := true }

/-- A write comes out and leaves a table behind. -/
def leaveWrite (t : Table Datum) (g : Guarded) : Guarded := { g with table := t, writing := false }

end Guarded

/-- Guarded tables by name. -/
abbrev Guards (ι : Type) := ι → Guarded

/-- One of the tables changed. -/
def Guards.modify {ι : Type} [DecidableEq ι] (s : Guards ι) (x : ι) (change : Guarded → Guarded) :
    Guards ι :=
  fun y => if y = x then change (s x) else s y

/-- A program over guarded tables named by `ι`, by what it answers. -/
inductive Program (ι : Type) : Type → Type 1 where
  /-- Answers. -/
  | done {α : Type} (answer : α) : Program ι α
  /-- Goes on with what was answered. -/
  | andThen {α β : Type} (first : Program ι α) (rest : α → Program ι β) : Program ι β
  /-- Does something while a table is being read. -/
  | read {α : Type} (x : ι) (body : Table Datum → Program ι α) : Program ι (Except TableFault α)
  /-- Does something while a table is being written, and leaves another table in its place. -/
  | write {α : Type} (x : ι) (body : Table Datum → Program ι (α × Table Datum)) :
      Program ι (Except TableFault α)

namespace Program

variable {ι : Type}

instance : Monad (Program ι) where
  pure := done
  bind := andThen

variable [DecidableEq ι]

/-- What a program answers, and what becomes of the tables. -/
def run {α : Type} (s : Guards ι) : Program ι α → α × Guards ι
  | done answer => (answer, s)
  | andThen first rest =>
    let (a, s) := run s first
    run s (rest a)
  | read x body =>
    if (s x).admitsRead then
      let (a, s) := run (s.modify x .enterRead) (body (s x).table)
      (.ok a, s.modify x .leaveRead)
    else (.error .busy, s)
  | write x body =>
    if (s x).admitsWrite then
      let ((a, t), s) := run (s.modify x .enterWrite) (body (s x).table)
      (.ok a, s.modify x (.leaveWrite t))
    else (.error .busy, s)

/-! ## The rule by what is around a step -/

/-- A read or a write that a step is inside of. -/
inductive Access (ι : Type) where
  | reading (x : ι)
  | writing (x : ι)
  deriving DecidableEq

/-- What a program answers inside some accesses, and what becomes of plain tables. A read is refused
exactly inside a write of its table, a write inside any access to it. -/
def carry {α : Type} (around : List (Access ι)) (s : ι → Table Datum) :
    Program ι α → α × (ι → Table Datum)
  | done answer => (answer, s)
  | andThen first rest =>
    let (a, s) := carry around s first
    carry around s (rest a)
  | read x body =>
    if .writing x ∈ around then (.error .busy, s)
    else
      let (a, s) := carry (.reading x :: around) s (body (s x))
      (.ok a, s)
  | write x body =>
    if .reading x ∈ around ∨ .writing x ∈ around then (.error .busy, s)
    else
      let ((a, t), s) := carry (.writing x :: around) s (body (s x))
      (.ok a, fun y => if y = x then t else s y)

end Program

end OrderedTable
