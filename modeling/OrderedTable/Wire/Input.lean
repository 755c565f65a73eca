import OrderedTable.Bytes.Storage

/-!
# Input to a decoder

A decoder sees the bytes from where it stands to the end of the input. It is told besides whether
what it decodes may share the buffer that these bytes belong to, and how many lists and tables it is
inside of. `Input.storage` is the one place where the two modes differ.
-/

namespace OrderedTable

/-- The bytes ahead, the buffer they may be shared with and where in it they start, and the depth. -/
structure Input where
  bytes : Bytes
  origin : Option (Bytes × Nat)
  depth : Nat
  deriving DecidableEq, Repr

namespace Input

/-- Input whose bytes are copied into what is decoded. -/
def copied (bytes : Bytes) : Input := ⟨bytes, none, 0⟩

/-- Input that what is decoded shares. -/
def inPlace (buffer : Bytes) : Input := ⟨buffer, some (buffer, 0), 0⟩

/-- Whether what is decoded shares the input. -/
def isInPlace (input : Input) : Bool := input.origin.isSome

/-- The input after its next `n` bytes, or after all of them if there are fewer. -/
def advance (input : Input) (n : Nat) : Input :=
  { input with
    bytes := input.bytes.drop n
    origin := input.origin.map fun (buffer, start) => (buffer, start + min n input.bytes.length) }

/-- The deepest count of enclosing structures that is told apart. -/
def maxDepth : Nat := 65535

/-- The same input one list or table further in. -/
def nested (input : Input) : Input :=
  { input with depth := min (input.depth + 1) maxDepth }

/-- The `length` bytes after the next `start`, kept as this input asks. -/
def storage (input : Input) (start length : Nat) : Storage :=
  match input.origin with
  | some (buffer, offset) => .shared buffer (offset + start) length
  | none => .owned ((input.bytes.drop start).take length)

end Input

end OrderedTable
