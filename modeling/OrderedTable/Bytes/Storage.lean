import OrderedTable.Bytes.Basic

/-!
# Where bytes are kept

The bytes behind a text or byte value are either the value's own or a window on a buffer that the
value shares with whatever it was decoded from. The two are told apart only by `isShared`: every
reader goes through `Storage.bytes`.
-/

namespace OrderedTable

/-- Bytes that a value holds itself, or sees through a window on a shared buffer. -/
inductive Storage where
  | owned (bytes : Bytes)
  | shared (buffer : Bytes) (start length : Nat)
  deriving DecidableEq, Repr

namespace Storage

/-- The bytes themselves, wherever they are kept. -/
def bytes : Storage → Bytes
  | owned bs => bs
  | shared buffer start length => (buffer.drop start).take length

/-- Whether the bytes are seen through a window. -/
def isShared : Storage → Bool
  | owned _ => false
  | shared .. => true

/-- The same bytes, no longer shared. -/
def detached (s : Storage) : Storage :=
  owned s.bytes

/-- Detaching text or bytes leaves them as they are. -/
@[simp] theorem bytes_detached (s : Storage) : s.detached.bytes = s.bytes := rfl

/-- Once detached, nothing is shared with a buffer. -/
@[simp] theorem isShared_detached (s : Storage) : s.detached.isShared = false := rfl

end Storage

end OrderedTable
