/-!
# What can go wrong

A fault names a cause and carries what is known about it; its wording is one function, `message`.

* `WireFault`: a binary form that cannot be written or read.
* `JsonFault`: a text that is not read as a JSON object.
* `TableFault`: a refused operation on a table, or one of the above.
* `FormatFault`: a text that is not shown.
-/

namespace OrderedTable

/-- Why a binary form cannot be written or read. -/
inductive WireFault where
  /-- The input ends before what is being read does. -/
  | truncated (needed available : Nat)
  /-- The input does not start with the marker. -/
  | badMarker (found : Nat)
  /-- The version is not the one that is read here. -/
  | unsupportedVersion (found : Nat)
  /-- No kind has this index. -/
  | unknownKind (index : Int)
  /-- The kind has no index to be written. -/
  | unregistered (kind : String)
  /-- The kind does not accept the value. -/
  | mismatch (kind : String)
  /-- A text is not UTF-8. -/
  | notUtf8
  /-- The input ends between two entries. -/
  | incomplete (expected decoded : Nat)
  /-- Lists and tables lie further inside one another than is read here. -/
  | tooDeep (limit : Nat)
  deriving DecidableEq, Repr

/-- Why a text is not read as a JSON object. -/
inductive JsonFault where
  /-- The position lies past the end of the text or inside a character. -/
  | outOfRange (position : Nat)
  /-- What starts at the position is no object. -/
  | notAnObject
  /-- The text is malformed, in the words of the library that reads it. -/
  | malformed (message : String)
  /-- The text ends before a value starts. -/
  | ended
  deriving DecidableEq, Repr

/-- Why an operation on a table is refused. -/
inductive TableFault where
  /-- The kind of the keys does not accept the key. -/
  | keyKind (kind : String)
  /-- The kind of the value does not accept the value. -/
  | valueKind (kind : String)
  /-- The table is in use further out. -/
  | busy
  | wire (fault : WireFault)
  | json (fault : JsonFault)
  deriving DecidableEq, Repr

/-- A text that is not shown. It cannot say why. -/
inductive FormatFault where
  | failed
  deriving DecidableEq, Repr

/-- A number below `2 ^ 16` as four hexadecimal digits. -/
def hexWord (n : Nat) : String :=
  let digits := Nat.toDigits 16 n
  String.ofList (List.replicate (4 - digits.length) '0' ++ digits)

namespace WireFault

/-- The wording of a fault. -/
def message : WireFault → String
  | truncated needed available =>
    "insufficient data: needed " ++ toString needed ++ " bytes, only " ++ toString available ++
      " available"
  | badMarker found => "unknown byte array marker 0x" ++ hexWord found
  | unsupportedVersion found => "unsupported format version " ++ toString found
  | unknownKind index => "no type registered for index " ++ toString index
  | unregistered kind => "type `" ++ kind ++ "` is not registered and cannot be encoded"
  | mismatch kind => "value does not match type `" ++ kind ++ "`"
  | notUtf8 => "invalid UTF-8 in string data"
  | incomplete expected decoded =>
    "expected " ++ toString expected ++ " entries, decoded " ++ toString decoded
  | tooDeep limit => "nesting deeper than " ++ toString limit ++ " levels"

end WireFault

namespace JsonFault

/-- The wording of a fault. -/
def message : JsonFault → String
  | outOfRange position => "position " ++ toString position ++ " is out of range"
  | notAnObject => "expected a JSON object"
  | malformed message => message
  | ended => "unexpected end of input"

end JsonFault

namespace TableFault

/-- The wording of a fault. -/
def message : TableFault → String
  | keyKind kind => "key does not match key type `" ++ kind ++ "`"
  | valueKind kind => "value does not match value type `" ++ kind ++ "`"
  | busy => "table is already borrowed by this thread"
  | wire fault => fault.message
  | json fault => "malformed JSON input: " ++ fault.message

end TableFault

/-! ## Outcomes -/

/-- A computation that goes on has a result only if both of its steps do. -/
theorem ok_of_bind {ε α β : Type} {x : Except ε α} {f : α → Except ε β} {b : β}
    (h : x >>= f = .ok b) : ∃ a, x = .ok a ∧ f a = .ok b := by
  cases x with
  | error fault => cases h
  | ok a => exact ⟨a, rfl, h⟩

/-- What has a result goes on with it. -/
theorem ok_bind {ε α β : Type} (a : α) (f : α → Except ε β) : Except.ok a >>= f = f a := rfl

/-- A result that was mapped was one before. -/
theorem ok_of_map {ε α β : Type} {x : Except ε α} {g : α → β} {b : β} (h : x.map g = .ok b) :
    ∃ a, x = .ok a ∧ g a = b := by
  cases x with
  | error fault => cases h
  | ok a => exact ⟨a, rfl, Except.ok.inj h⟩

/-- What can be said of a result is said of one that is there. -/
theorem ok_of_any {ε α : Type} {x : Except ε α} {p : α → Bool} (h : x.toOption.any p = true) :
    ∃ a, x = .ok a ∧ p a = true := by
  cases x with
  | error fault => cases h
  | ok a => exact ⟨a, rfl, h⟩

/-- What goes on without a fault for each member goes on without a fault for all. -/
theorem ok_mapM {ε α β : Type} {l : List α} {f : α → Except ε β} {g : α → β} (h : ∀ a ∈ l, f a = .ok (g a)) :
    l.mapM f = .ok (l.map g) := by
  induction l with
  | nil => rfl
  | cons a l ih =>
    obtain ⟨ha, hl⟩ := List.forall_mem_cons.1 h
    rw [List.mapM_cons, ha, ok_bind, ih hl, ok_bind, List.map_cons]
    rfl

end OrderedTable
