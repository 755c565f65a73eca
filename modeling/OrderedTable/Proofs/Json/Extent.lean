import OrderedTable.Json.Import
import OrderedTable.Proofs.Text.Positions

/-!
# How far a JSON value extends

`Json.Library.Streams` is what the import relies on of the library's reader: it reports where the text of the
first value ends, it passes over spaces before that text, and it does not examine what follows an object. Of the
grammar it takes with which characters a value may start, and that an object ends with its brace.

`Json.Library.ObjectText` says that a text is that of an object, read by itself. Where a brace is the first
character that is not blank, a value that is read there is an object with such a text
(`Library.Streams.exists_objectText`); and wherever such a text stands behind spaces, the object is read
(`Library.ObjectText.read_append`).
-/

namespace OrderedTable.Json

/-! ## What is relied on -/

/-- The four characters that may stand around a value. -/
def isSpace (c : Char) : Bool := c = ' ' || c = '\t' || c = '\n' || c = '\r'

/-- The characters that the text of a value may start with. -/
def firstChars : Json → List Char
  | .null => ['n']
  | .bool b => [if b then 't' else 'f']
  | .number _ => ['-', '0', '1', '2', '3', '4', '5', '6', '7', '8', '9']
  | .string _ => ['"']
  | .array _ => ['[']
  | .object _ => ['\x7b']

/-- Whether a value is an object. -/
def isObject : Json → Bool
  | .object _ => true
  | _ => false

/-- What the grammar says of the two ends of a value's text. -/
structure Spells (text : List Char) (x : Json) : Prop where
  first : ∃ c ∈ x.firstChars, text.head? = some c
  last : x.isObject → text.getLast? = some '\x7d'

/-- What is relied on of the reader of a library. -/
structure Library.Streams (L : Library) : Prop where
  /-- A value that is read has its text behind spaces, and the position behind the text is reported. -/
  located {cs : List Char} {x : Json} {length : Nat} (read : L.first? cs = some (.ok (x, length))) :
    ∃ spaces text rest, cs = spaces ++ (text ++ rest) ∧ (∀ c ∈ spaces, isSpace c) ∧ Spells text x ∧
      length = Text.byteLength (spaces ++ text)
  /-- Spaces before a value make no difference to it. -/
  spaced {spaces : List Char} (gap : ∀ c ∈ spaces, isSpace c) (cs : List Char) (x : Json) (length : Nat) :
    L.first? (spaces ++ cs) = some (.ok (x, Text.byteLength spaces + length)) ↔
      L.first? cs = some (.ok (x, length))
  /-- What follows an object is not examined. -/
  unexamined {text rest : List Char} {members : List (String × Json)}
    (read : L.first? (text ++ rest) = some (.ok (.object members, Text.byteLength text))) (other : List Char) :
    L.first? (text ++ other) = some (.ok (.object members, Text.byteLength text))

/-- The text is in braces, and is read as the object with the members. -/
structure Library.ObjectText (L : Library) (object : List Char) (members : List (String × Json)) : Prop where
  braced : ∃ inner, object = '\x7b' :: (inner ++ ['\x7d'])
  read : L.first? object = some (.ok (.object members, Text.byteLength object))

/-! ## Where a value starts -/

/-- What may stand around a value is blank. -/
theorem isBlank_of_isSpace {c : Char} (h : isSpace c) : Text.isBlank c := by
  simp only [isSpace, Bool.or_eq_true, decide_eq_true_eq] at h
  rcases h with ((rfl | rfl) | rfl) | rfl <;> decide

/-- No value starts with a blank. -/
theorem isBlank_of_mem_firstChars {x : Json} {c : Char} (h : c ∈ x.firstChars) : Text.isBlank c = false := by
  have hall : ∀ cs : List Char, cs.all (fun c => !Text.isBlank c) → c ∈ cs → Text.isBlank c = false :=
    fun cs hcs hc => by simpa using List.all_eq_true.1 hcs c hc
  cases x with
  | bool b => cases b <;> exact hall _ rfl h
  | null | number | string | array | object => exact hall _ rfl h

/-- Only objects start with a brace. -/
theorem isObject_of_mem_firstChars {x : Json} (h : '\x7b' ∈ x.firstChars) : x.isObject := by
  have helem : x.firstChars.elem '\x7b' = true := List.elem_eq_true_of_mem h
  cases x with
  | bool b => cases b <;> exact absurd helem Bool.false_ne_true
  | null | number | string | array => exact absurd helem Bool.false_ne_true
  | object => rfl

/-- Behind spaces, the first character of a text that is not blank is the first one of the value. -/
theorem Spells.dropBlanks_append {spaces text : List Char} {x : Json} (h : Spells text x)
    (gap : ∀ c ∈ spaces, isSpace c) (rest : List Char) :
    ∃ c ∈ x.firstChars, (Text.dropBlanks (spaces ++ (text ++ rest))).head? = some c := by
  obtain ⟨c, hc, hhead⟩ := h.first
  obtain ⟨after, rfl⟩ := List.head?_eq_some_iff.1 hhead
  refine ⟨c, hc, ?_⟩
  have hblank : ¬ Text.isBlank c = true := by rw [isBlank_of_mem_firstChars hc]; decide
  rw [Text.dropBlanks, List.dropWhile_append_of_pos fun c hc => isBlank_of_isSpace (gap c hc), List.cons_append,
    List.dropWhile_cons_of_neg hblank]
  rfl

/-- The text of an object is in braces. -/
theorem Spells.braced {text : List Char} {members : List (String × Json)} (h : Spells text (.object members)) :
    ∃ inner, text = '\x7b' :: (inner ++ ['\x7d']) := by
  obtain ⟨c, hc, hhead⟩ := h.first
  obtain ⟨after, rfl⟩ := List.head?_eq_some_iff.1 hhead
  cases List.mem_singleton.1 hc
  obtain ⟨before, hbefore⟩ := List.getLast?_eq_some_iff.1 (h.last rfl)
  cases before with
  | nil => cases hbefore
  | cons first inner =>
    obtain ⟨-, rfl⟩ := List.cons.inj hbefore
    exact ⟨inner, rfl⟩

namespace Library

variable {L : Library}

/-- An object is read only where its brace is the first character that is not blank. -/
theorem Streams.head?_dropBlanks (hL : L.Streams) {cs : List Char} {members : List (String × Json)} {length : Nat}
    (h : L.first? cs = some (.ok (.object members, length))) : (Text.dropBlanks cs).head? = some '\x7b' := by
  obtain ⟨spaces, text, rest, rfl, gap, spells, -⟩ := hL.located h
  obtain ⟨c, hc, hhead⟩ := spells.dropBlanks_append gap rest
  cases List.mem_singleton.1 hc
  exact hhead

/-- Where a brace is the first character that is not blank, only an object is read, and there is its text. -/
theorem Streams.exists_objectText (hL : L.Streams) {cs : List Char} {x : Json} {length : Nat}
    (brace : (Text.dropBlanks cs).head? = some '\x7b') (h : L.first? cs = some (.ok (x, length))) :
    ∃ spaces object rest members, x = .object members ∧ cs = spaces ++ (object ++ rest) ∧
      (∀ c ∈ spaces, isSpace c) ∧ L.ObjectText object members ∧ length = Text.byteLength (spaces ++ object) := by
  obtain ⟨spaces, object, rest, rfl, gap, spells, rfl⟩ := hL.located h
  obtain ⟨c, hc, hhead⟩ := spells.dropBlanks_append gap rest
  cases hhead.symm.trans brace
  have hobject := isObject_of_mem_firstChars hc
  cases x with
  | object members =>
    refine ⟨spaces, object, rest, members, rfl, rfl, gap, ⟨spells.braced, ?_⟩, rfl⟩
    -- without the spaces before it and the rest behind it, the text is read as it was with them
    rw [Text.byteLength_append, hL.spaced gap] at h
    simpa using hL.unexamined h []
  | null | bool | number | string | array => cases hobject

namespace ObjectText

variable {object spaces : List Char} {members : List (String × Json)}

/-- An object is read wherever it stands behind spaces, whatever follows it. -/
theorem read_append (h : L.ObjectText object members) (hL : L.Streams) (gap : ∀ c ∈ spaces, isSpace c)
    (rest : List Char) : L.first? (spaces ++ (object ++ rest)) =
      some (.ok (.object members, Text.byteLength (spaces ++ object))) := by
  have hread : L.first? (object ++ []) = some (.ok (.object members, Text.byteLength object)) := by
    rw [List.append_nil]
    exact h.read
  rw [Text.byteLength_append, hL.spaced gap]
  exact hL.unexamined hread rest

/-- Behind spaces, its brace is the first character that is not blank. -/
theorem dropBlanks_append (h : L.ObjectText object members) (hL : L.Streams) (gap : ∀ c ∈ spaces, isSpace c)
    (rest : List Char) : (Text.dropBlanks (spaces ++ (object ++ rest))).head? = some '\x7b' :=
  hL.head?_dropBlanks (h.read_append hL gap rest)

end ObjectText

end Library

end OrderedTable.Json
