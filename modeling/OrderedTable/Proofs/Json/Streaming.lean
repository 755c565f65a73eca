import OrderedTable.Proofs.Json.Known
import OrderedTable.Proofs.Json.Making
import OrderedTable.Proofs.Order.Specimens

/-!
# Reading one JSON object after another

A call of `Json.Cursor.next` moves the cursor as soon as a value was read, and makes the table only then. Making a
table can refuse entries, but it never does for what a JSON value becomes (`Json.exists_toTable`), and what was read
behind an opening brace is an object (`Json.Library.Streams.exists_objectText`). So a call that fails has not moved
the cursor (`Json.Cursor.outcome_next`).

An object is read wherever it stands, whatever comes before and after it (`Json.Cursor.next_of_object`), and the
cursor is behind its closing brace then. So objects that stand one after another, with spaces between them, are read
by one call each (`Json.Cursor.calls_pieces`).

Of the library it is assumed that it reports where a value ends, passes over spaces before it, and does not examine
what follows an object (`Json.Library.Streams`).
-/

namespace OrderedTable

namespace Json

variable {L : Library} {C : Catalogue}

/-! ## One call -/

namespace Cursor

/-- What a call may answer, and the cursor afterwards. -/
inductive Outcome (L : Library) (C : Catalogue) (c : Cursor) : Except TableFault (Table Datum) × Cursor → Prop
  /-- No part of the text ends at the position: it is past the end or inside a character. -/
  | outOfRange (h : ∀ before after, c.text.toList = before ++ after → Text.byteLength before ≠ c.position) :
    Outcome L C c (.error (.json (.outOfRange c.position)), c)
  /-- There is no brace at the position, behind blanks. -/
  | notAnObject {before after : List Char} (split : c.text.toList = before ++ after)
      (here : Text.byteLength before = c.position)
      (bare : (Text.dropBlanks after).head? ≠ some '\x7b') : Outcome L C c (.error (.json .notAnObject), c)
  /-- There is a brace, but the library finds no value, and no object starts there. -/
  | malformed {before after : List Char} {fault : JsonFault} (split : c.text.toList = before ++ after)
      (here : Text.byteLength before = c.position) (brace : (Text.dropBlanks after).head? = some '\x7b')
      (wording : fault = .ended ∨ ∃ message, fault = .malformed message)
      (broken : ∀ spaces object rest members, after = spaces ++ (object ++ rest) →
        (∀ c ∈ spaces, isSpace c) → ¬ L.ObjectText object members) :
      Outcome L C c (.error (.json fault), c)
  /-- There is an object, and the cursor moves behind it. -/
  | object {before spaces object rest : List Char} {members : List (String × Json)} {t : Table Datum}
      (split : c.text.toList = before ++ (spaces ++ (object ++ rest)))
      (here : Text.byteLength before = c.position) (gap : ∀ c ∈ spaces, isSpace c)
      (written : L.ObjectText object members) (made : toTable C members = .ok t) :
      Outcome L C c (.ok t, { c with position := Text.byteLength (before ++ (spaces ++ object)) })

/-- An object is read wherever it stands, and nothing else of the text is looked at. -/
theorem next_of_object (hL : L.Streams) {before spaces object : List Char} {members : List (String × Json)}
    (gap : ∀ c ∈ spaces, isSpace c) (written : L.ObjectText object members) {c : Cursor} {rest : List Char}
    (split : c.text.toList = before ++ (spaces ++ (object ++ rest)))
    (here : Text.byteLength before = c.position) :
    c.next L C = (toTable C members, { c with position := Text.byteLength (before ++ (spaces ++ object)) }) := by
  obtain ⟨after, hbrace⟩ := List.head?_eq_some_iff.1 (written.dropBlanks_append hL gap rest)
  have hafter : Text.afterBytes? c.position c.text.toList = some (spaces ++ (object ++ rest)) :=
    Text.afterBytes?_eq_some_iff.2 ⟨before, split, here⟩
  have hmoved : c.position + Text.byteLength (spaces ++ object) =
      Text.byteLength (before ++ (spaces ++ object)) := by rw [Text.byteLength_append before, here]
  simp only [next, hafter, hbrace, written.read_append hL gap rest, hmoved]

/-- Where no value is found behind a brace, no object starts. -/
theorem not_objectText (hL : L.Streams) {after : List Char}
    (h : ∀ members length, L.first? after ≠ some (.ok (.object members, length))) {spaces object rest : List Char}
    {members : List (String × Json)} (hafter : after = spaces ++ (object ++ rest)) (gap : ∀ c ∈ spaces, isSpace c) :
    ¬ L.ObjectText object members := by
  intro written
  subst hafter
  exact h _ _ (written.read_append hL gap rest)

/-- Every call answers in one of these ways. -/
theorem outcome_next (hL : L.Streams) (c : Cursor) : Outcome L C c (c.next L C) := by
  cases hafter : Text.afterBytes? c.position c.text.toList with
  | none =>
    have hnext : c.next L C = (.error (.json (.outOfRange c.position)), c) := by simp only [next, hafter]
    rw [hnext]
    refine .outOfRange fun before after split here => ?_
    rw [Text.afterBytes?_eq_some_iff.2 ⟨before, split, here⟩] at hafter
    cases hafter
  | some cs =>
    obtain ⟨before, split, here⟩ := Text.afterBytes?_eq_some_iff.1 hafter
    by_cases hbrace : (Text.dropBlanks cs).head? = some '\x7b'
    · obtain ⟨after, hdrop⟩ := List.head?_eq_some_iff.1 hbrace
      -- behind a brace, all depends on what the library makes of the text
      cases hread : L.first? cs with
      | none =>
        have hnext : c.next L C = (.error (.json .ended), c) := by simp only [next, hafter, hdrop, hread]
        rw [hnext]
        exact .malformed split here hbrace (.inl rfl) fun _ _ _ _ hcs gap =>
          not_objectText hL (fun _ _ heq => nomatch hread.symm.trans heq) hcs gap
      | some read =>
        cases read with
        | error message =>
          have hnext : c.next L C = (.error (.json (.malformed message)), c) := by
            simp only [next, hafter, hdrop, hread]
          rw [hnext]
          exact .malformed split here hbrace (.inr ⟨message, rfl⟩) fun _ _ _ _ hcs gap =>
            not_objectText hL (fun _ _ heq => nomatch hread.symm.trans heq) hcs gap
        | ok read =>
          obtain ⟨spaces, object, rest, members, -, rfl, gap, written, -⟩ := hL.exists_objectText hbrace hread
          obtain ⟨t, made⟩ := exists_toTable C members
          rw [next_of_object hL gap written split here, made]
          exact .object split here gap written made
    · have hnext : c.next L C = (.error (.json .notAnObject), c) := by
        simp only [next, hafter]
        split
        · next hdrop => exact absurd (congrArg List.head? hdrop) hbrace
        · rfl
      rw [hnext]
      exact .notAnObject split here hbrace

/-! ## Many calls -/

/-- What a number of calls answer one after another, and the cursor afterwards. -/
def calls (L : Library) (C : Catalogue) : Nat → Cursor → List (Except TableFault (Table Datum)) × Cursor
  | 0, c => ([], c)
  | n + 1, c =>
    let (answer, c) := c.next L C
    let (answers, c) := calls L C n c
    (answer :: answers, c)

end Cursor

/-- An object in a stream, with the spaces before it. -/
structure Piece where
  spaces : List Char
  object : List Char
  members : List (String × Json)

namespace Piece

def text (p : Piece) : List Char := p.spaces ++ p.object

/-- The text is that of the members, behind nothing but spaces. -/
structure Written (L : Library) (p : Piece) : Prop where
  gap : ∀ c ∈ p.spaces, isSpace c
  written : L.ObjectText p.object p.members

end Piece

/-- One call for each object of a stream, from where the first one starts. -/
theorem Cursor.calls_pieces (hL : L.Streams) {pieces : List Piece} (h : ∀ p ∈ pieces, p.Written L) {c : Cursor}
    {before rest : List Char} (split : c.text.toList = before ++ (pieces.flatMap Piece.text ++ rest))
    (here : Text.byteLength before = c.position) :
    c.calls L C pieces.length = (pieces.map fun p => toTable C p.members,
      { c with position := Text.byteLength (before ++ pieces.flatMap Piece.text) }) := by
  -- the cursor stands before the first piece, and after one call before the next
  induction pieces generalizing c before with
  | nil =>
    rw [List.flatMap_nil, List.append_nil, here]
    rfl
  | cons p pieces ih =>
    obtain ⟨⟨gap, written⟩, hpieces⟩ := List.forall_mem_cons.1 h
    rw [List.flatMap_cons, Piece.text] at split ⊢
    have hfirst : c.text.toList =
        before ++ (p.spaces ++ (p.object ++ (pieces.flatMap Piece.text ++ rest))) := by
      simpa using split
    have hothers : c.text.toList =
        before ++ (p.spaces ++ p.object) ++ (pieces.flatMap Piece.text ++ rest) := by
      simpa using split
    have hnext := next_of_object (C := C) hL gap written hfirst here
    have hcalls := ih hpieces (c := { c with position := Text.byteLength (before ++ (p.spaces ++ p.object)) })
      hothers rfl
    rw [List.append_assoc] at hcalls
    simp only [List.length_cons, calls, hnext, hcalls, List.map_cons]

/-- The objects of a stream all become tables. -/
theorem exists_tables (C : Catalogue) (pieces : List Piece) :
    ∃ tables : List (Table Datum), pieces.map (fun p => toTable C p.members) = tables.map .ok := by
  induction pieces with
  | nil => exact ⟨[], rfl⟩
  | cons p pieces ih =>
    obtain ⟨t, made⟩ := exists_toTable C p.members
    obtain ⟨tables, htables⟩ := ih
    exact ⟨t :: tables, by rw [List.map_cons, made, htables, List.map_cons]⟩

/-- A call that fails leaves the cursor where it is, and fails only for what the text is at the position
(`Outcome`). A call that answers with a table moves the cursor behind the closing brace of the object that starts
there, behind spaces, and so it does in every text that has this object at the position. Hence as many calls as
there are objects in a stream answer with their tables in order. -/
theorem Cursor.next_atomic_streaming (L : Library) (streams : L.Streams) (C : Catalogue) :
    (∀ c : Cursor, Outcome L C c (c.next L C)) ∧
    (∀ (c : Cursor) (fault : TableFault), (c.next L C).1 = .error fault → (c.next L C).2 = c) ∧
    (∀ (object : List Char) (members : List (String × Json)), L.ObjectText object members →
      ∃ t, toTable C members = .ok t ∧ ∀ before spaces rest : List Char, (∀ c ∈ spaces, isSpace c) →
        let text := String.ofList (before ++ (spaces ++ (object ++ rest)))
        next L C ⟨text, Text.byteLength before⟩ =
          (.ok t, ⟨text, Text.byteLength (before ++ (spaces ++ object))⟩)) ∧
    ∀ (pieces : List Piece) (rest : List Char), (∀ p ∈ pieces, p.Written L) →
      ∃ tables : List (Table Datum), pieces.map (fun p => toTable C p.members) = tables.map .ok ∧
        let text := String.ofList (pieces.flatMap Piece.text ++ rest)
        calls L C pieces.length ⟨text, 0⟩ =
          (tables.map .ok, ⟨text, Text.byteLength (pieces.flatMap Piece.text)⟩) := by
  refine ⟨outcome_next streams, fun c fault hfault => ?_, fun object members written => ?_,
    fun pieces rest h => ?_⟩
  · have houtcome := outcome_next (C := C) streams c
    generalize c.next L C = r at *
    cases houtcome with
    | outOfRange | notAnObject | malformed => rfl
    | object => cases hfault
  · obtain ⟨t, made⟩ := exists_toTable C members
    refine ⟨t, made, fun before spaces rest gap => ?_⟩
    rw [← made]
    exact next_of_object streams gap written String.toList_ofList rfl
  · obtain ⟨tables, htables⟩ := exists_tables C pieces
    refine ⟨tables, htables, ?_⟩
    rw [← htables]
    exact @calls_pieces L C streams pieces h ⟨_, 0⟩ [] rest String.toList_ofList rfl

/-- Two objects, the second of them behind spaces and with a name of two bytes, and a letter after them. A position
inside the name is none to read at. -/
theorem Cursor.next_atomic_streaming_gapped :
    let C := Catalogue.specimens
    let second : Piece := ⟨['\n', ' '], ['\x7b', '"', 'é', '"', ':', '[', '7', ']', '\x7d'],
      [("é", .array [.number (.int 7 (.inl rfl))])]⟩
    let pieces : List Piece := [⟨[], ['\x7b', '\x7d'], []⟩, second]
    let L := Library.knowing (pieces.map fun p => (p.object, p.members))
    let text := String.ofList (pieces.flatMap Piece.text ++ ['x'])
    L.Streams ∧ (∀ p ∈ pieces, p.Written L) ∧
      (∃ t u, toTable C [] = .ok t ∧ toTable C second.members = .ok u ∧
        calls L C 2 ⟨text, 0⟩ = ([.ok t, .ok u], ⟨text, 14⟩)) ∧
      (∃ fault, (next L C ⟨text, 7⟩).1 = .error fault) ∧ (next L C ⟨text, 7⟩).2 = ⟨text, 7⟩ := by
  intro C second pieces L text
  have hknown : Library.Known (pieces.map fun p => (p.object, p.members)) := by
    refine ⟨List.pairwise_pair.2 (by decide), ?_, ?_⟩
    · exact List.forall_mem_cons.2
        ⟨⟨[], rfl⟩, List.forall_mem_singleton.2 ⟨['"', 'é', '"', ':', '[', '7', ']'], rfl⟩⟩
    · refine List.forall_mem_cons.2 ⟨.object .nil nofun, List.forall_mem_singleton.2 ?_⟩
      exact .object (List.pairwise_singleton _ _)
        (List.forall_mem_singleton.2 (.array (List.forall_mem_singleton.2 (.number _))))
  have hwritten : ∀ p ∈ pieces, p.Written L := by
    refine List.forall_mem_cons.2 ⟨?_, List.forall_mem_singleton.2 ?_⟩
    · exact ⟨List.all_eq_true.1 rfl, ⟨[], rfl⟩, rfl⟩
    · exact ⟨List.all_eq_true.1 rfl, ⟨['"', 'é', '"', ':', '[', '7', ']'], rfl⟩, rfl⟩
  obtain ⟨-, herror, -, hmany⟩ := next_atomic_streaming L hknown.streams C
  have hfault : (next L C ⟨text, 7⟩).1 = .error (.json (.outOfRange 7)) := by
    have hnone : Text.afterBytes? 7 text.toList = none := by
      rw [String.toList_ofList]
      decide
    simp only [next, hnone]
  obtain ⟨tables, htables, hcalls⟩ := hmany pieces ['x'] hwritten
  obtain ⟨t, ht⟩ := exists_toTable C []
  obtain ⟨u, hu⟩ := exists_toTable C second.members
  have hanswers : (tables.map .ok : List (Except TableFault (Table Datum))) = [.ok t, .ok u] := by
    rw [← htables, ← ht, ← hu]
    rfl
  rw [hanswers] at hcalls
  exact ⟨hknown.streams, hwritten, ⟨t, u, ht, hu, hcalls⟩, ⟨_, hfault⟩, herror _ _ hfault⟩

end Json

end OrderedTable
