import OrderedTable.Kind.Copy
import OrderedTable.Table.Access

/-!
# Histories of a table

An `Operation` is one thing that can be asked of a table, an `Answer` what comes back. `Table.perform`
is a single step and `runWith` a history of steps, for the table and for whatever else takes the same
operations. Two such machines are compared step by step: `runWith_simulates` carries what one step
keeps, and that the answers agree, through a whole history.
-/

namespace OrderedTable

/-- What is asked of a table. -/
inductive Operation where
  | add (e : Entry Datum)
  | addInferred (key value : Datum)
  | addCopied (e : Entry Datum)
  /-- The oldest entry with a key. -/
  | find (key : Datum)
  /-- The value of the oldest entry with a key. -/
  | get (key : Datum)
  | contains (key : Datum)
  /-- The entry of a handle. -/
  | look (h : Handle)
  /-- Another value for the oldest entry with a key. -/
  | setValue (key value : Datum)
  | remove (key : Datum)
  | removeRow (h : Handle)
  | setValueKind (h : Handle) (k : Kind)
  | clear
  | setKeyKind (k : Kind)

/-- An entry with the handle it goes by. -/
structure Item where
  handle : Handle
  entry : Entry Datum

/-- What a row shows, wherever it stands. -/
def Row.item (r : Row Datum) : Item := ⟨r.handle, r.toEntry⟩

/-- What comes back. -/
inductive Answer where
  | done
  | refused (fault : TableFault)
  | added (h : Handle)
  | found (i : Option Item)
  | value (d : Option Datum)
  | flag (b : Bool)
  | removed (e : Option (Entry Datum))

namespace Answer

variable {σ : Type}

/-- What an insertion comes to: the state with the new entry, or the state as it was. -/
def insertion (s : σ) (h : Handle) : Except TableFault σ → σ × Answer
  | .ok s' => (s', .added h)
  | .error fault => (s, .refused fault)

/-- What giving an entry another value comes to. -/
def replacement (s : σ) : Option σ → σ × Answer
  | some s' => (s', .flag true)
  | none => (s, .flag false)

/-- What a removal comes to. -/
def removal (s : σ) : Option (Entry Datum × σ) → σ × Answer
  | some (e, s') => (s', .removed (some e))
  | none => (s, .removed none)

/-- What giving an entry another kind comes to. -/
def relabelling (s : σ) : Except TableFault σ → σ × Answer
  | .ok s' => (s', .done)
  | .error fault => (s, .refused fault)

end Answer

namespace Operation

/-- The key that an operation is about, if it is about one. -/
def key? : Operation → Option Datum
  | add e | addCopied e => some e.key
  | addInferred key _ | find key | get key | contains key | setValue key _ | remove key => some key
  | look _ | removeRow _ | setValueKind .. | clear | setKeyKind _ => none

/-- The kind that an operation has the keys read under from then on. -/
def keyKind? : Operation → Option Kind
  | setKeyKind k => some k
  | _ => none

/-- An operation that has the keys read under one base and its twin only. -/
def KeepsBase (b : Base) (op : Operation) : Prop := ∀ k, op.keyKind? = some k → k.base = b

end Operation

/-! ## Histories -/

section
variable {σ τ : Type}

/-- The state after a history, and the answers given on the way. -/
def runWith (step : σ → Operation → σ × Answer) : σ → List Operation → σ × List Answer
  | s, [] => (s, [])
  | s, op :: ops =>
    let (after, answer) := step s op
    let (last, answers) := runWith step after ops
    (last, answer :: answers)

/-- The first step, and the history of what it leaves. -/
theorem runWith_cons (step : σ → Operation → σ × Answer) (s : σ) (op : Operation)
    (ops : List Operation) :
    runWith step s (op :: ops) =
      ((runWith step (step s op).1 ops).1, (step s op).2 :: (runWith step (step s op).1 ops).2) :=
  rfl

/-- A history may be cut anywhere. -/
theorem runWith_append (step : σ → Operation → σ × Answer) (s : σ) (first rest : List Operation) :
    (runWith step s (first ++ rest)).1 = (runWith step (runWith step s first).1 rest).1 := by
  induction first generalizing s with
  | nil => rfl
  | cons op first ih => exact ih _

/-- What every step keeps a history keeps. -/
theorem runWith_induction {step : σ → Operation → σ × Answer} {P : σ → Prop} {ok : Operation → Prop}
    (keeps : ∀ s op, ok op → P s → P (step s op).1) {s : σ} {ops : List Operation}
    (hok : ∀ op ∈ ops, ok op) (hs : P s) : P (runWith step s ops).1 := by
  induction ops generalizing s with
  | nil => exact hs
  | cons op ops ih =>
    exact ih (fun op h => hok op (List.mem_cons_of_mem _ h)) (keeps s op (hok op List.mem_cons_self) hs)

/-- Two outcomes of one operation: the states are related, and the answers are one. -/
def Agree (R : σ → τ → Prop) (a : σ × Answer) (b : τ × Answer) : Prop := R a.1 b.1 ∧ a.2 = b.2

/-- Two machines whose states stay related and whose answers agree at every step agree on a history. -/
theorem runWith_simulates {step : σ → Operation → σ × Answer} {step' : τ → Operation → τ × Answer}
    {R : σ → τ → Prop} {ok : Operation → Prop}
    (simulates : ∀ s t op, ok op → R s t → Agree R (step s op) (step' t op))
    {s : σ} {t : τ} {ops : List Operation} (hok : ∀ op ∈ ops, ok op) (h : R s t) :
    R (runWith step s ops).1 (runWith step' t ops).1 ∧
      (runWith step s ops).2 = (runWith step' t ops).2 := by
  induction ops generalizing s t with
  | nil => exact ⟨h, rfl⟩
  | cons op ops ih =>
    obtain ⟨hafter, hanswer⟩ := simulates s t op (hok op List.mem_cons_self) h
    obtain ⟨hlast, hanswers⟩ := ih (fun op h => hok op (List.mem_cons_of_mem _ h)) hafter
    rw [runWith_cons, runWith_cons, hanswer, hanswers]
    exact ⟨hlast, rfl⟩

end

/-! ## A step of a table -/

namespace Table

variable (C : Catalogue)

/-- One operation on a table, and its answer. -/
def perform (t : Table Datum) : Operation → Table Datum × Answer
  | .add e => Answer.insertion t t.nextHandle (t.add C e)
  | .addInferred key value => Answer.insertion t t.nextHandle (t.addInferred C key value)
  | .addCopied e => Answer.insertion t t.nextHandle (t.addCopied C e)
  | .find key => (t, .found ((t.find? C key).map Row.item))
  | .get key => (t, .value (t.get? C key))
  | .contains key => (t, .flag (t.contains C key))
  | .look h => (t, .found ((t.row? h).map Row.item))
  | .setValue key value => Answer.replacement t (t.setValue? C key value)
  | .remove key => Answer.removal t (t.remove? C key)
  | .removeRow h => Answer.removal t (t.removeRow? C h)
  | .setValueKind h k => Answer.relabelling t (t.setValueKind C h k)
  | .clear => (t.clear, .done)
  | .setKeyKind k => (t.setKeyKind k, .done)

/-- The table after a history. -/
def run (t : Table Datum) (ops : List Operation) : Table Datum := (runWith (perform C) t ops).1

/-- The answers in a history. -/
def answers (t : Table Datum) (ops : List Operation) : List Answer := (runWith (perform C) t ops).2

/-! ## What a step comes to -/

variable {C}

/-- An insertion that succeeds had its key and its value accepted. -/
theorem add_eq_ok {t u : Table Datum} {e : Entry Datum} (h : t.add C e = .ok u) :
    t.keyKind.accepts C e.key = true ∧ e.kind.accepts C e.value = true ∧ u = t.insert C e := by
  unfold add at h
  split at h
  · cases h
  · next hkey =>
    split at h
    · cases h
    · next hvalue => exact ⟨by simpa using hkey, by simpa using hvalue, (Except.ok.inj h).symm⟩

/-- All that a step can do to a table: insert an entry that its kinds accept, drop a row, give a row
another value or kind, drop all rows, or have the keys read under another kind. -/
inductive Change (C : Catalogue) (t : Table Datum) : Operation → Table Datum → Prop
  | none (op : Operation) : Change C t op t
  | insert {op : Operation} {e : Entry Datum} {key : Datum} (hop : op.key? = some key)
      (hkey : key = e.key ∨ t.keyKind.copy C key = some e.key)
      (hk : t.keyKind.accepts C e.key = true) (hv : e.kind.accepts C e.value = true) :
      Change C t op (t.insert C e)
  | erase (op : Operation) (h : Handle) : Change C t op (t.erase h)
  | modify (op : Operation) (h : Handle) (change : Row Datum → Row Datum)
      (key : ∀ r, (change r).key = r.key) (bucket : ∀ r, (change r).bucket = r.bucket)
      (handle : ∀ r, (change r).handle = r.handle) : Change C t op (t.modify h change)
  | clear (op : Operation) : Change C t op t.clear
  | setKeyKind (k : Kind) : Change C t (.setKeyKind k) (t.setKeyKind k)

/-- An insertion, refused or not, is one of these changes. -/
private theorem insertion_change {t : Table Datum} {op : Operation} {e : Entry Datum} {key : Datum}
    (hop : op.key? = some key) (hkey : key = e.key ∨ t.keyKind.copy C key = some e.key) :
    Change C t op (Answer.insertion t t.nextHandle (t.add C e)).1 := by
  cases hadd : t.add C e with
  | error fault => exact .none op
  | ok u =>
    obtain ⟨hk, hv, rfl⟩ := add_eq_ok hadd
    exact .insert hop hkey hk hv

/-- A step makes one of these changes. -/
theorem perform_change (t : Table Datum) (op : Operation) : Change C t op (t.perform C op).1 := by
  -- where nothing is found or something is refused, the table stays as it is
  cases op with
  | add e => exact insertion_change rfl (.inl rfl)
  | addInferred key value => exact insertion_change (e := ⟨key, value, t.inferredKind⟩) rfl (.inl rfl)
  | addCopied e =>
    show Change C t _ (Answer.insertion t t.nextHandle (t.addCopied C e)).1
    unfold addCopied Entry.copied
    cases hkey : t.keyKind.copy C e.key with
    | none => exact .none _
    | some key =>
      cases hvalue : e.kind.copy C e.value with
      | none => exact .none _
      | some value => exact insertion_change (e := ⟨key, value, e.kind⟩) rfl (.inr hkey)
  | find | get | contains | look => exact .none _
  | setValue key value =>
    cases hfound : t.find? C key with
    | none => simp only [perform, setValue?, hfound]; exact .none _
    | some r =>
      simp only [perform, setValue?, hfound]
      exact .modify _ r.handle (fun r => { r with value }) (fun _ => rfl) (fun _ => rfl) fun _ => rfl
  | remove key =>
    cases hfound : t.find? C key with
    | none => simp only [perform, remove?, hfound]; exact .none _
    | some r => simp only [perform, remove?, hfound]; exact .erase _ r.handle
  | removeRow h =>
    cases hrow : t.row? h with
    | none => simp only [perform, removeRow?, hrow]; exact .none _
    | some r =>
      simp only [perform, removeRow?, hrow, Option.bind_some]
      by_cases hb : r.bucket = t.bucketOf C r.key
      · rw [if_pos hb]; exact .erase _ h
      · rw [if_neg hb]; exact .none _
  | setValueKind h k =>
    cases hrow : t.row? h with
    | none => simp only [perform, setValueKind, hrow]; exact .none _
    | some r =>
      simp only [perform, setValueKind, hrow]
      by_cases ha : k.accepts C r.value = true
      · rw [if_pos ha]
        exact .modify _ h (fun r => { r with kind := k }) (fun _ => rfl) (fun _ => rfl) fun _ => rfl
      · rw [if_neg ha]; exact .none _
  | clear => exact .clear _
  | setKeyKind k => exact .setKeyKind k

end Table

end OrderedTable
