import OrderedTable.Guarded.Operations
import OrderedTable.Proofs.Guarded.Marks
import OrderedTable.Proofs.Table.Canonical

/-!
# Entering a guarded table again

What the operations of a guarded table do inside any accesses. A `Call` is an operation that goes to the table
inside: as a read or as a write (`Call.access`). Where the access is admitted the call does what it does to a
plain table (`Call.act`); where it is not the call answers with its refusal and changes nothing
(`Call.carry_program`).

A refusal is `busy` where that can be said, and none, false or zero where no fault can be reported, with three
exceptions (`refusals_differ`): a table that cannot be read has no size, so `isEmpty` answers true; a text that
is not shown is a fault of its own; and the diagnostic text says that the table is borrowed. A table compared
with itself equals itself, whatever its values are.

`Program.reentry` puts this together with what the marks do: it speaks of every program, of every operation
inside every access, and of what the tables are in the end.
-/

namespace OrderedTable.Program

variable {ι : Type} [DecidableEq ι] {around : List (Access ι)} {s : ι → Table Datum}

/-! ## Ways to enter a table -/

/-- What is made of an answer does not bear on the tables. -/
theorem carry_map {α β : Type} (p : Program ι α) (f : α → β) :
    carry around s (do return f (← p)) = (f (carry around s p).1, (carry around s p).2) := by
  show carry around s (.andThen p fun a => .done (f a)) = _
  rw [carry]
  rfl

/-- Nor does it on the changes. -/
theorem mutations_map {α β : Type} (p : Program ι α) (f : α → β) :
    mutations around s (do return f (← p)) = mutations around s p := by
  show mutations around s (.andThen p fun a => .done (f a)) = _
  rw [mutations]
  exact List.append_nil _

/-- What a write leaves behind is what replaying its changes does. -/
theorem carry_write_replay {α : Type} (x : ι) (body : Table Datum → Program ι (α × Table Datum)) :
    carry around s (write x body) =
      if (Access.writing x).Admitted around then
        (.ok (carry (.writing x :: around) s (body (s x))).1.1, replay (mutations around s (write x body)) s)
      else (.error .busy, s) := by
  rw [← carry_eq_replay, carry_write]
  split <;> rfl

/-- A program that reads a table and changes none: what it answers if the read is admitted, and if it is not. -/
structure Reads {α : Type} (around : List (Access ι)) (s : ι → Table Datum) (x : ι) (p : Program ι α)
    (answer refusal : α) : Prop where
  carried : carry around s p =
    if (Access.reading x).Admitted around then (answer, s) else (refusal, s)
  unchanged : mutations around s p = []

/-- What is made of the answer of such a program is made of its refusal. -/
theorem Reads.map {α β : Type} {x : ι} {p : Program ι α} {answer refusal : α}
    (h : Reads around s x p answer refusal) (f : α → β) :
    Reads around s x (do return f (← p)) (f answer) (f refusal) where
  carried := by
    rw [carry_map, h.carried]
    split <;> rfl
  unchanged := (mutations_map p f).trans h.unchanged

/-- Looking into a table reads it. -/
theorem reads_inspect {α : Type} (x : ι) (view : Table Datum → α) :
    Reads around s x (inspect x view) (.ok (view (s x))) (.error .busy) where
  carried := carry_read x fun t => done (view t)
  unchanged := by
    rw [inspect, mutations]
    split <;> rfl

/-- So does a look that has an answer ready should the table not be readable. -/
theorem reads_look {α : Type} (x : ι) (missing : α) (view : Table Datum → α) :
    Reads around s x (look x missing view) (view (s x)) missing :=
  (reads_inspect x view).map (·.toOption.getD missing)

/-- A change is one change, if it is admitted. -/
theorem mutations_change {α : Type} (x : ι) (act : Table Datum → α × Table Datum) :
    mutations around s (change x act) =
      if (Access.writing x).Admitted around then [⟨x, fun t => (act t).2⟩] else [] := by
  rw [change, mutations]
  rfl

/-- An admitted change does what it does to the plain table, and one that is not leaves all as it was. -/
theorem carry_change {α : Type} (x : ι) (act : Table Datum → α × Table Datum) :
    carry around s (change x act) =
      if (Access.writing x).Admitted around then
        (.ok (act (s x)).1, replay [⟨x, fun t => (act t).2⟩] s)
      else (.error .busy, s) := by
  refine (carry_write_replay x _).trans ?_
  rw [← change, mutations_change]
  split <;> rfl

/-- An insertion into a plain table, which leaves it as it was if refused. -/
def inserted (act : Table Datum → Except TableFault (Table Datum)) (t : Table Datum) :
    Except TableFault Handle × Table Datum :=
  match act t with
  | .ok t' => (.ok t.nextHandle, t')
  | .error fault => (.error fault, t)

omit [DecidableEq ι] in
/-- An insertion is a change whose fault is the answer. -/
theorem insert_eq (x : ι) (act : Table Datum → Except TableFault (Table Datum)) :
    insert x act = (do return (← change x (inserted act)).bind id) := rfl

/-- An admitted insertion is one into the plain table. -/
theorem carry_insert (x : ι) (act : Table Datum → Except TableFault (Table Datum)) :
    carry around s (insert x act) =
      if (Access.writing x).Admitted around then
        ((inserted act (s x)).1, replay [⟨x, fun t => (inserted act t).2⟩] s)
      else (.error .busy, s) := by
  rw [insert_eq, carry_map, carry_change]
  split <;> rfl

/-- An insertion is one change, if it is admitted. -/
theorem mutations_insert (x : ι) (act : Table Datum → Except TableFault (Table Datum)) :
    mutations around s (insert x act) =
      if (Access.writing x).Admitted around then [⟨x, fun t => (inserted act t).2⟩] else [] := by
  rw [insert_eq, mutations_map, mutations_change]

/-- A removal from a plain table, which leaves it as it was if there is nothing to remove. -/
def removed (C : Catalogue) (key : Datum) (t : Table Datum) : Option (Entry Datum) × Table Datum :=
  match t.remove? C key with
  | some (e, t') => (some e, t')
  | none => (none, t)

section
variable (C : Catalogue)

/-- What is done with the entry of a key is done inside a read. -/
theorem carry_withEntry {α : Type} (x : ι) (key : Datum) (body : Row Datum → Program ι α) :
    carry around s (withEntry C x key body) =
      if (Access.reading x).Admitted around then
        match (s x).find? C key with
        | some r =>
          (some (carry (.reading x :: around) s (body r)).1, (carry (.reading x :: around) s (body r)).2)
        | none => (none, s)
      else (none, s) := by
  rw [withEntry, carry_map, carry_read]
  split
  · cases (s x).find? C key with
    | none => rfl
    | some r => simp only [carry_map]; rfl
  · rfl

/-- What is done with an entry may change other tables. -/
theorem mutations_withEntry {α : Type} (x : ι) (key : Datum) (body : Row Datum → Program ι α) :
    mutations around s (withEntry C x key body) =
      if (Access.reading x).Admitted around then
        match (s x).find? C key with
        | some r => mutations (.reading x :: around) s (body r)
        | none => []
      else [] := by
  rw [withEntry, mutations_map, mutations]
  cases (s x).find? C key with
  | none => rfl
  | some r => simp only [mutations_map]

/-- A copy of the value of an entry is made inside a read. -/
theorem reads_get? (x : ι) (key : Datum) :
    Reads around s x (get? C x key) (((s x).find? C key).bind fun r => r.kind.copy C r.value) none where
  carried := by
    rw [get?, carry_map, carry_withEntry]
    split
    · cases (s x).find? C key <;> rfl
    · rfl
  unchanged := by
    rw [get?, mutations_map, mutations_withEntry]
    split
    · cases (s x).find? C key <;> rfl
    · rfl

/-- Two tables are compared where both can be read. A table is not compared with itself but equals itself. -/
theorem carry_compare (x y : ι) :
    carry around s (compare C x y) =
      if (Access.reading x).Admitted around ∧ (Access.reading y).Admitted around then
        (.ok (if x = y then .eq else (s x).order C (s y)), s)
      else (.error .busy, s) := by
  rw [compare]
  split
  · next heq =>
    subst heq
    rw [(reads_inspect x _).carried]
    simp only [and_self]
  · -- the read of the one table does not keep a read of the other out
    have hinside : (Access.reading y).Admitted (.reading x :: around) ↔
        (Access.reading y).Admitted around := by
      simp [Access.Admitted]
    rw [carry_map, carry_read, (reads_inspect y _).carried]
    by_cases hx : (Access.reading x).Admitted around
    · by_cases hy : (Access.reading y).Admitted around
      · rw [if_pos hx, if_pos (hinside.2 hy), if_pos ⟨hx, hy⟩]
        rfl
      · rw [if_pos hx, if_neg (mt hinside.1 hy), if_neg (mt And.right hy)]
        rfl
    · rw [if_neg hx, if_neg (mt And.left hx)]
      rfl

omit [DecidableEq ι] in
/-- A plain table equals itself if all that the extensions compare does. -/
theorem order_self {C : Catalogue} (t : Table Datum) (h : ∀ b, C.Reflexive b) : t.order C t = .eq := by
  rw [← Kind.order_table]
  exact Kind.order_reflexive _ _ ⟨h _, fun b _ => h b⟩

/-- Comparing adds no changes. -/
theorem mutations_compare (x y : ι) : mutations around s (compare C x y) = [] := by
  rw [compare]
  split
  · exact (reads_inspect x _).unchanged
  · rw [mutations_map, mutations, (reads_inspect y _).unchanged]
    split <;> rfl

end

/-! ## Calls -/

/-- An operation that a guarded table leaves to the table inside, by what it answers. -/
inductive Call (ι : Type) : Type → Type where
  | add (x : ι) (e : Entry Datum) : Call ι (Except TableFault Handle)
  | addInferred (x : ι) (key value : Datum) : Call ι (Except TableFault Handle)
  | addCopied (x : ι) (e : Entry Datum) : Call ι (Except TableFault Handle)
  | remove (x : ι) (key : Datum) : Call ι (Except TableFault (Option (Entry Datum)))
  | clear (x : ι) : Call ι (Except TableFault Unit)
  | get? (x : ι) (key : Datum) : Call ι (Option Datum)
  | contains (x : ι) (key : Datum) : Call ι Bool
  | bucketOf (x : ι) (key : Datum) : Call ι Nat
  | size (x : ι) : Call ι Nat
  | isEmpty (x : ι) : Call ι Bool
  | capacity (x : ι) : Call ι Nat
  | keyKind? (x : ι) : Call ι (Option Kind)
  | copy (x : ι) : Call ι (Except TableFault (Table Datum))
  | encode (x : ι) : Call ι (Except TableFault Bytes)
  | bytes (x : ι) : Call ι (Except TableFault Bytes)
  | format (x : ι) : Call ι (Except FormatFault String)
  | summary (x : ι) : Call ι String

namespace Call

variable {α : Type}

/-- The table that a call enters, and whether as a read or as a write. -/
def access : Call ι α → Access ι
  | add x _ | addInferred x _ _ | addCopied x _ | remove x _ | clear x => .writing x
  | get? x _ | contains x _ | bucketOf x _ | size x | isEmpty x | capacity x | keyKind? x | copy x
  | encode x | bytes x | format x | summary x => .reading x

/-- What a call answers where its access is not admitted. -/
def refusal : Call ι α → α
  | add _ _ | addInferred _ _ _ | addCopied _ _ | remove _ _ | clear _ => .error .busy
  | copy _ | encode _ | bytes _ => .error .busy
  | format _ => .error .failed
  | get? _ _ | keyKind? _ => none
  | contains _ _ => false
  | bucketOf _ _ | size _ | capacity _ => 0
  | isEmpty _ => true
  | summary _ => "SyncHashTable(<borrowed>)"

variable (C : Catalogue)

/-- The call as the operation of a guarded table. -/
def program : Call ι α → Program ι α
  | add x e => Program.add C x e
  | addInferred x key value => Program.addInferred C x key value
  | addCopied x e => Program.addCopied C x e
  | remove x key => Program.remove C x key
  | clear x => Program.clear x
  | get? x key => Program.get? C x key
  | contains x key => Program.contains C x key
  | bucketOf x key => Program.bucketOf C x key
  | size x => Program.size x
  | isEmpty x => Program.isEmpty x
  | capacity x => Program.capacity x
  | keyKind? x => Program.keyKind? x
  | copy x => Program.copy C x
  | encode x => Program.encode C x
  | bytes x => Program.bytes C x
  | format x => Program.format C x
  | summary x => Program.summary C x

/-- The call as an operation of a plain table: its answer, and the table after it. -/
def act : Call ι α → Table Datum → α × Table Datum
  | add _ e, t => inserted (·.add C e) t
  | addInferred _ key value, t => inserted (·.addInferred C key value) t
  | addCopied _ e, t => inserted (·.addCopied C e) t
  | remove _ key, t => (.ok (removed C key t).1, (removed C key t).2)
  | clear _, t => (.ok (), t.clear)
  | get? _ key, t => ((t.find? C key).bind fun r => r.kind.copy C r.value, t)
  | contains _ key, t => (t.contains C key, t)
  | bucketOf _ key, t => (t.bucketOf C key, t)
  | size _, t => (t.size, t)
  | isEmpty _, t => (t.size == 0, t)
  | capacity _, t => (t.capacity, t)
  | keyKind? _, t => (some t.keyKind, t)
  | copy _, t => (.ok (t.copy C), t)
  | encode _, t => ((t.encode C).mapError .wire, t)
  | bytes _, t => (.ok (Utf8.encode (t.format C)), t)
  | format _, t => (.ok (t.format C), t)
  | summary _, t => ("SyncHashTable(" ++ t.summary C ++ ")", t)

end Call

namespace Access

/-- The table that an access is to. -/
def target : Access ι → ι
  | reading x | writing x => x

/-- Whether an access may change its table. -/
def changes : Access ι → Bool
  | reading _ => false
  | writing _ => true

end Access

namespace Call

variable {α : Type} {C : Catalogue}

variable (C) in
/-- What a call changes, where it is admitted. -/
def mutations (call : Call ι α) : List (Mutation ι) :=
  if call.access.changes then [⟨call.access.target, fun t => (call.act C t).2⟩] else []

/-- What reads a table does what a call does that has nothing to change. -/
theorem carry_of_reads {x : ι} {p : Program ι α} {answer refusal : α} (h : Reads around s x p answer refusal) :
    carry around s p = (if (Access.reading x).Admitted around then (answer, replay [] s) else (refusal, s)) ∧
      Program.mutations around s p = if (Access.reading x).Admitted around then [] else [] :=
  ⟨h.carried, h.unchanged.trans (ite_self _).symm⟩

/-- A call whose access is admitted does what it does to a plain table. Any other one answers with its
refusal. -/
theorem carry_program (call : Call ι α) (around : List (Access ι)) (s : ι → Table Datum) :
    carry around s (call.program C) =
        (if call.access.Admitted around then
          ((call.act C (s call.access.target)).1, replay (call.mutations C) s)
        else (call.refusal, s)) ∧
      Program.mutations around s (call.program C) =
        if call.access.Admitted around then call.mutations C else [] := by
  cases call with
  | add x e => exact ⟨carry_insert x _, mutations_insert x _⟩
  | addInferred x key value => exact ⟨carry_insert x _, mutations_insert x _⟩
  | addCopied x e => exact ⟨carry_insert x _, mutations_insert x _⟩
  | remove x key => exact ⟨carry_change x (removed C key), mutations_change x (removed C key)⟩
  | clear x => exact ⟨carry_change x _, mutations_change x _⟩
  | get? x key => exact carry_of_reads (reads_get? C x key)
  | contains x key => exact carry_of_reads (reads_look x _ _)
  | bucketOf x key => exact carry_of_reads (reads_look x _ _)
  | size x => exact carry_of_reads (reads_look x _ _)
  | isEmpty x => exact carry_of_reads ((reads_look x 0 (·.size)).map (· == 0))
  | capacity x => exact carry_of_reads (reads_look x _ _)
  | keyKind? x => exact carry_of_reads (reads_look x _ _)
  | copy x => exact carry_of_reads (reads_inspect x _)
  | encode x => exact carry_of_reads ((reads_inspect x fun t => (t.encode C).mapError .wire).map (·.bind id))
  | bytes x => exact carry_of_reads (reads_inspect x _)
  | format x =>
    exact carry_of_reads ((reads_inspect x (·.format C)).map (·.mapError fun _ => FormatFault.failed))
  | summary x => exact carry_of_reads (reads_look x _ _)

end Call

/-! ## The policy -/

/-- A program that starts among free tables answers as the rule says, leaves the tables as the admitted writes
make them when carried out one after another on plain tables, and leaves all of them free.

At every step of it, inside whatever accesses are around, a read or a write is carried out exactly if it is
admitted. Then a call does what it does to a plain table, two tables compare as plain tables do, and what is
done with an entry is done inside a read. Otherwise the refusal is the answer and every table is as it was. A
table compared with itself equals itself at once; so it does as a plain table, if the extensions find every
value equal to itself. -/
theorem reentry (C : Catalogue) :
    (∀ {α : Type} (p : Program ι α) (s : ι → Table Datum),
      p.run (.free s) = ((carry [] s p).1, .free (replay (mutations [] s p) s))) ∧
    ∀ (around : List (Access ι)) (s : ι → Table Datum),
      (∀ {α : Type} (x : ι) (body : Table Datum → Program ι α),
        carry around s (read x body) =
          if (Access.reading x).Admitted around then
            (.ok (carry (.reading x :: around) s (body (s x))).1,
              (carry (.reading x :: around) s (body (s x))).2)
          else (.error .busy, s)) ∧
      (∀ {α : Type} (x : ι) (body : Table Datum → Program ι (α × Table Datum)),
        carry around s (write x body) =
          if (Access.writing x).Admitted around then
            (.ok (carry (.writing x :: around) s (body (s x))).1.1,
              replay (mutations around s (write x body)) s)
          else (.error .busy, s)) ∧
      (∀ {α : Type} (call : Call ι α),
        carry around s (call.program C) =
            (if call.access.Admitted around then
              ((call.act C (s call.access.target)).1, replay (call.mutations C) s)
            else (call.refusal, s)) ∧
          mutations around s (call.program C) =
            if call.access.Admitted around then call.mutations C else []) ∧
      (∀ x y : ι,
        carry around s (compare C x y) =
            (if (Access.reading x).Admitted around ∧ (Access.reading y).Admitted around then
              (.ok (if x = y then .eq else (s x).order C (s y)), s)
            else (.error .busy, s)) ∧
          mutations around s (compare C x y) = [] ∧
          ((∀ b, C.Reflexive b) → (s x).order C (s x) = .eq)) ∧
      ∀ {α : Type} (x : ι) (key : Datum) (body : Row Datum → Program ι α),
        carry around s (withEntry C x key body) =
          if (Access.reading x).Admitted around then
            match (s x).find? C key with
            | some r =>
              (some (carry (.reading x :: around) s (body r)).1,
                (carry (.reading x :: around) s (body r)).2)
            | none => (none, s)
          else (none, s) := by
  refine ⟨fun p s => ?_, fun around s => ⟨fun x body => ?_, fun x body => ?_, fun call => ?_, ?_, ?_⟩⟩
  · rw [run_free, carry_eq_replay]
  · exact carry_read x body
  · exact carry_write_replay x body
  · exact call.carry_program around s
  · exact fun x y => ⟨carry_compare C x y, mutations_compare C x y, order_self (s x)⟩
  · exact fun x key body => carry_withEntry C x key body

/-- A comparison of a table with itself, and a change that is refused, inside a read. -/
def readAndClear : Program Bool (Except TableFault (Except TableFault Ordering × Except TableFault Unit)) :=
  read true fun _ => do
    let order ← compare .specimens true true
    let cleared ← clear true
    return (order, cleared)

/-- The comparison is admitted and the table equals itself; clearing it is refused. -/
theorem reentry_readAndClear :
    let s : Bool → Table Datum := fun _ =>
      (Table.empty .i32 0).insert .specimens ⟨.scalar (.int .i32 1), .scalar (.int .i32 2), .i32⟩
    (∀ b, Catalogue.specimens.Reflexive b) ∧
      readAndClear.run (.free s) =
        ((carry [] s readAndClear).1, .free (replay (mutations [] s readAndClear) s)) ∧
      carry [.reading true] s (compare .specimens true true) = (.ok .eq, s) ∧
      (s true).order .specimens (s true) = .eq ∧
      carry [.reading true] s (clear true) = (.error .busy, s) := by
  intro s
  have hreflexive : ∀ b, Catalogue.specimens.Reflexive b := by
    intro b id _ d
    have hordered : (Catalogue.specimens.extension id).Ordered :=
      match id with
      | 0 => Extension.lawful_unit.1
      | 1 | 2 | 3 | 4 | 5 | _ + 6 => Extension.ordered_of_i32 rfl
    exact Ordering.eq_eq_of_eq_swap (hordered.swap d d)
  obtain ⟨hrun, hinside⟩ := reentry (ι := Bool) Catalogue.specimens
  obtain ⟨-, -, hcalls, hcompare, -⟩ := hinside [.reading true] s
  refine ⟨hreflexive, hrun readAndClear s, ?_, (hcompare true true).2.2 hreflexive, ?_⟩
  · exact (hcompare true true).1.trans (if_pos (by decide))
  · exact (hcalls (Call.clear true)).1.trans (if_neg (by decide))

/-- Inside a write, a table with a row in it counts as empty, showing it fails without saying that it is busy, and
its diagnostic text says that it is borrowed. A table is equal to itself even if a value in it is not. -/
theorem refusals_differ :
    let restless : Catalogue := ⟨fun _ => { Extension.unit with order := fun _ _ => .lt }, []⟩
    let t := (Table.empty .i32 0).insert restless ⟨.scalar (.int .i32 1), .unit, ⟨.extension 0, false⟩⟩
    let s : Guards Bool := .free fun _ => t
    let inside {α : Type} (p : Program Bool α) : Program Bool (Except TableFault α) :=
      write true fun u => do return (← p, u)
    ((isEmpty true).run s).1 = false ∧ ((inside (isEmpty true)).run s).1 = .ok true ∧
      ((inside (format restless true)).run s).1 = .ok (.error .failed) ∧
      ((inside (summary restless true)).run s).1 = .ok "SyncHashTable(<borrowed>)" ∧
      ((compare restless true true).run s).1 = .ok .eq ∧ t.order restless t = .lt := by
  exact ⟨by decide +kernel, rfl, rfl, rfl, rfl, by decide +kernel⟩

end OrderedTable.Program
