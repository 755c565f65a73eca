import OrderedTable.Guarded.Basic

/-!
# The marks keep the rule

A guarded table is marked with the reads and writes that are inside it. `Marks around s` says that the marks
on the tables `s` are those of the accesses `around` a step. Running a program on marked tables is then the
same as carrying it out by the accesses around each step, and it leaves the marks as they were
(`Program.run_carry`). From free tables it leaves free tables (`Program.run_free`).

Two accounts of what a program does to the tables follow from the rule. A table that an access is inside of
stays as it is (`Program.carry_held`). And the tables come to be what they are by the writes that were
admitted, one after another (`Program.carry_eq_replay`).
-/

namespace OrderedTable

variable {ι : Type} [DecidableEq ι]

namespace Guards

/-- The tables without their marks. -/
def tables (s : Guards ι) : ι → Table Datum := fun x => (s x).table

/-- Tables that nothing is inside of. -/
def free (s : ι → Table Datum) : Guards ι := fun x => .free (s x)

/-- The table that is changed is changed. -/
theorem modify_self (s : Guards ι) (x : ι) (change : Guarded → Guarded) :
    s.modify x change x = change (s x) := if_pos rfl

/-- Every other table stays as it was. -/
theorem modify_of_ne (s : Guards ι) {x y : ι} (h : y ≠ x) (change : Guarded → Guarded) :
    s.modify x change y = s y := if_neg h

/-- A change of marks alone leaves the tables. -/
theorem tables_modify (s : Guards ι) (x : ι) {change : Guarded → Guarded}
    (h : (change (s x)).table = (s x).table) : (s.modify x change).tables = s.tables := by
  funext y
  by_cases hy : y = x
  · subst hy
    rw [tables, modify_self, h, tables]
  · rw [tables, modify_of_ne s hy, tables]

/-- A write that comes out leaves its table, and the others as they were. -/
theorem tables_leaveWrite (s : Guards ι) (x : ι) (t : Table Datum) :
    (s.modify x (.leaveWrite t)).tables = fun y => if y = x then t else s.tables y := by
  funext y
  by_cases hy : y = x
  · subst hy
    rw [tables, modify_self, if_pos rfl, Guarded.leaveWrite]
  · rw [tables, modify_of_ne s hy, if_neg hy, tables]

end Guards

namespace Program

variable {around : List (Access ι)} {s : Guards ι}

/-- Every table is marked with the accesses around a step: how many of them read it, and whether one
writes it. None does both. -/
structure Marks (around : List (Access ι)) (s : Guards ι) : Prop where
  readers : ∀ x, (s x).readers = around.count (.reading x)
  writing : ∀ x, (s x).writing = true ↔ .writing x ∈ around
  apart : ∀ x, .writing x ∈ around → .reading x ∉ around

/-- Where nothing is around, all tables are free. -/
theorem marks_nil_iff : Marks [] s ↔ s = .free s.tables := by
  constructor
  · intro h
    funext x
    have hreaders : (s x).readers = 0 := h.readers x
    have hwriting : (s x).writing = false := by
      cases hw : (s x).writing with
      | false => rfl
      | true => exact absurd ((h.writing x).1 hw) List.not_mem_nil
    rw [Guards.free, Guards.tables, Guarded.free, ← hreaders, ← hwriting]
  · intro h
    rw [h]
    exact ⟨fun _ => rfl, fun _ => ⟨nofun, nofun⟩, nofun⟩

namespace Marks

/-- A read is admitted exactly outside of writes. -/
theorem admitsRead (h : Marks around s) (x : ι) :
    (s x).admitsRead = true ↔ .writing x ∉ around := by
  rw [Guarded.admitsRead, Bool.not_eq_true', ← h.writing x, Bool.not_eq_true]

/-- A write is admitted exactly outside of all accesses. -/
theorem admitsWrite (h : Marks around s) (x : ι) :
    (s x).admitsWrite = true ↔ ¬(.reading x ∈ around ∨ .writing x ∈ around) := by
  rw [Guarded.admitsWrite, Guarded.isFree, Bool.and_eq_true, decide_eq_true_eq, h.readers x,
    List.count_eq_zero, Bool.not_eq_true', ← h.writing x, not_or, Bool.not_eq_true]

/-- Entering a read that no write keeps out adds one reader to the marks, as it adds one read to the accesses
around. -/
theorem enterRead (h : Marks around s) {x : ι} (hx : .writing x ∉ around) :
    Marks (.reading x :: around) (s.modify x .enterRead) where
  readers y := by
    by_cases hy : y = x
    · subst hy
      rw [Guards.modify_self, List.count_cons_self, Guarded.enterRead, h.readers y]
    · rw [Guards.modify_of_ne s hy, List.count_cons_of_ne (by simpa using Ne.symm hy), h.readers y]
  writing y := by
    have hmarks : (s.modify x .enterRead y).writing = (s y).writing := by
      by_cases hy : y = x
      · subst hy
        rw [Guards.modify_self, Guarded.enterRead]
      · rw [Guards.modify_of_ne s hy]
    rw [hmarks, h.writing y]
    simp
  apart y hy := by
    have hy : .writing y ∈ around := by simpa using hy
    intro hread
    rcases List.mem_cons.1 hread with heq | hread
    · cases heq
      exact hx hy
    · exact h.apart y hy hread

/-- Leaving the innermost read takes off the reader that entering it added. -/
theorem leaveRead {x : ι} (h : Marks (.reading x :: around) s) :
    Marks around (s.modify x .leaveRead) where
  readers y := by
    have hreaders := h.readers y
    by_cases hy : y = x
    · subst hy
      rw [List.count_cons_self] at hreaders
      rw [Guards.modify_self, Guarded.leaveRead, hreaders, Nat.add_sub_cancel]
    · rw [List.count_cons_of_ne (by simpa using Ne.symm hy)] at hreaders
      rw [Guards.modify_of_ne s hy, hreaders]
  writing y := by
    have hmarks : (s.modify x .leaveRead y).writing = (s y).writing := by
      by_cases hy : y = x
      · subst hy
        rw [Guards.modify_self, Guarded.leaveRead]
      · rw [Guards.modify_of_ne s hy]
    rw [hmarks, h.writing y]
    simp
  apart y hy hread := h.apart y (List.mem_cons_of_mem _ hy) (List.mem_cons_of_mem _ hread)

/-- Entering a write that nothing keeps out sets the mark of a writer, which no other table has gained or lost. -/
theorem enterWrite (h : Marks around s) {x : ι} (hx : ¬(.reading x ∈ around ∨ .writing x ∈ around)) :
    Marks (.writing x :: around) (s.modify x .enterWrite) where
  readers y := by
    have hmarks : (s.modify x .enterWrite y).readers = (s y).readers := by
      by_cases hy : y = x
      · subst hy
        rw [Guards.modify_self, Guarded.enterWrite]
      · rw [Guards.modify_of_ne s hy]
    rw [hmarks, h.readers y, List.count_cons_of_ne (by simp)]
  writing y := by
    by_cases hy : y = x
    · subst hy
      simp [Guards.modify_self, Guarded.enterWrite]
    · rw [Guards.modify_of_ne s hy, h.writing y]
      simp [hy]
  apart y hy hread := by
    have hread : .reading y ∈ around := by simpa using hread
    rcases List.mem_cons.1 hy with heq | hy
    · cases heq
      exact hx (.inl hread)
    · exact h.apart y hy hread

/-- Leaving the innermost write takes off the mark of the writer, whatever table is left behind: nothing else
was inside that table. -/
theorem leaveWrite {x : ι} (h : Marks (.writing x :: around) s)
    (hx : ¬(.reading x ∈ around ∨ .writing x ∈ around)) (t : Table Datum) :
    Marks around (s.modify x (.leaveWrite t)) where
  readers y := by
    have hreaders := h.readers y
    rw [List.count_cons_of_ne (by simp)] at hreaders
    by_cases hy : y = x
    · subst hy
      rw [Guards.modify_self, Guarded.leaveWrite, hreaders]
    · rw [Guards.modify_of_ne s hy, hreaders]
  writing y := by
    by_cases hy : y = x
    · subst hy
      simpa [Guards.modify_self, Guarded.leaveWrite] using fun h => hx (.inr h)
    · rw [Guards.modify_of_ne s hy, h.writing y]
      simp [hy]
  apart y hy hread := h.apart y (List.mem_cons_of_mem _ hy) (List.mem_cons_of_mem _ hread)

end Marks

/-! ## Running and carrying -/

/-- On tables marked with what is around it a program does what the rule says, and leaves the marks. -/
theorem run_carry {α : Type} (p : Program ι α) (around : List (Access ι)) (s : Guards ι)
    (h : Marks around s) :
    (p.run s).1 = (carry around s.tables p).1 ∧ (p.run s).2.tables = (carry around s.tables p).2 ∧
      Marks around (p.run s).2 := by
  induction p generalizing around s with
  | done answer => exact ⟨rfl, rfl, h⟩
  | andThen first rest ihFirst ihRest =>
    obtain ⟨hanswer, htables, hmarks⟩ := ihFirst around s h
    obtain ⟨hanswer', htables', hmarks'⟩ := ihRest _ around _ hmarks
    rw [run, carry]
    dsimp only
    rw [← htables, ← hanswer]
    exact ⟨hanswer', htables', hmarks'⟩
  | read x body ih =>
    by_cases hx : .writing x ∈ around
    · rw [run, carry, if_neg (mt (h.admitsRead x).1 (not_not_intro hx)), if_pos hx]
      exact ⟨rfl, rfl, h⟩
    · obtain ⟨hanswer, htables, hmarks⟩ := ih (s x).table _ _ (h.enterRead hx)
      rw [show (s.modify x .enterRead).tables = s.tables from Guards.tables_modify s x rfl] at hanswer htables
      rw [run, carry, if_pos ((h.admitsRead x).2 hx), if_neg hx]
      refine ⟨congrArg Except.ok hanswer, ?_, hmarks.leaveRead⟩
      exact (Guards.tables_modify _ x rfl).trans htables
  | write x body ih =>
    by_cases hx : .reading x ∈ around ∨ .writing x ∈ around
    · rw [run, carry, if_neg (mt (h.admitsWrite x).1 (not_not_intro hx)), if_pos hx]
      exact ⟨rfl, rfl, h⟩
    · obtain ⟨hanswer, htables, hmarks⟩ := ih (s x).table _ _ (h.enterWrite hx)
      rw [show (s.modify x .enterWrite).tables = s.tables from Guards.tables_modify s x rfl] at hanswer htables
      rw [run, carry, if_pos ((h.admitsWrite x).2 hx), if_neg hx]
      refine ⟨congrArg (fun a => Except.ok a.1) hanswer, ?_, hmarks.leaveWrite hx _⟩
      rw [Guards.tables_leaveWrite, htables]
      exact congrArg (fun a y => if y = x then a.2 else (carry _ s.tables (body (s x).table)).2 y) hanswer

/-- A program that starts among free tables does what the rule says, and leaves all tables free. -/
theorem run_free {α : Type} (p : Program ι α) (s : ι → Table Datum) :
    p.run (.free s) = ((carry [] s p).1, .free (carry [] s p).2) := by
  obtain ⟨hanswer, htables, hmarks⟩ := run_carry p [] (.free s) (marks_nil_iff.2 rfl)
  refine Prod.ext hanswer ?_
  rw [marks_nil_iff.1 hmarks, htables]
  rfl

/-! ## The rule -/

/-- A read is admitted outside of writes of its table, a write outside of all accesses to it. -/
def Access.Admitted (around : List (Access ι)) : Access ι → Prop
  | reading x => .writing x ∉ around
  | writing x => ¬(.reading x ∈ around ∨ .writing x ∈ around)

instance (around : List (Access ι)) : (a : Access ι) → Decidable (a.Admitted around)
  | .reading _ => inferInstanceAs (Decidable (¬_))
  | .writing _ => inferInstanceAs (Decidable (¬_))

variable {tables : ι → Table Datum}

/-- A read is carried out exactly if it is admitted, with one more access around its body. -/
theorem carry_read {α : Type} (x : ι) (body : Table Datum → Program ι α) :
    carry around tables (read x body) =
      if (Access.reading x).Admitted around then
        (.ok (carry (.reading x :: around) tables (body (tables x))).1,
          (carry (.reading x :: around) tables (body (tables x))).2)
      else (.error .busy, tables) := by
  rw [carry]
  by_cases h : .writing x ∈ around
  · have hrefused : ¬(Access.reading x).Admitted around := not_not_intro h
    rw [if_pos h, if_neg hrefused]
  · have hadmitted : (Access.reading x).Admitted around := h
    rw [if_neg h, if_pos hadmitted]

/-- A write is carried out exactly if it is admitted, and what its body leaves takes the place of the table. -/
theorem carry_write {α : Type} (x : ι) (body : Table Datum → Program ι (α × Table Datum)) :
    carry around tables (write x body) =
      if (Access.writing x).Admitted around then
        (.ok (carry (.writing x :: around) tables (body (tables x))).1.1, fun y =>
          if y = x then (carry (.writing x :: around) tables (body (tables x))).1.2
          else (carry (.writing x :: around) tables (body (tables x))).2 y)
      else (.error .busy, tables) := by
  rw [carry]
  by_cases h : .reading x ∈ around ∨ .writing x ∈ around
  · have hrefused : ¬(Access.writing x).Admitted around := not_not_intro h
    rw [if_pos h, if_neg hrefused]
  · have hadmitted : (Access.writing x).Admitted around := h
    rw [if_neg h, if_pos hadmitted]

/-! ## What becomes of the tables -/

/-- Inside an access to a table nothing changes that table. -/
theorem carry_held {α : Type} (p : Program ι α) (around : List (Access ι)) (s : ι → Table Datum) {x : ι}
    (hx : .reading x ∈ around ∨ .writing x ∈ around) : (carry around s p).2 x = s x := by
  induction p generalizing around s with
  | done answer => rfl
  | andThen first rest ihFirst ihRest =>
    rw [carry]
    exact (ihRest _ around _ hx).trans (ihFirst around s hx)
  | read y body ih =>
    rw [carry_read]
    split
    · exact ih _ _ _ (hx.imp (List.mem_cons_of_mem _) (List.mem_cons_of_mem _))
    · rfl
  | write y body ih =>
    rw [carry_write]
    split
    · next hy =>
      have hne : x ≠ y := fun h => hy (h ▸ hx)
      dsimp only
      rw [if_neg hne]
      exact ih _ _ _ (hx.imp (List.mem_cons_of_mem _) (List.mem_cons_of_mem _))
    · rfl

/-- A change of one table. -/
structure Mutation (ι : Type) where
  target : ι
  act : Table Datum → Table Datum

/-- The tables after a change of one. -/
def Mutation.apply (m : Mutation ι) (s : ι → Table Datum) : ι → Table Datum :=
  fun y => if y = m.target then m.act (s m.target) else s y

/-- The writes that are admitted when a program is carried out inside some accesses, as changes of plain
tables, in the order in which they come out. -/
def mutations {α : Type} (around : List (Access ι)) (s : ι → Table Datum) :
    Program ι α → List (Mutation ι)
  | done _ => []
  | andThen first rest =>
    let (a, s') := carry around s first
    mutations around s first ++ mutations around s' (rest a)
  | read x body =>
    if (Access.reading x).Admitted around then mutations (.reading x :: around) s (body (s x)) else []
  | write x body =>
    if (Access.writing x).Admitted around then
      mutations (.writing x :: around) s (body (s x)) ++
        [⟨x, fun t => (carry (.writing x :: around) s (body t)).1.2⟩]
    else []

/-- Changes carried out one after another on plain tables. -/
def replay (ms : List (Mutation ι)) (s : ι → Table Datum) : ι → Table Datum :=
  ms.foldl (fun s m => m.apply s) s

/-- Changes are replayed one after another. -/
theorem replay_append (ms ms' : List (Mutation ι)) (s : ι → Table Datum) :
    replay (ms ++ ms') s = replay ms' (replay ms s) := List.foldl_append

/-- A program leaves the tables as the admitted writes make them, one after another. -/
theorem carry_eq_replay {α : Type} (p : Program ι α) (around : List (Access ι)) (s : ι → Table Datum) :
    (carry around s p).2 = replay (mutations around s p) s := by
  induction p generalizing around s with
  | done answer => rfl
  | andThen first rest ihFirst ihRest =>
    rw [carry, mutations]
    dsimp only
    rw [replay_append, ← ihFirst, ← ihRest]
  | read x body ih =>
    rw [carry_read, mutations]
    split
    · exact ih _ _ _
    · rfl
  | write x body ih =>
    rw [carry_write, mutations]
    split
    · -- the table being written is still the one that the write found
      have hheld := carry_held (body (s x)) (.writing x :: around) s (x := x) (.inr List.mem_cons_self)
      rw [replay_append, ← ih]
      funext y
      simp only [replay, List.foldl_cons, List.foldl_nil, Mutation.apply, hheld]
    · rfl

end Program

end OrderedTable
