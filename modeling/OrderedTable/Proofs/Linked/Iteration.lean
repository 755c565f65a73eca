import OrderedTable.Proofs.Linked.Integrity

/-!
# Iteration from both ends

An iteration over a linked table keeps two handles, the next one to take at the front and the next one
to take at the back, and how many entries are left (`Cursor`). Each handle moves along links of its own
and neither knows of the other: past the middle both still have somewhere to go, and it is the count
alone that ends the iteration.

What holds the three together is a run of rows in the middle of the table that has not been given out
(`Cursor.Spans`). Every call takes a row off that run, as a `Span` of the rows does, so an iteration is a
deque (`Drained`) whichever ends it is asked at.
-/

namespace OrderedTable

/-- The end of the global order at which an entry is taken. -/
inductive End where
  | front
  | back
  deriving DecidableEq, Repr

/-- Takes at one end after another: what is given out by every call, and what comes after. -/
def takeWith {σ α : Type} (take : σ → End → Option α × σ) : σ → List End → List (Option α) × σ
  | s, [] => ([], s)
  | s, e :: ends =>
    let (given, after) := take s e
    let (answers, last) := takeWith take after ends
    (given :: answers, last)

/-- The first call, and the calls on what it leaves. -/
theorem takeWith_cons {σ α : Type} (take : σ → End → Option α × σ) (s : σ) (e : End) (ends : List End) :
    takeWith take s (e :: ends) =
      ((take s e).1 :: (takeWith take (take s e).2 ends).1, (takeWith take (take s e).2 ends).2) :=
  rfl

/-! ## Taking items off a run -/

section
variable {α β : Type}

/-- What was taken at one of the ends, in the order in which it was. -/
def takenAt (e : End) (taken : List (End × α)) : List α := (taken.filter (·.1 = e)).map (·.2)

/-- The items of a run are taken at the ends asked for, until none is left. -/
structure Drained (items : List α) (ends : List End) (answers : List (Option α))
    (taken : List (End × α)) (left : List α) : Prop where
  /-- A call is answered as long as there are items, and none is from then on. -/
  answered : answers = taken.map (some ·.2) ++ List.replicate (ends.length - items.length) none
  asked : taken.map (·.1) = ends.take items.length
  /-- What was taken at the front stands before what is left, and what was taken at the back behind. -/
  whole : takenAt .front taken ++ left ++ (takenAt .back taken).reverse = items

namespace Drained

variable {items : List α} {ends : List End} {answers : List (Option α)} {taken : List (End × α)}
  {left : List α}

/-- Without a call everything is left. -/
theorem nil (items : List α) : Drained items [] [] [] items :=
  ⟨by simp, by simp, by simp [takenAt]⟩

/-- From an empty run nothing comes. -/
theorem empty (ends : List End) :
    Drained ([] : List α) ends (List.replicate ends.length none) [] [] :=
  ⟨by simp, by simp, by simp [takenAt]⟩

/-- A call at the front of a longer run answers its first item; the rest is drained as before. -/
theorem front (h : Drained items ends answers taken left) (x : α) :
    Drained (x :: items) (.front :: ends) (some x :: answers) ((.front, x) :: taken) left where
  answered := by simp [h.answered]
  asked := by simp [h.asked]
  whole := by
    show x :: takenAt .front taken ++ left ++ (takenAt .back taken).reverse = x :: items
    rw [List.cons_append, List.cons_append, h.whole]

/-- A call at the back answers the last item. -/
theorem back (h : Drained items ends answers taken left) (x : α) :
    Drained (items ++ [x]) (.back :: ends) (some x :: answers) ((.back, x) :: taken) left where
  answered := by simp [h.answered]
  asked := by simp [h.asked]
  whole := by
    show takenAt .front taken ++ left ++ (x :: takenAt .back taken).reverse = items ++ [x]
    rw [List.reverse_cons, ← List.append_assoc, h.whole]

/-- Whether the items are picked by their end before or after they are looked at. -/
theorem takenAt_map (f : α → β) (e : End) (taken : List (End × α)) :
    takenAt e (taken.map fun p => (p.1, f p.2)) = (takenAt e taken).map f := by
  rw [takenAt, takenAt, List.filter_map, List.map_map, List.map_map]
  rfl

/-- What is seen of the items is drained as they are. -/
theorem map (h : Drained items ends answers taken left) (f : α → β) :
    Drained (items.map f) ends (answers.map (Option.map f)) (taken.map fun p => (p.1, f p.2))
      (left.map f) where
  answered := by simp [h.answered]
  asked := by simp [h.asked, Function.comp_def]
  whole := by
    rw [takenAt_map, takenAt_map, ← h.whole]
    simp

/-- Nothing is taken twice, nor taken and left: between them they are the items. -/
theorem perm (h : Drained items ends answers taken left) : (taken.map (·.2) ++ left).Perm items := by
  have hback : taken.filter (fun p => !decide (p.1 = .front)) = taken.filter (·.1 = .back) := by
    refine List.filter_congr fun p _ => ?_
    cases p.1 <;> rfl
  -- what was taken is split by its end; what was taken at the back stands in reverse
  have hsplit : (takenAt .front taken ++ takenAt .back taken).Perm (taken.map (·.2)) := by
    rw [takenAt, takenAt, ← List.map_append, ← hback]
    exact (List.filter_append_perm _ taken).map _
  have hreverse : (left ++ (takenAt .back taken).reverse).Perm (takenAt .back taken ++ left) :=
    List.perm_append_comm.trans ((List.reverse_perm _).append_right left)
  rw [← h.whole, List.append_assoc]
  refine (hsplit.symm.append_right left).trans ?_
  rw [List.append_assoc]
  exact hreverse.symm.append_left _

end Drained

end

namespace Span

variable {δ : Type}

/-- Takes a row at one of the ends. -/
def take (s : Span δ) : End → Option (Row δ) × Span δ
  | .front => s.next
  | .back => s.nextBack

/-- An empty span answers no call and stays as it is. -/
theorem takes_empty (ends : List End) :
    takeWith take (⟨[]⟩ : Span δ) ends = (List.replicate ends.length none, ⟨[]⟩) := by
  induction ends with
  | nil => rfl
  | cons e ends ih =>
    have hstep : (⟨[]⟩ : Span δ).take e = (none, ⟨[]⟩) := by cases e <;> rfl
    rw [takeWith_cons, hstep, ih]
    rfl

/-- The rows of a span are drained by taking from it. -/
theorem drained (rows : List (Row δ)) (ends : List End) :
    ∃ taken left, Drained rows ends (takeWith take ⟨rows⟩ ends).1 taken left ∧
      (takeWith take ⟨rows⟩ ends).2 = ⟨left⟩ := by
  -- each call shortens the run at its end, so it is taken apart there
  induction ends generalizing rows with
  | nil => exact ⟨[], rows, .nil rows, rfl⟩
  | cons e ends ih =>
    rcases rows.eq_nil_or_concat with rfl | ⟨firsts, last, hlast⟩
    · rw [takes_empty]
      exact ⟨[], [], .empty (e :: ends), rfl⟩
    cases e with
    | front =>
      cases rows with
      | nil => simp at hlast
      | cons r rows =>
        obtain ⟨taken, left, hdrained, hafter⟩ := ih rows
        exact ⟨_, left, hdrained.front r, hafter⟩
    | back =>
      have hstep : (⟨rows⟩ : Span δ).take .back = (some last, ⟨firsts⟩) := by
        simp [take, nextBack, hlast]
      obtain ⟨taken, left, hdrained, hafter⟩ := ih firsts
      rw [takeWith_cons, hstep, hlast, List.concat_eq_append]
      exact ⟨_, left, hdrained.back last, hafter⟩

end Span

/-! ## The cursors of a linked table -/

/-- An iteration over a linked table. -/
structure Cursor where
  front : Option Handle
  back : Option Handle
  remaining : Nat

namespace Cursor

/-- The handle to take next. -/
def handle (c : Cursor) : End → Option Handle
  | .front => c.front
  | .back => c.back

/-- The iteration with one entry less, which stood before `h` at one of the ends. -/
def advance (c : Cursor) (e : End) (h : Option Handle) : Cursor :=
  match e with
  | .front => { c with front := h, remaining := c.remaining - 1 }
  | .back => { c with back := h, remaining := c.remaining - 1 }

end Cursor

/-- The link away from one of the ends. -/
def Node.inward (n : Node) : End → Option Handle
  | .front => n.next
  | .back => n.previous

namespace Linked

open Table (firstHandle lastHandle)

/-- An iteration over all entries. -/
def cursor (L : Linked) : Cursor := ⟨L.head, L.tail, L.size⟩

/-- Takes the next entry at one of the ends, unless none remains. -/
def take (L : Linked) (c : Cursor) (e : End) : Option Item × Cursor :=
  if c.remaining = 0 then (none, c)
  else
    match (c.handle e).bind fun h => (L.node? h).map fun n => (h, n) with
    | some (h, n) => (some ⟨h, n.toEntry⟩, c.advance e (n.inward e))
    | none => (none, c)

variable {C : Catalogue} {L : Linked} {t : Table Datum}

/-- A run in the middle of the rows is what an iteration has not given out: its handles are the ends of
the run, or have just gone over the ends of the table or past each other, and the count is that of the
run. -/
def Spans (t : Table Datum) (c : Cursor) (rows : List (Row Datum)) : Prop :=
  ∃ before after, t.rows = before ++ rows ++ after ∧
    c = ⟨firstHandle (rows ++ after), lastHandle (before ++ rows), rows.length⟩

/-- The neighbours of a row are the ends of the runs on either side of it. -/
theorem neighbours_of_split (hs : t.Shaped) {xs ys : List (Row Datum)} {r : Row Datum}
    (hsplit : t.rows = xs ++ r :: ys) :
    t.previous? r.handle = lastHandle xs ∧ t.next? r.handle = firstHandle ys :=
  Table.Between.neighbours (t := { t with rows := xs ++ ys }) ⟨rfl, hsplit, hs.distinct⟩

/-- One call takes the row that the span of the run gives, and leaves the cursor at the run without it. -/
theorem Represents.take_spans (hr : L.Represents t) (hs : t.Shaped) {c : Cursor}
    {rows : List (Row Datum)} (hspans : Spans t c rows) (e : End) :
    (L.take c e).1 = ((⟨rows⟩ : Span Datum).take e).1.map Row.item ∧
      Spans t (L.take c e).2 ((⟨rows⟩ : Span Datum).take e).2.rows := by
  obtain ⟨before, after, hrows, rfl⟩ := hspans
  rcases rows.eq_nil_or_concat with rfl | ⟨firsts, last, hlast⟩
  · -- the count alone tells that nothing is left
    cases e <;> exact ⟨rfl, before, after, hrows, rfl⟩
  have node : ∀ r ∈ t.rows, L.node? r.handle =
      some ⟨r.toEntry, t.previous? r.handle, t.next? r.handle⟩ := by
    intro r hmem
    rw [hr.node?, Table.node?, hs.row?_of_mem hmem]
    rfl
  cases e with
  | front =>
    cases rows with
    | nil => simp at hlast
    | cons r rows =>
      have hsplit : t.rows = before ++ r :: (rows ++ after) := by simp [hrows]
      have hnode := node r (by simp [hsplit])
      rw [(neighbours_of_split hs hsplit).2] at hnode
      refine ⟨?_, before ++ [r], after, by simp [hrows, Span.take, Span.next], ?_⟩
      · simp [take, Cursor.handle, firstHandle, hnode, Span.take, Span.next, Row.item]
      · simp [take, Cursor.handle, Cursor.advance, Node.inward, firstHandle, hnode, Span.take, Span.next]
  | back =>
    have hsplit : t.rows = (before ++ firsts) ++ last :: after := by simp [hrows, hlast]
    have hnode := node last (by simp [hsplit])
    rw [(neighbours_of_split hs hsplit).1] at hnode
    refine ⟨?_, before, last :: after, by simp [hrows, hlast, Span.take, Span.nextBack], ?_⟩
    · simp [take, Cursor.handle, lastHandle, hlast, hnode, Span.take, Span.nextBack, Row.item]
    · simp [take, Cursor.handle, Cursor.advance, Node.inward, lastHandle, hlast, hnode, Span.take,
        Span.nextBack]

/-- So does every sequence of calls. -/
theorem Represents.takes_spans (hr : L.Represents t) (hs : t.Shaped) (ends : List End) {c : Cursor}
    {rows : List (Row Datum)} (hspans : Spans t c rows) :
    (takeWith L.take c ends).1 = (takeWith Span.take ⟨rows⟩ ends).1.map (Option.map Row.item) ∧
      Spans t (takeWith L.take c ends).2 (takeWith Span.take ⟨rows⟩ ends).2.rows := by
  -- after every call the cursor is at a shorter run
  induction ends generalizing c rows with
  | nil => exact ⟨rfl, hspans⟩
  | cons e ends ih =>
    obtain ⟨hgiven, hafter⟩ := hr.take_spans hs hspans e
    obtain ⟨hanswers, hlast⟩ := ih hafter
    rw [takeWith_cons, takeWith_cons, hgiven, hanswers]
    exact ⟨rfl, hlast⟩

/-- At the start nothing has been given out. -/
theorem Represents.spans_cursor (hr : L.Represents t) : Spans t L.cursor t.rows := by
  refine ⟨[], [], by simp, ?_⟩
  rw [cursor, hr.head, hr.tail, hr.size_eq, List.append_nil]
  rfl

/-- The iteration over a linked table, whatever its history and at whichever ends entries are taken,
gives out the front of the global order and, the other way round, its back; it has as many entries
remaining as stand between, and gives out none twice. It answers as often as there are entries, and not
afterwards, and always as the span of the rows does. -/
theorem history_drained (C : Catalogue) {t : Table Datum} (hsource : t.Source C)
    (ops : List Operation) :
    ∃ (keyKind : Kind) (wanted : Nat) (added : List (Entry Datum)),
      t = (Table.empty keyKind wanted).run C (added.map .add) ∧
      let L := (Linked.empty keyKind wanted).run C (added.map .add ++ ops)
      let u := t.run C ops
      L.Represents u ∧ L.size = u.size ∧ ∀ ends : List End,
        let drawn := takeWith L.take L.cursor ends
        let spanned := takeWith Span.take u.span ends
        drawn.1 = spanned.1.map (Option.map Row.item) ∧ drawn.2.remaining = spanned.2.length ∧
        ∃ taken left, Drained (u.rows.map Row.item) ends drawn.1 taken left ∧
          drawn.2.remaining = left.length ∧ (taken.map (·.2.handle)).Nodup := by
  obtain ⟨keyKind, wanted, added, heq, hrepr, -⟩ := history_intact C hsource ops
  have hshaped : (t.run C ops).Shaped := hsource.shaped.run ops
  refine ⟨keyKind, wanted, added, heq, hrepr, hrepr.size_eq, fun ends => ?_⟩
  intro drawn spanned
  obtain ⟨hanswers, hlast⟩ := hrepr.takes_spans hshaped ends hrepr.spans_cursor
  have hremaining : drawn.2.remaining = spanned.2.length := by
    obtain ⟨_, _, -, hcursor⟩ := hlast
    exact congrArg Cursor.remaining hcursor
  obtain ⟨taken, left, hdrained, hspan⟩ := Span.drained (t.run C ops).rows ends
  refine ⟨hanswers, hremaining, _, _, hanswers ▸ hdrained.map Row.item, ?_, ?_⟩
  · rw [hremaining, List.length_map]
    exact congrArg Span.length hspan
  · -- the handles taken are some of those of the rows, which are all different
    have hperm := (hdrained.perm.map (·.handle)).nodup_iff.2 (List.pairwise_map.2 hshaped.distinct)
    rw [List.map_append, List.nodup_append, List.map_map] at hperm
    rw [List.map_map]
    exact hperm.1

/-- Three entries, two of them under one key, and four calls at alternating ends. -/
theorem history_drained_alternately :
    let t : Table Datum := .empty .i32 0
    let entry : BitVec 32 → Entry Datum := fun n => ⟨.scalar (.int .i32 n), .scalar (.int .i32 n), .i32⟩
    let ops : List Operation := [.add (entry 7), .add (entry 9), .add (entry 7)]
    let ends : List End := [.front, .back, .front, .back]
    t.Source .specimens ∧
    ∃ (keyKind : Kind) (wanted : Nat) (added : List (Entry Datum)),
      let L := (Linked.empty keyKind wanted).run .specimens (added.map .add ++ ops)
      let drawn := takeWith L.take L.cursor ends
      drawn.2.remaining = 0 ∧
        ∃ taken left, Drained ((t.run .specimens ops).rows.map Row.item) ends drawn.1 taken left ∧
          drawn.2.remaining = left.length ∧ (taken.map (·.2.handle)).Nodup := by
  intro t entry ops ends
  have hsource : t.Source .specimens := .empty .i32 0
  obtain ⟨keyKind, wanted, added, -, -, -, hdrained⟩ := history_drained .specimens hsource ops
  obtain ⟨-, hremaining, htaken⟩ := hdrained ends
  have hnone : (takeWith Span.take (t.run .specimens ops).span ends).2.length = 0 := by decide
  exact ⟨hsource, keyKind, wanted, added, hremaining.trans hnone, htaken⟩

end Linked

end OrderedTable
