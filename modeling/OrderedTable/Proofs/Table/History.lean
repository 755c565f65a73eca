import OrderedTable.Json.Import
import OrderedTable.Markup.Scan
import OrderedTable.Proofs.Table.Operation
import OrderedTable.Proofs.Table.Shape
import OrderedTable.Table.Listing
import OrderedTable.Wire.Decode

/-!
# Where tables come from

A table starts out empty, as a copy, or from a list, a binary form, XML or JSON (`Table.Source`). All
of these begin with an empty table and insert entries one after another, so every table there is has a
history of operations on an empty table (`Source.exists_history`), and what such histories keep holds
of all tables. The shape of a table is kept by every operation.
-/

namespace OrderedTable

/-- What an entry of a list becomes in a table, if anything: one with a nested list gets the table of that
list, and any other is copied. -/
def Entry.taken (C : Catalogue) (keyKind : Kind) (e : Entry Datum) : Option (Entry Datum) :=
  match e.value with
  | .list l => some ⟨(keyKind.copy C e.key).getD (keyKind.initial C), .table (.ofListing C l), .table⟩
  | _ => (e.copied C keyKind).toOption

namespace Table

variable {C : Catalogue}

/-! ## The shape is kept -/

/-- Every change keeps the shape of a table. -/
theorem Change.shaped {t u : Table Datum} {op : Operation} (h : Change C t op u) (ht : t.Shaped) :
    u.Shaped := by
  cases h with
  | none => exact ht
  | insert => exact ht.insert _
  | erase _ handle => exact ht.erase handle
  | modify _ handle change _ bucket name => exact ht.modify handle bucket name
  | clear => exact ht.clear
  | setKeyKind k => exact ht.setKeyKind k

/-- So every history does. -/
theorem Shaped.run {t : Table Datum} (h : t.Shaped) (ops : List Operation) : (t.run C ops).Shaped :=
  runWith_induction (P := Shaped) (fun _ op (_ : True) hs => (perform_change _ op).shaped hs)
    (fun _ _ => trivial) h

/-- No change is made to the number of buckets. -/
theorem Change.capacity_eq {t u : Table Datum} {op : Operation} (h : Change C t op u) :
    u.capacity = t.capacity := by
  cases h <;> rfl

/-- A table has as many buckets after a history as before it. -/
theorem run_capacity (t : Table Datum) (ops : List Operation) : (t.run C ops).capacity = t.capacity := by
  have keeps : ∀ (u : Table Datum) (op : Operation), True → u.capacity = t.capacity →
      (u.perform C op).1.capacity = t.capacity :=
    fun u op _ hu => (perform_change u op).capacity_eq.trans hu
  exact runWith_induction keeps (fun _ _ => trivial) rfl

/-- A history may be cut anywhere. -/
theorem run_append (t : Table Datum) (first rest : List Operation) :
    t.run C (first ++ rest) = (t.run C first).run C rest :=
  runWith_append _ _ _ _

theorem run_cons (t : Table Datum) (op : Operation) (ops : List Operation) :
    t.run C (op :: ops) = (t.perform C op).1.run C ops := rfl

/-! ## Filling a table -/

/-- One insertion into a table that is being filled. -/
theorem perform_add (t : Table Datum) (e : Entry Datum) :
    (t.perform C (.add e)).1 = (t.add C e).toOption.getD t := by
  show (Answer.insertion t t.nextHandle (t.add C e)).1 = _
  cases t.add C e <;> rfl

/-- Filling a table is a history of insertions. -/
theorem addAll_eq_run (t : Table Datum) (entries : List (Entry Datum)) :
    t.addAll C entries = t.run C (entries.map .add) := by
  induction entries generalizing t with
  | nil => rfl
  | cons e entries ih =>
    rw [List.map_cons, run_cons, perform_add]
    exact ih _

/-- An entry that is accepted is inserted before the others. -/
theorem addAll_cons {t : Table Datum} {e : Entry Datum} (hkey : t.keyKind.accepts C e.key = true)
    (hvalue : e.kind.accepts C e.value = true) (entries : List (Entry Datum)) :
    t.addAll C (e :: entries) = (t.insert C e).addAll C entries := by
  have hadd : t.add C e = .ok (t.insert C e) := by
    rw [add, hkey, hvalue]
    rfl
  show ((t.add C e).toOption.getD t).addAll C entries = _
  rw [hadd]
  rfl

/-- What each insertion into a table keeps, filling the table keeps. -/
theorem addAll_induction {P : Table Datum → Prop} (hinsert : ∀ t e, P t → P (t.insert C e))
    {t : Table Datum} (ht : P t) (entries : List (Entry Datum)) : P (t.addAll C entries) := by
  induction entries generalizing t with
  | nil => exact ht
  | cons e entries ih =>
    have hstep : P ((t.add C e).toOption.getD t) := by
      cases hadd : t.add C e with
      | error fault => exact ht
      | ok u =>
        obtain ⟨-, -, rfl⟩ := add_eq_ok hadd
        exact hinsert t e ht
    exact ih hstep

/-- Filling a table leaves the kind of its keys and its capacity. -/
theorem addAll_fields (t : Table Datum) (entries : List (Entry Datum)) :
    (t.addAll C entries).keyKind = t.keyKind ∧ (t.addAll C entries).capacity = t.capacity :=
  addAll_induction (P := fun u => u.keyKind = t.keyKind ∧ u.capacity = t.capacity)
    (fun _ _ h => h) ⟨rfl, rfl⟩ entries

/-- Filling a table adds no rows but those of the entries. -/
theorem mem_addAll {t : Table Datum} (ht : t.Shaped) {entries : List (Entry Datum)} {r : Row Datum}
    (hr : r ∈ (t.addAll C entries).rows) : r ∈ t.rows ∨ r.toEntry ∈ entries := by
  induction entries generalizing t with
  | nil => exact .inl hr
  | cons e entries ih =>
    have hr : r ∈ (((t.add C e).toOption.getD t).addAll C entries).rows := hr
    cases hadd : t.add C e with
    | error fault =>
      rw [hadd] at hr
      exact (ih ht hr).imp_right (List.mem_cons_of_mem _)
    | ok u =>
      obtain ⟨-, -, rfl⟩ := add_eq_ok hadd
      rw [hadd] at hr
      rcases ih (ht.insert e) hr with hmem | hmem
      · rcases (ht.mem_insert e).1 hmem with rfl | hmem
        · exact .inr List.mem_cons_self
        · exact .inl hmem
      · exact .inr (List.mem_cons_of_mem _ hmem)

/-- A table that is filled from nothing holds no entries but those. -/
theorem mem_entries_addAll {keyKind : Kind} {wanted : Nat} {entries : List (Entry Datum)} {e : Entry Datum}
    (he : e ∈ ((Table.empty keyKind wanted).addAll C entries).entries) : e ∈ entries := by
  obtain ⟨r, hr, rfl⟩ := List.mem_map.1 he
  exact (mem_addAll (.empty keyKind wanted) hr).resolve_left nofun

/-- Entries of a list are put into a table one after another. -/
theorem takeEntries_eq_addAll (t : Table Datum) (entries : List (Entry Datum)) :
    Table.takeEntries C t entries = t.addAll C (entries.filterMap (Entry.taken C t.keyKind)) := by
  induction entries generalizing t with
  | nil => rw [takeEntries]; rfl
  | cons e entries ih =>
    -- what is made of the first entry is put in, if anything is, and the kind of the keys is kept
    have step : ∀ made : Option (Entry Datum), e.taken C t.keyKind = made →
        Table.takeEntries C t (e :: entries) = Table.takeEntries C (t.addAll C made.toList) entries →
        Table.takeEntries C t (e :: entries) =
          t.addAll C ((e :: entries).filterMap (Entry.taken C t.keyKind)) := by
      intro made hmade htake
      have hkeyKind : (t.addAll C made.toList).keyKind = t.keyKind := (addAll_fields t _).1
      rw [htake, ih, hkeyKind, List.filterMap_cons, hmade]
      cases made with
      | none => rfl
      | some f => rfl
    -- a nested list is taken as a table; all else is copied
    obtain ⟨key, value, kind⟩ := e
    cases value with
    | list l => exact step _ rfl (by rw [takeEntries]; rfl)
    | _ =>
      refine step _ rfl ?_
      rw [takeEntries]
      · rw [addCopied, Entry.taken]
        cases Entry.copied C t.keyKind _ <;> rfl
      · rintro _ _ _ ⟨⟩

/-- A table made of a list is filled with what becomes of its entries. -/
theorem ofListing_eq_addAll (l : Listing Datum) : Table.ofListing C l =
    (Table.empty l.keyKind l.entries.length).addAll C (l.entries.filterMap (Entry.taken C l.keyKind)) := by
  obtain ⟨keyKind, entries⟩ := l
  rw [ofListing, takeEntries_eq_addAll]
  rfl

/-- Members are put into a table one after another, unless one is refused. -/
theorem exists_run_of_fill {t u : Table Datum} {members : List (String × Json)}
    (h : Json.fill C t members = .ok u) : ∃ added : List (Entry Datum), u = t.run C (added.map .add) := by
  induction members generalizing t with
  | nil =>
    cases h
    exact ⟨[], rfl⟩
  | cons m members ih =>
    rw [Json.fill] at h
    obtain ⟨made, -, h⟩ := ok_of_bind h
    -- a `null` is left out, and every other member is put in or ends the filling
    cases made with
    | none => exact ih h
    | some made =>
      obtain ⟨next, hadd, h⟩ := ok_of_bind h
      obtain ⟨added, rfl⟩ := ih h
      refine ⟨⟨.ofText m.1, made.1, made.2⟩ :: added, ?_⟩
      rw [List.map_cons, run_cons, perform_add, hadd]
      rfl

/-! ## Sources -/

/-- A table before anything was done to it. -/
inductive Source (C : Catalogue) : Table Datum → Prop
  | empty (keyKind : Kind) (wanted : Nat) : Source C (.empty keyKind wanted)
  | copy (t : Table Datum) : Source C (t.copy C)
  | listing (l : Listing Datum) : Source C (.ofListing C l)
  | binary {input : Input} {d : Decoded (Table Datum)} (h : Table.decode C input = .ok d) :
      Source C d.value
  | xml {text : String} {t : Table Datum} (h : Table.ofXml? C text = some t) : Source C t
  | json {members : List (String × Json)} {t : Table Datum} (h : Json.toTable C members = .ok t) : Source C t

/-- Every table starts as an empty one into which entries were put. -/
theorem Source.exists_history {t : Table Datum} (h : Source C t) :
    ∃ (keyKind : Kind) (wanted : Nat) (added : List (Entry Datum)),
      t = (Table.empty keyKind wanted).run C (added.map .add) := by
  cases h with
  | empty keyKind wanted => exact ⟨keyKind, wanted, [], rfl⟩
  | copy t => exact ⟨_, _, _, addAll_eq_run _ _⟩
  | listing l => exact ⟨_, _, _, (ofListing_eq_addAll l).trans (addAll_eq_run _ _)⟩
  | binary h =>
    obtain ⟨block, -, rfl⟩ := ok_of_map h
    exact ⟨_, _, _, addAll_eq_run _ _⟩
  | xml h =>
    unfold Table.ofXml? at h
    dsimp only at h
    split at h
    · cases h
      rw [Table.scan]
      exact ⟨_, _, _, addAll_eq_run _ _⟩
    · cases h
  | json h =>
    obtain ⟨added, rfl⟩ := exists_run_of_fill h
    exact ⟨_, _, added, rfl⟩

/-- A table from any source is in its shape. -/
theorem Source.shaped {t : Table Datum} (h : Source C t) : t.Shaped := by
  obtain ⟨keyKind, wanted, added, rfl⟩ := h.exists_history
  exact (Shaped.empty keyKind wanted).run _

end Table

end OrderedTable
