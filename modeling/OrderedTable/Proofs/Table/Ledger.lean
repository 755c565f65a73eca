import OrderedTable.Proofs.Datum.Copying
import OrderedTable.Proofs.Order.Specimens
import OrderedTable.Proofs.Table.Lookup
import OrderedTable.Proofs.Table.Neighbours

/-!
# A table is a ledger of its entries

A `Ledger` keeps entries in the order of their insertion, each under a handle, and looks for a key by
going through them from the oldest on. Nothing in it depends on digests, buckets or their order.

`Table.answers_eq_ledger` says that every history gives the same answers from a table as from a ledger,
provided that the bases its keys mention are registered and that registered extensions are lawful. So
the oldest entry with a key is the one that is found and removed, a handle names one entry as long as
the entry is there and never again, and an insertion that is refused changes nothing.
-/

namespace OrderedTable

/-- Entries in the order of their insertion. -/
structure Ledger where
  keyKind : Kind
  items : List Item
  lastAdded : Option Kind
  nextSerial : Nat

namespace Ledger

/-- The ledger without entries. -/
def empty (keyKind : Kind) : Ledger := ⟨keyKind, [], none, 0⟩

/-- The entry of a handle. -/
def item? (g : Ledger) (h : Handle) : Option Item := g.items.find? (·.handle = h)

/-- The ledger with an entry at the end. -/
def append (g : Ledger) (e : Entry Datum) : Ledger :=
  { g with
    items := g.items ++ [⟨⟨g.nextSerial⟩, e⟩]
    lastAdded := some e.kind
    nextSerial := g.nextSerial + 1 }

/-- The ledger without the entry of a handle. -/
def drop (g : Ledger) (h : Handle) : Ledger := { g with items := g.items.filter (·.handle ≠ h) }

/-- The ledger with the entry of a handle changed. -/
def update (g : Ledger) (h : Handle) (change : Entry Datum → Entry Datum) : Ledger :=
  { g with items := g.items.map fun i => if i.handle = h then ⟨i.handle, change i.entry⟩ else i }

variable (C : Catalogue)

/-- The oldest entry with a key. A key that the kind of the keys does not accept has none. -/
def oldest? (g : Ledger) (key : Datum) : Option Item :=
  if g.keyKind.accepts C key.peel then
    g.items.find? fun i => g.keyKind.order C i.entry.key key.peel = .eq
  else none

/-- Puts in an entry, if the kinds accept it. -/
def add (g : Ledger) (e : Entry Datum) : Except TableFault Ledger :=
  if !g.keyKind.accepts C e.key then .error (.keyKind (C.name g.keyKind))
  else if !e.kind.accepts C e.value then .error (.valueKind (C.name e.kind))
  else .ok (g.append e)

/-- Gives the oldest entry with a key another value. -/
def setValue? (g : Ledger) (key value : Datum) : Option Ledger :=
  (g.oldest? C key).map fun i => g.update i.handle fun e => { e with value }

/-- Removes the oldest entry with a key. -/
def remove? (g : Ledger) (key : Datum) : Option (Entry Datum × Ledger) :=
  (g.oldest? C key).map fun i => (i.entry, g.drop i.handle)

/-- Removes the entry with a handle. -/
def removeItem? (g : Ledger) (h : Handle) : Option (Entry Datum × Ledger) :=
  (g.item? h).map fun i => (i.entry, g.drop h)

/-- Gives an entry another kind, if that accepts its value. -/
def setValueKind (g : Ledger) (h : Handle) (k : Kind) : Except TableFault Ledger :=
  match g.item? h with
  | some i =>
    if k.accepts C i.entry.value then .ok (g.update h fun e => { e with kind := k })
    else .error (.valueKind (C.name k))
  | none => .error (.valueKind (C.name k))

/-- The handle of the entry put in next. -/
def nextHandle (g : Ledger) : Handle := ⟨g.nextSerial⟩

/-- One operation on a ledger, and its answer. -/
def perform (g : Ledger) : Operation → Ledger × Answer
  | .add e => Answer.insertion g g.nextHandle (g.add C e)
  | .addInferred key value =>
    Answer.insertion g g.nextHandle (g.add C ⟨key, value, g.lastAdded.getD g.keyKind⟩)
  | .addCopied e => Answer.insertion g g.nextHandle ((e.copied C g.keyKind).bind (g.add C))
  | .find key => (g, .found (g.oldest? C key))
  | .get key => (g, .value ((g.oldest? C key).map (·.entry.value)))
  | .contains key => (g, .flag (g.oldest? C key).isSome)
  | .look h => (g, .found (g.item? h))
  | .setValue key value => Answer.replacement g (g.setValue? C key value)
  | .remove key => Answer.removal g (g.remove? C key)
  | .removeRow h => Answer.removal g (g.removeItem? h)
  | .setValueKind h k => Answer.relabelling g (g.setValueKind C h k)
  | .clear => ({ g with items := [] }, .done)
  | .setKeyKind k => ({ g with keyKind := k }, .done)

/-- The ledger after a history. -/
def run (g : Ledger) (ops : List Operation) : Ledger := (runWith (perform C) g ops).1

/-- The answers in a history. -/
def answers (g : Ledger) (ops : List Operation) : List Answer := (runWith (perform C) g ops).2

end Ledger

namespace Table

variable {C : Catalogue} {P : Base → Prop} {t : Table Datum} {g : Ledger}

/-- The ledger has the entries of the table, the oldest first. -/
structure Tallies (t : Table Datum) (g : Ledger) : Prop where
  keyKind : g.keyKind = t.keyKind
  lastAdded : g.lastAdded = t.lastAdded
  nextSerial : g.nextSerial = t.nextSerial
  items : g.items.Perm (t.rows.map Row.item)
  aged : g.items.Pairwise fun i j => i.handle.serial < j.handle.serial

/-- A table in its shape with its rows where they belong, and whose keys keep to some bases. -/
structure Kept (C : Catalogue) (P : Base → Prop) (t : Table Datum) : Prop where
  base : P t.keyKind.base
  shaped : t.Shaped
  filed : t.Filed C
  within : ∀ r ∈ t.rows, t.keyKind.Within P r.key

/-! ## Looking up in a ledger -/

/-- Of items in the order of their age, the first with a property is the oldest. -/
theorem find?_eq_oldest {items : List Item} {p : Item → Bool}
    (haged : items.Pairwise fun i j => i.handle.serial < j.handle.serial) {i : Item} (hi : i ∈ items)
    (hp : p i = true) (holdest : ∀ j ∈ items, p j = true → i.handle.serial ≤ j.handle.serial) :
    items.find? p = some i := by
  -- along the items, from the oldest on
  induction items with
  | nil => cases hi
  | cons j items ih =>
    obtain ⟨hj, hrest⟩ := List.pairwise_cons.1 haged
    by_cases hpj : p j = true
    · rw [List.find?_cons_of_pos hpj]
      rcases List.mem_cons.1 hi with rfl | hi
      · rfl
      · have hlt := hj i hi
        have hle := holdest j List.mem_cons_self hpj
        omega
    · rw [List.find?_cons_of_neg hpj]
      rcases List.mem_cons.1 hi with rfl | hi
      · exact absurd hp hpj
      · exact ih hrest hi fun j hj => holdest j (List.mem_cons_of_mem _ hj)

namespace Tallies

variable (h : t.Tallies g)
include h

/-- The items of the ledger are those that the rows show. -/
theorem mem_items {i : Item} : i ∈ g.items ↔ ∃ r ∈ t.rows, r.item = i :=
  h.items.mem_iff.trans List.mem_map

/-- A handle shows the same in both. -/
theorem item?_eq (handle : Handle) : g.item? handle = (t.row? handle).map Row.item := by
  -- handles are their own, so there is but one row to find
  cases hrow : t.row? handle with
  | none =>
    refine List.find?_eq_none.2 fun i hi => ?_
    obtain ⟨r, hr, rfl⟩ := h.mem_items.1 hi
    exact fun heq => row?_eq_none.1 hrow r hr (of_decide_eq_true heq)
  | some r =>
    have hmem : r ∈ t.rows := List.mem_of_find?_eq_some hrow
    have hrh : r.handle = handle := by simpa using List.find?_some hrow
    refine find?_eq_oldest h.aged (h.mem_items.2 ⟨r, hmem, rfl⟩) (decide_eq_true hrh) ?_
    intro j hj hjh
    rw [of_decide_eq_true hjh]
    exact Nat.le_of_eq (congrArg Handle.serial hrh)

/-- The oldest entry with a key is the row found, as rows with equal keys stand in the order of their age. -/
theorem oldest?_eq (hC : C.Lawful P) (hk : t.Kept C P) {key : Datum}
    (hkey : t.keyKind.Within P key.peel) : g.oldest? C key = (t.find? C key).map Row.item := by
  rw [Ledger.oldest?, h.keyKind]
  -- a key that is not accepted has no entry in either
  by_cases haccepts : t.keyKind.accepts C key.peel = true
  · rw [if_pos haccepts]
    obtain ⟨hnone, hsome⟩ := hk.filed.find?_spec hC hk.within hkey haccepts
    cases hfind : t.find? C key with
    | none =>
      refine List.find?_eq_none.2 fun i hi => ?_
      obtain ⟨r, hr, rfl⟩ := h.mem_items.1 hi
      exact fun heq => hnone hfind r hr (of_decide_eq_true heq)
    | some r =>
      obtain ⟨hmem, heq, holdest⟩ := hsome r hfind
      refine find?_eq_oldest h.aged (h.mem_items.2 ⟨r, hmem, rfl⟩) (decide_eq_true heq) ?_
      intro j hj hjeq
      obtain ⟨s, hs, rfl⟩ := h.mem_items.1 hj
      exact holdest s hs (of_decide_eq_true hjeq)
  · rw [if_neg haccepts]
    have hfind : t.find? C key = none := by
      unfold find?
      simp only [haccepts]
      rfl
    rw [hfind]
    rfl

/-! ## One operation -/

/-- An entry at the end of the ledger is a row put in somewhere. -/
theorem append (hs : t.Shaped) (e : Entry Datum) : (t.insert C e).Tallies (g.append e) where
  keyKind := h.keyKind
  lastAdded := rfl
  nextSerial := congrArg (· + 1) h.nextSerial
  items := by
    have hitems := h.items
    rw [← hs.ahead_append_behind (C := C) e.key, List.map_append] at hitems
    have hnew : (⟨⟨g.nextSerial⟩, e⟩ : Item) = (t.newRow C e).item := by rw [h.nextSerial]; rfl
    show (g.items ++ [_]).Perm _
    -- the table puts the row in the middle, the ledger at the end
    rw [rows_insert, List.map_append, List.map_cons, ← hnew]
    exact (hitems.append_right _).trans (List.perm_append_singleton _ _ |>.trans List.perm_middle.symm)
  aged := by
    refine List.pairwise_append.2 ⟨h.aged, List.pairwise_singleton _ _, fun i hi j hj => ?_⟩
    obtain ⟨r, hr, rfl⟩ := h.mem_items.1 hi
    rw [List.mem_singleton.1 hj, h.nextSerial]
    exact hs.serial_lt r hr

/-- An entry taken out of the ledger is a row erased. -/
theorem drop (handle : Handle) : (t.erase handle).Tallies (g.drop handle) where
  keyKind := h.keyKind
  lastAdded := h.lastAdded
  nextSerial := h.nextSerial
  items := by
    have hitems := h.items.filter (·.handle ≠ handle)
    rw [List.filter_map] at hitems
    exact hitems
  aged := h.aged.filter _

/-- An entry changed is a row changed where it stands. -/
theorem update (handle : Handle) {change : Row Datum → Row Datum} {change' : Entry Datum → Entry Datum}
    (hitem : ∀ r, (change r).item = ⟨r.handle, change' r.toEntry⟩) :
    (t.modify handle change).Tallies (g.update handle change') where
  keyKind := h.keyKind
  lastAdded := h.lastAdded
  nextSerial := h.nextSerial
  items := by
    have hitems := h.items.map fun i => if i.handle = handle then ⟨i.handle, change' i.entry⟩ else i
    rw [List.map_map] at hitems
    show List.Perm _ (List.map _ (List.map _ _))
    rw [List.map_map]
    refine hitems.trans (List.Perm.of_eq (List.map_congr_left fun r _ => ?_))
    show (if r.handle = handle then (⟨r.handle, change' r.toEntry⟩ : Item) else r.item) =
      (if r.handle = handle then change r else r).item
    by_cases hr : r.handle = handle
    · rw [if_pos hr, if_pos hr, hitem]
    · rw [if_neg hr, if_neg hr]
  aged := by
    refine List.pairwise_map.2 (h.aged.imp fun {i j} hij => ?_)
    have name : ∀ i : Item, (if i.handle = handle then (⟨i.handle, change' i.entry⟩ : Item) else i).handle =
        i.handle := by
      intro i
      by_cases hi : i.handle = handle <;> simp [hi]
    rw [name, name]
    exact hij

/-- Both give the next entry the same handle. -/
theorem nextHandle_eq : t.nextHandle = g.nextHandle := by
  rw [nextHandle, Ledger.nextHandle, h.nextSerial]

/-- Both put an entry in, or refuse it for the same fault. -/
theorem add_agrees (hs : t.Shaped) (e : Entry Datum) :
    Agree Tallies (Answer.insertion t t.nextHandle (t.add C e))
      (Answer.insertion g g.nextHandle (g.add C e)) := by
  rw [add, Ledger.add, h.keyKind, h.nextHandle_eq]
  by_cases hk : (!t.keyKind.accepts C e.key) = true
  · rw [if_pos hk, if_pos hk]
    exact ⟨h, rfl⟩
  · rw [if_neg hk, if_neg hk]
    by_cases hv : (!e.kind.accepts C e.value) = true
    · rw [if_pos hv, if_pos hv]
      exact ⟨h, rfl⟩
    · rw [if_neg hv, if_neg hv]
      exact ⟨h.append hs e, rfl⟩

/-- Both give an entry another kind, or refuse it for the same fault. -/
theorem setValueKind_agrees (handle : Handle) (k : Kind) :
    Agree Tallies (Answer.relabelling t (t.setValueKind C handle k))
      (Answer.relabelling g (g.setValueKind C handle k)) := by
  rw [setValueKind, Ledger.setValueKind, h.item?_eq]
  cases t.row? handle with
  | none => exact ⟨h, rfl⟩
  | some r =>
    by_cases ha : k.accepts C r.value = true
    · let change : Row Datum → Row Datum := fun r => { r with kind := k }
      have hupdate : (t.modify handle change).Tallies
          (g.update handle fun e => { e with kind := k }) := h.update handle fun _ => rfl
      simp only [Option.map_some, Row.item, ha, if_true]
      exact ⟨hupdate, rfl⟩
    · simp only [Option.map_some, Row.item, ha]
      exact ⟨h, rfl⟩

/-- One operation does the same to a table and to its ledger. -/
theorem perform (hC : C.Lawful P) (hk : t.Kept C P) (op : Operation)
    (hkey : ∀ key, op.key? = some key → t.keyKind.Within P key.peel) :
    Agree Tallies (t.perform C op) (g.perform C op) := by
  -- operations that only look agree by what they see, and the others by their lemma
  cases op with
  | add e => exact h.add_agrees hk.shaped e
  | addInferred key value =>
    rw [Ledger.perform, h.lastAdded, h.keyKind]
    exact h.add_agrees hk.shaped _
  | addCopied e =>
    rw [Table.perform, Ledger.perform, addCopied, h.keyKind]
    cases e.copied C t.keyKind with
    | error fault => exact ⟨h, rfl⟩
    | ok copy => exact h.add_agrees hk.shaped copy
  | find key => exact ⟨h, congrArg Answer.found (h.oldest?_eq hC hk (hkey key rfl)).symm⟩
  | get key =>
    refine ⟨h, congrArg Answer.value ?_⟩
    rw [h.oldest?_eq hC hk (hkey key rfl), Option.map_map]
    rfl
  | contains key =>
    refine ⟨h, congrArg Answer.flag ?_⟩
    rw [h.oldest?_eq hC hk (hkey key rfl), Option.isSome_map]
    rfl
  | look handle => exact ⟨h, congrArg Answer.found (h.item?_eq handle).symm⟩
  | setValue key value =>
    rw [Table.perform, Ledger.perform, setValue?, Ledger.setValue?, h.oldest?_eq hC hk (hkey key rfl)]
    cases t.find? C key with
    | none => exact ⟨h, rfl⟩
    | some r =>
      let change : Row Datum → Row Datum := fun r => { r with value }
      have hupdate : (t.modify r.handle change).Tallies
          (g.update r.handle fun e => { e with value }) := h.update r.handle fun _ => rfl
      exact ⟨hupdate, rfl⟩
  | remove key =>
    rw [Table.perform, Ledger.perform, remove?, Ledger.remove?, h.oldest?_eq hC hk (hkey key rfl)]
    cases t.find? C key with
    | none => exact ⟨h, rfl⟩
    | some r => exact ⟨h.drop r.handle, rfl⟩
  | removeRow handle =>
    -- the table looks for the row in the bucket of its key, which is where it stands
    rw [Table.perform, Ledger.perform, removeRow?, Ledger.removeItem?, h.item?_eq]
    cases hrow : t.row? handle with
    | none => exact ⟨h, rfl⟩
    | some r =>
      rw [Option.bind_some, if_pos (hk.filed.placed r (List.mem_of_find?_eq_some hrow))]
      exact ⟨h.drop handle, rfl⟩
  | setValueKind handle k => exact h.setValueKind_agrees handle k
  | clear => exact ⟨⟨h.keyKind, h.lastAdded, h.nextSerial, .nil, .nil⟩, rfl⟩
  | setKeyKind k => exact ⟨⟨rfl, h.lastAdded, h.nextSerial, h.items, h.aged⟩, rfl⟩

end Tallies

/-! ## Histories -/

/-- A change keeps a table kept, if the operation keeps the base of the keys and its key mentions no other
bases. -/
theorem Kept.change {u : Table Datum} {op : Operation} (hk : t.Kept C P) (hP : C.Orders P)
    (h : Change C t op u) (hbase : op.KeepsBase t.keyKind.base)
    (hkey : ∀ key, op.key? = some key → t.keyKind.Within P key.peel) : u.Kept C P := by
  have hubase : P u.keyKind.base := by
    rw [h.base_eq hbase]
    exact hk.base
  -- keys come in by insertion alone
  have hwithin : ∀ r ∈ u.rows, u.keyKind.Within P r.key := by
    intro r hr
    cases h with
    | none => exact hk.within r hr
    | @insert op e key hop he _ _ =>
      rcases (hk.shaped.mem_insert e).1 hr with rfl | hr
      · -- the key of a new row is the one that was given, or a copy of it
        have hgiven := (hkey key hop).of_peel
        rcases he with rfl | hcopy
        · exact hgiven
        · exact hgiven.copy hcopy
      · exact hk.within r hr
    | erase => exact hk.within r (List.mem_filter.1 hr).1
    | modify _ handle change key =>
      obtain ⟨s, hs, rfl⟩ := List.mem_map.1 hr
      rw [changed_eq (f := (·.key)) key]
      exact hk.within s hs
    | clear => cases hr
    | setKeyKind k => exact (hk.within r hr).congr (hbase k rfl).symm
  have horders : C.Orders u.Mentions := by
    refine hP.mono fun b hb => ?_
    rcases hb with rfl | ⟨r, hr, hb⟩
    · exact hubase
    · exact (hwithin r hr).2 b hb
  exact ⟨hubase, h.shaped hk.shaped, h.filed hk.shaped hbase horders hk.filed, hwithin⟩

/-- A handle that was given out and names no row any more. -/
def Gone (t : Table Datum) (h : Handle) : Prop := h.serial < t.nextSerial ∧ t.row? h = none

/-- A handle that is gone stays gone: a change gives out new handles only. -/
theorem Change.gone {u : Table Datum} {op : Operation} (h : Change C t op u) (hs : t.Shaped)
    {handle : Handle} (hgone : t.Gone handle) : u.Gone handle := by
  obtain ⟨hlt, hnone⟩ := hgone
  have habsent := row?_eq_none.1 hnone
  cases h with
  | none => exact ⟨hlt, hnone⟩
  | @insert op e =>
    -- the new handle was not given out before
    refine ⟨Nat.lt_succ_of_lt hlt, row?_eq_none.2 fun r hr heq => ?_⟩
    rcases (hs.mem_insert e).1 hr with rfl | hr
    · have hserial : t.nextSerial = handle.serial := congrArg Handle.serial heq
      omega
    · exact habsent r hr heq
  | erase =>
    exact ⟨hlt, row?_eq_none.2 fun r hr => habsent r (List.mem_filter.1 hr).1⟩
  | modify _ target change _ _ name =>
    refine ⟨hlt, row?_eq_none.2 fun r hr => ?_⟩
    obtain ⟨s, hs', rfl⟩ := List.mem_map.1 hr
    rw [changed_eq name]
    exact habsent s hs'
  | clear => exact ⟨hlt, rfl⟩
  | setKeyKind k => exact ⟨hlt, hnone⟩

/-- A handle that is gone never names a row again. -/
theorem Gone.run {handle : Handle} (hgone : t.Gone handle) (hs : t.Shaped) (ops : List Operation) :
    (t.run C ops).Gone handle := by
  have keeps : ∀ (u : Table Datum) (op : Operation), True → u.Shaped ∧ u.Gone handle →
      (u.perform C op).1.Shaped ∧ (u.perform C op).1.Gone handle := by
    rintro u op - ⟨hu, hg⟩
    have hchange := perform_change (C := C) u op
    exact ⟨hchange.shaped hu, hchange.gone hu hg⟩
  have hrun : (t.run C ops).Shaped ∧ (t.run C ops).Gone handle :=
    runWith_induction keeps (fun _ _ => trivial) ⟨hs, hgone⟩
  exact hrun.2

/-- The serial numbers given out are never taken back. -/
theorem Change.nextSerial_le {u : Table Datum} {op : Operation} (h : Change C t op u) :
    t.nextSerial ≤ u.nextSerial := by
  cases h with
  | insert => exact Nat.le_succ _
  | _ => exact Nat.le_refl _

/-- A handle that once named a row and does so no more is gone. -/
theorem gone_of_row? (hs : t.Shaped) {handle : Handle} (hrow : (t.row? handle).isSome)
    {ops : List Operation} (hnone : (t.run C ops).row? handle = none) : (t.run C ops).Gone handle := by
  obtain ⟨r, hr⟩ := Option.isSome_iff_exists.1 hrow
  have hrh : r.handle = handle := by simpa using List.find?_some hr
  have hlt : handle.serial < t.nextSerial := hrh ▸ hs.serial_lt r (List.mem_of_find?_eq_some hr)
  have hmono : t.nextSerial ≤ (t.run C ops).nextSerial := by
    have keeps : ∀ (u : Table Datum) (op : Operation), True → t.nextSerial ≤ u.nextSerial →
        t.nextSerial ≤ (u.perform C op).1.nextSerial := by
      intro u op _ hu
      exact Nat.le_trans hu (perform_change u op).nextSerial_le
    exact runWith_induction keeps (fun _ _ => trivial) (Nat.le_refl _)
  exact ⟨Nat.lt_of_lt_of_le hlt hmono, hnone⟩

end Table

/-- An operation that keeps the base of the keys, and whose key mentions registered bases only. -/
def Operation.Registered (C : Catalogue) (keyKind : Kind) (op : Operation) : Prop :=
  op.KeepsBase keyKind.base ∧ ∀ key, op.key? = some key → keyKind.Within C.Registered key.peel

/-- The same for the bases with the property `P`. -/
def Operation.KeysWithin (P : Base → Prop) (keyKind : Kind) (op : Operation) : Prop :=
  op.KeepsBase keyKind.base ∧ ∀ key, op.key? = some key → keyKind.Within P key.peel

namespace Table

/-- A history on an empty table and on an empty ledger, with lawful bases for the keys: at the end the ledger
has the entries of the table, whose rows are where they belong, and the answers were the same. -/
theorem run_tallies {C : Catalogue} {P : Base → Prop} (hC : C.Lawful P) {keyKind : Kind}
    (hk : P keyKind.base) (wanted : Nat) {ops : List Operation}
    (hops : ∀ op ∈ ops, op.KeysWithin P keyKind) :
    let t : Table Datum := .empty keyKind wanted
    let g : Ledger := .empty keyKind
    ((t.run C ops).Tallies (g.run C ops) ∧ (t.run C ops).Kept C P ∧
      (t.run C ops).keyKind.base = keyKind.base) ∧ t.answers C ops = g.answers C ops := by
  intro t g
  have hstart : t.Tallies g ∧ t.Kept C P ∧ t.keyKind.base = keyKind.base := by
    refine ⟨⟨rfl, rfl, rfl, .nil, .nil⟩, ⟨hk, .empty keyKind wanted, .empty keyKind wanted, ?_⟩, rfl⟩
    rintro r ⟨⟩
  -- one step keeps all three, and the answers agree
  have hstep : ∀ (t : Table Datum) (g : Ledger) (op : Operation), op.KeysWithin P keyKind →
      t.Tallies g ∧ t.Kept C P ∧ t.keyKind.base = keyKind.base →
      Agree (fun t g => t.Tallies g ∧ t.Kept C P ∧ t.keyKind.base = keyKind.base)
        (t.perform C op) (g.perform C op) := by
    rintro t g op ⟨hkeeps, hkeys⟩ ⟨htallies, hkept, hbase⟩
    have hkeeps : op.KeepsBase t.keyKind.base := hbase ▸ hkeeps
    have hkeys : ∀ key, op.key? = some key → t.keyKind.Within P key.peel := by
      intro key hkey
      exact (hkeys key hkey).congr hbase.symm
    have hchange := perform_change (C := C) t op
    obtain ⟨hafter, hanswer⟩ := htallies.perform hC hkept op hkeys
    exact ⟨⟨hafter, hkept.change hC.toOrders hchange hkeeps hkeys,
      (hchange.base_eq hkeeps).trans hbase⟩, hanswer⟩
  exact runWith_simulates hstep hops hstart

/-- From an empty table and an empty ledger, a history gives the same answers and ends in the same
entries; and a handle whose row was removed or cleared never names a row again. -/
theorem answers_eq_ledger {C : Catalogue} (hC : C.Lawful C.Registered) {keyKind : Kind}
    (hk : C.Registered keyKind.base) (wanted : Nat) {ops : List Operation}
    (hops : ∀ op ∈ ops, op.Registered C keyKind) :
    let t : Table Datum := .empty keyKind wanted
    let g : Ledger := .empty keyKind
    t.answers C ops = g.answers C ops ∧ (t.run C ops).Tallies (g.run C ops) ∧
      ∀ first middle rest h, ops = first ++ middle ++ rest → ((t.run C first).row? h).isSome →
        (t.run C (first ++ middle)).row? h = none → (t.run C ops).row? h = none := by
  intro t g
  obtain ⟨⟨hlast, -, -⟩, hanswers⟩ := run_tallies hC hk wanted hops
  refine ⟨hanswers, hlast, fun first middle rest h hsplit hsome hnone => ?_⟩
  have hshaped : t.Shaped := .empty keyKind wanted
  rw [run_append] at hnone
  have hgone := gone_of_row? (hshaped.run first) hsome hnone
  rw [hsplit, run_append, run_append]
  exact (hgone.run ((hshaped.run first).run middle) rest).2

/-- Keys of an extension whose hash never tells values apart: the older of two equal keys is found and
removed, then the other, and its handle is gone. -/
theorem answers_eq_ledger_colliding :
    let keyKind : Kind := .owning (.extension 1)
    let five : Datum := .scalar (.int .i32 5)
    let ops : List Operation :=
      [.add ⟨five, five, .i32⟩, .addCopied ⟨five, .boxed five, .i32⟩, .find five, .remove five,
        .look ⟨0⟩, .find five, .clear, .contains five]
    let t : Table Datum := .empty keyKind 0
    Catalogue.specimens.Lawful Catalogue.specimens.Registered ∧
      Catalogue.specimens.Registered keyKind.base ∧
      (∀ op ∈ ops, op.Registered .specimens keyKind) ∧
      t.answers .specimens ops = (Ledger.empty keyKind).answers .specimens ops := by
  intro keyKind five ops t
  have hk : Catalogue.specimens.Registered keyKind.base := by decide
  have hops : ∀ op ∈ ops, op.Registered .specimens keyKind := by
    intro op hop
    have hleaf : ∀ key, keyKind.Within Catalogue.specimens.Registered key := fun key =>
      (Kind.within_leaf rfl).2 hk
    refine ⟨fun k hset => ?_, fun key _ => hleaf _⟩
    simp only [ops, List.mem_cons, List.not_mem_nil, or_false] at hop
    rcases hop with rfl | rfl | rfl | rfl | rfl | rfl | rfl | rfl <;> cases hset
  exact ⟨Catalogue.specimens_lawful, hk, hops,
    (answers_eq_ledger Catalogue.specimens_lawful hk 0 hops).1⟩

end Table

end OrderedTable
