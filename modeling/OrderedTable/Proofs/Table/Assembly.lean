import OrderedTable.Proofs.Linked.Integrity
import OrderedTable.Proofs.Order.Specimens

/-!
# Tables filled from entries

A decoder fills a table under the borrowing kind of its keys, and has them read under another kind when it is
done. Since that has the same base, the table is the one that is filled under the other kind from the start
(`Table.addAll_setKeyKind`).

A table that is filled with entries that its kinds accept holds just these (`Table.addAll_perm`), each in the
bucket of its key (`Table.addAll_placed`). `Table.Assembled` puts this together, and what comes of it in
memory.
-/

namespace OrderedTable

namespace Table

variable {C : Catalogue} {t : Table Datum}

/-! ## Under a kind and its twin -/

/-- An entry goes to the same place under the twin, since buckets and comparisons are the same. -/
theorem insert_setKeyKind {k : Kind} (hk : k.base = t.keyKind.base) (e : Entry Datum) :
    (t.setKeyKind k).insert C e = (t.insert C e).setKeyKind k := by
  have hbucket : (t.setKeyKind k).bucketOf C e.key = t.bucketOf C e.key :=
    @bucketOf_congr C (t.setKeyKind k) t hk rfl e.key
  -- halving compares under the base alone
  have hplace : ∀ rows, (t.setKeyKind k).placeFor C e.key rows = t.placeFor C e.key rows := by
    intro rows
    have horder : ∀ r : Row Datum, k.order C r.key e.key = t.keyKind.order C r.key e.key :=
      fun r => Kind.order_congr hk r.key e.key
    simp only [placeFor, setKeyKind, horder]
  rw [insert, insert, hbucket, hplace]
  rfl

/-- A table may be filled first, and have its keys read under the twin afterwards. -/
theorem addAll_setKeyKind {k : Kind} (hk : k.base = t.keyKind.base) (entries : List (Entry Datum)) :
    (t.setKeyKind k).addAll C entries = (t.addAll C entries).setKeyKind k := by
  induction entries generalizing t with
  | nil => rfl
  | cons e entries ih =>
    have hstep : ((t.setKeyKind k).add C e).toOption.getD (t.setKeyKind k) =
        ((t.add C e).toOption.getD t).setKeyKind k := by
      have haccepts : (t.setKeyKind k).keyKind.accepts C e.key = t.keyKind.accepts C e.key :=
        Kind.accepts_congr hk e.key
      rw [add, add, haccepts, insert_setKeyKind hk]
      split
      · rfl
      · split <;> rfl
    have hbase : k.base = ((t.add C e).toOption.getD t).keyKind.base :=
      hk.trans (congrArg Kind.base (addAll_fields (C := C) t [e]).1.symm)
    show (((t.setKeyKind k).add C e).toOption.getD (t.setKeyKind k)).addAll C entries = _
    rw [hstep, ih hbase]
    rfl

/-! ## What a filled table holds -/

/-- An insertion adds the entry and takes none away. -/
theorem entries_insert (hs : t.Shaped) (e : Entry Datum) : (t.insert C e).entries.Perm (e :: t.entries) := by
  have hrows : (t.insert C e).rows.Perm (t.newRow C e :: t.rows) := by
    rw [rows_insert, ← hs.ahead_append_behind (C := C) e.key]
    exact List.perm_middle
  exact hrows.map Row.toEntry

/-- Filled with entries that its kinds accept, a table holds them all besides its own. -/
theorem addAll_perm (hs : t.Shaped) {entries : List (Entry Datum)}
    (haccepts : ∀ e ∈ entries, t.keyKind.accepts C e.key = true ∧ e.kind.accepts C e.value = true) :
    (t.addAll C entries).entries.Perm (t.entries ++ entries) := by
  induction entries generalizing t with
  | nil => rw [List.append_nil]; exact .refl _
  | cons e entries ih =>
    obtain ⟨hkey, hvalue⟩ := haccepts e List.mem_cons_self
    rw [addAll_cons hkey hvalue]
    refine (ih (hs.insert e) fun f hf => haccepts f (List.mem_cons_of_mem _ hf)).trans ?_
    exact ((entries_insert hs e).append_right entries).trans List.perm_middle.symm

/-- The parts of a table that is filled are entries that it is filled with. -/
theorem exists_parts_addAll (C : Catalogue) (keyKind : Kind) (wanted : Nat) (entries : List (Entry Datum)) :
    ∃ p, Kind.table.parts? (.table ((Table.empty keyKind wanted).addAll C entries)) = some p ∧
      p.keyKind = keyKind ∧ ∀ e ∈ p.entries, e ∈ entries :=
  ⟨_, Kind.parts?_of_table rfl rfl, (addAll_fields _ _).1, fun _ he => mem_entries_addAll he⟩

/-- Rows stand in the buckets of their keys, however keys compare. -/
theorem addAll_placed (hs : t.Shaped) (hplaced : ∀ r ∈ t.rows, r.bucket = t.bucketOf C r.key)
    (entries : List (Entry Datum)) :
    ∀ r ∈ (t.addAll C entries).rows, r.bucket = (t.addAll C entries).bucketOf C r.key := by
  -- an insertion files the new row under the bucket of its key and moves no other
  have hinsert : ∀ (u : Table Datum) (e : Entry Datum),
      u.Shaped ∧ (∀ r ∈ u.rows, r.bucket = u.bucketOf C r.key) →
      (u.insert C e).Shaped ∧ ∀ r ∈ (u.insert C e).rows, r.bucket = (u.insert C e).bucketOf C r.key := by
    rintro u e ⟨hu, hplaced⟩
    refine ⟨hu.insert e, fun r hr => ?_⟩
    rcases (hu.mem_insert e).1 hr with rfl | hr
    · rfl
    · exact hplaced r hr
  exact (addAll_induction (P := fun u => u.Shaped ∧ ∀ r ∈ u.rows, r.bucket = u.bucketOf C r.key)
    hinsert ⟨hs, hplaced⟩ entries).2

end Table

/-! ## Assembled tables -/

/-- The table in memory that is filled under the borrowing kind of its keys, before they get their own. -/
def Linked.assembled (C : Catalogue) (keyKind : Kind) (wanted : Nat) (entries : List (Entry Datum)) :
    Linked :=
  (Linked.empty keyKind.twin wanted).run C (entries.map .add ++ [.setKeyKind keyKind])

/-- A table that was filled with entries: it holds all of them, each in the bucket of its key, and what it
stands for in memory holds together. If the extensions among the bases with the property `P` order their
values, its buckets are in order. -/
structure Table.Assembled (C : Catalogue) (P : Base → Prop) (t : Table Datum) (wanted : Nat)
    (entries : List (Entry Datum)) : Prop where
  holds : t.entries.Perm entries
  capacity : t.capacity = max wanted Table.minCapacity
  placed : ∀ r ∈ t.rows, r.bucket = t.bucketOf C r.key ∧ r.bucket < t.capacity
  represented : (Linked.assembled C t.keyKind wanted entries).Represents t
  intact : (Linked.assembled C t.keyKind wanted entries).Intact
  inOrder : (∀ id, P (.extension id) → (C.extension id).Ordered) →
    (Linked.assembled C t.keyKind wanted entries).InOrder C

namespace Table

variable {C : Catalogue} {P : Base → Prop}

/-- The keys of a table mention the bases that those of its entries keep to. -/
theorem mentions_of_holds {t : Table Datum} {entries : List (Entry Datum)} (hk : P t.keyKind.base)
    (hkeys : ∀ e ∈ entries, t.keyKind.Within P e.key) (holds : t.entries.Perm entries) {b : Base}
    (h : t.Mentions b) : P b := by
  rcases h with rfl | ⟨r, hr, hb⟩
  · exact hk
  · exact (hkeys r.toEntry (holds.mem_iff.1 (List.mem_map_of_mem hr))).2 b hb

/-- Entries that their kinds accept are put together to such a table. -/
theorem assembled_addAll (hP : ∀ b, P b → C.Registered b) {keyKind : Kind} (hk : P keyKind.base)
    (wanted : Nat) {entries : List (Entry Datum)} (hkeys : ∀ e ∈ entries, keyKind.Within P e.key)
    (haccepts : ∀ e ∈ entries, keyKind.accepts C e.key = true ∧ e.kind.accepts C e.value = true) :
    ((Table.empty keyKind wanted).addAll C entries).Assembled C P wanted entries := by
  have hs : (Table.empty keyKind wanted : Table Datum).Shaped := .empty keyKind wanted
  obtain ⟨hkeyKind, hcapacity⟩ := addAll_fields (C := C) (Table.empty keyKind wanted) entries
  have hrun := addAll_eq_run (C := C) (Table.empty keyKind wanted) entries
  have holds := addAll_perm (C := C) hs haccepts
  have hplaced := addAll_placed (C := C) hs (by rintro r ⟨⟩) entries
  -- the same table, filled under the twin
  have htwin : (Table.empty keyKind wanted).addAll C entries =
      (Table.empty keyKind.twin wanted).run C (entries.map .add ++ [.setKeyKind keyKind]) := by
    have hset := addAll_setKeyKind (C := C) (t := Table.empty keyKind.twin wanted) (k := keyKind) rfl entries
    rw [run_append, ← addAll_eq_run]
    exact hset
  have hrepresents := ((Linked.Represents.empty keyKind.twin wanted).run (.empty keyKind.twin wanted)
    (C := C) (entries.map .add ++ [.setKeyKind keyKind])).1
  rw [← htwin] at hrepresents
  have hshaped : ((Table.empty keyKind wanted).addAll C entries).Shaped := by
    rw [hrun]
    exact hs.run _
  generalize (Table.empty keyKind wanted).addAll C entries = t at *
  subst hkeyKind
  -- what is left is that buckets are in order where extensions order their values
  refine ⟨holds, hcapacity, fun r hr => ⟨hplaced r hr, hshaped.bucket_lt r hr⟩, hrepresents,
    hrepresents.intact hshaped, fun hordered => hrepresents.inOrder hshaped ?_⟩
  have hP : C.Orders P :=
    ⟨fun a _ ha _ hnone => absurd hnone (hP a ha).baseIndex?_ne_none, hordered⟩
  have horders := hP.mono fun b => mentions_of_holds hk hkeys holds
  rw [hrun] at horders ⊢
  exact filed_run_add horders

end Table

end OrderedTable
