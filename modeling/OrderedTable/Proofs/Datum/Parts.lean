import OrderedTable.Kind.Order

/-!
# The parts of a list or a table

Comparing, digesting and encoding treat a list and a table alike: by the kind of its keys and by its
entries in order. `Kind.parts?` is that common view of a datum under a kind, with the capacity of a
table beside it. What has no parts is a leaf of every reading.

* `Kind.walk_induction` is induction along the walk that `Kind.read` makes: over leaves, and over
  everything that has parts.
* `Kind.read_parts` says what a reading that treats lists and tables alike comes to on parts.
* `Kind.mentions` collects the bases that comparing a value looks at.
-/

namespace OrderedTable

/-- What a list or a table is made of. Only a table has a capacity. -/
structure Parts where
  keyKind : Kind
  capacity : Option Nat
  entries : List (Entry Datum)

/-- The parts of a list. -/
def Listing.parts (l : Listing Datum) : Parts := ⟨l.keyKind, none, l.entries⟩

/-- The parts of a table. -/
def Table.parts (t : Table Datum) : Parts := ⟨t.keyKind, some t.capacity, t.entries⟩

/-- The parts of the list or table that a datum is under its own kind. -/
def Kind.parts? (k : Kind) (d : Datum) : Option Parts :=
  match k.base with
  | .list => d.list?.map Listing.parts
  | .table => d.table?.map Table.parts
  | _ => none

namespace Kind

/-- Under a kind of lists, the parts are those of the list. -/
theorem parts?_of_list {k : Kind} {d : Datum} {l : Listing Datum} (hk : k.base = .list)
    (hd : d.list? = some l) : k.parts? d = some l.parts := by
  simp [parts?, hk, hd]

/-- Under a kind of tables, the parts are those of the table. -/
theorem parts?_of_table {k : Kind} {d : Datum} {t : Table Datum} (hk : k.base = .table)
    (hd : d.table? = some t) : k.parts? d = some t.parts := by
  simp [parts?, hk, hd]

/-- Only a list or a table under its own kind has parts. -/
theorem parts?_eq_some {k : Kind} {d : Datum} {p : Parts} (h : k.parts? d = some p) :
    (k.base = .list ∧ ∃ l, d.list? = some l ∧ l.parts = p) ∨
      (k.base = .table ∧ ∃ t, d.table? = some t ∧ t.parts = p) := by
  unfold parts? at h
  split at h
  · next hk => exact .inl ⟨hk, Option.map_eq_some_iff.1 h⟩
  · next hk => exact .inr ⟨hk, Option.map_eq_some_iff.1 h⟩
  · cases h

/-- Under a kind of neither lists nor tables nothing has parts. -/
theorem parts?_eq_none_of_base {k : Kind} (hlist : k.base ≠ .list) (htable : k.base ≠ .table)
    (d : Datum) : k.parts? d = none := by
  cases hp : k.parts? d with
  | none => rfl
  | some p =>
    rcases parts?_eq_some hp with ⟨hk, -⟩ | ⟨hk, -⟩
    · exact absurd hk hlist
    · exact absurd hk htable

/-- Without parts under a kind of lists, a datum is no list. -/
theorem list?_eq_none_of_parts? {k : Kind} {d : Datum} (h : k.parts? d = none)
    (hk : k.base = .list) : d.list? = none := by
  simpa [parts?, hk] using h

/-- Without parts under a kind of tables, a datum is no table. -/
theorem table?_eq_none_of_parts? {k : Kind} {d : Datum} (h : k.parts? d = none)
    (hk : k.base = .table) : d.table? = none := by
  simpa [parts?, hk] using h

/-- Twins see the same parts. -/
theorem parts?_congr {k k' : Kind} (h : k.base = k'.base) (d : Datum) :
    k.parts? d = k'.parts? d := by
  rw [parts?, parts?, h]

/-! ## Walking along the parts -/

/-- Induction along the walk of a reading: a property of values under their kinds follows if it holds
of every value without parts, and of a value with parts whenever it holds of all keys and values in
them. -/
theorem walk_induction {P : Kind → Datum → Prop}
    (leaf : ∀ k d, k.parts? d = none → P k d)
    (parts : ∀ k d p, k.parts? d = some p →
      (∀ e ∈ p.entries, P p.keyKind e.key ∧ P e.kind e.value) → P k d)
    (k : Kind) (d : Datum) : P k d := by
  -- the entries are carried along, since a box is looked through before its parts are seen
  suffices h : (∀ k, P k d) ∧
      (∀ l, d.list? = some l → ∀ e ∈ l.entries, (∀ k, P k e.key) ∧ ∀ k, P k e.value) ∧
      (∀ t, d.table? = some t → ∀ r ∈ t.rows, (∀ k, P k r.key) ∧ ∀ k, P k r.value) from h.1 k
  -- what holds of all entries within holds of the datum, whatever it is
  have close : ∀ d : Datum,
      (∀ l, d.list? = some l → ∀ e ∈ l.entries, (∀ k, P k e.key) ∧ ∀ k, P k e.value) →
      (∀ t, d.table? = some t → ∀ r ∈ t.rows, (∀ k, P k r.key) ∧ ∀ k, P k r.value) →
      ∀ k, P k d := by
    intro d hl ht k
    cases hp : k.parts? d with
    | none => exact leaf k d hp
    | some p =>
      refine parts k d p hp fun e he => ?_
      rcases parts?_eq_some hp with ⟨-, l, hd, rfl⟩ | ⟨-, t, hd, rfl⟩
      · exact ⟨(hl l hd e he).1 _, (hl l hd e he).2 _⟩
      · obtain ⟨r, hr, rfl⟩ := List.mem_map.1 he
        exact ⟨(ht t hd r hr).1 _, (ht t hd r hr).2 _⟩
  induction d using Datum.nested_induction with
  | list l ih =>
    have hl : ∀ m, (Datum.list l).list? = some m →
        ∀ e ∈ m.entries, (∀ k, P k e.key) ∧ ∀ k, P k e.value := by
      rintro m ⟨⟩ e he
      exact ⟨(ih e he).1.1, (ih e he).2.1⟩
    have ht : ∀ t, (Datum.list l).table? = some t →
        ∀ r ∈ t.rows, (∀ k, P k r.key) ∧ ∀ k, P k r.value := by rintro t ⟨⟩
    exact ⟨close _ hl ht, hl, ht⟩
  | table t ih =>
    have hl : ∀ m, (Datum.table t).list? = some m →
        ∀ e ∈ m.entries, (∀ k, P k e.key) ∧ ∀ k, P k e.value := by rintro m ⟨⟩
    have ht : ∀ u, (Datum.table t).table? = some u →
        ∀ r ∈ u.rows, (∀ k, P k r.key) ∧ ∀ k, P k r.value := by
      rintro u ⟨⟩ r hr
      exact ⟨(ih r hr).1.1, (ih r hr).2.1⟩
    exact ⟨close _ hl ht, hl, ht⟩
  | boxed d ih =>
    have hl : ∀ m, (Datum.boxed d).list? = some m →
        ∀ e ∈ m.entries, (∀ k, P k e.key) ∧ ∀ k, P k e.value := by
      intro m hm
      rcases Datum.list?_eq_some_iff.1 hm with h | h
      · cases h
      · exact ih.2.1 m (Datum.list?_eq_some_iff.2 (.inl (Datum.boxed.inj h)))
    have ht : ∀ t, (Datum.boxed d).table? = some t →
        ∀ r ∈ t.rows, (∀ k, P k r.key) ∧ ∀ k, P k r.value := by
      intro t ht
      rcases Datum.table?_eq_some_iff.1 ht with h | h
      · cases h
      · exact ih.2.2 t (Datum.table?_eq_some_iff.2 (.inl (Datum.boxed.inj h)))
    exact ⟨close _ hl ht, hl, ht⟩
  | scalar | text | bytes | plainText | plainBytes | unit =>
    exact ⟨close _ (by rintro _ ⟨⟩) (by rintro _ ⟨⟩), by rintro _ ⟨⟩, by rintro _ ⟨⟩⟩

section
variable {ρ : Type} {r : Reading ρ} {k : Kind} {d : Datum}

/-- A value without parts is a leaf. -/
theorem read_leaf (h : k.parts? d = none) : k.read r d = r.leaf k d :=
  read_of_leaf r (list?_eq_none_of_parts? h) (table?_eq_none_of_parts? h)

/-- Mapping a table maps its entries. -/
theorem entries_map (f : Kind → Datum → ρ) (t : Table Datum) :
    (t.map f).entries = t.entries.map (Entry.map (f t.keyKind) f) := by
  simp [Table.entries, Table.map, Row.map, Function.comp_def]

/-- A reading that makes the same of a list and of a table looks at their parts only. -/
theorem read_parts {f : Kind → List (Entry ρ) → ρ} {p : Parts}
    (hlist : ∀ l, r.list l = f l.keyKind l.entries) (htable : ∀ t, r.table t = f t.keyKind t.entries)
    (h : k.parts? d = some p) :
    k.read r d = f p.keyKind (p.entries.map (Entry.map (p.keyKind.read r) (Kind.read r))) := by
  rcases parts?_eq_some h with ⟨hk, l, hd, rfl⟩ | ⟨hk, t, hd, rfl⟩
  · rw [read_list r hk hd, hlist]; rfl
  · rw [read_table r hk hd, htable, entries_map]; rfl

/-- Twins read a value alike, as far as they read leaves alike. -/
theorem read_congr {k' : Kind} (hk : k.base = k'.base) (hleaf : r.leaf k d = r.leaf k' d) :
    k.read r d = k'.read r d := by
  cases h : k.parts? d with
  | none => rw [read_leaf h, read_leaf (parts?_congr hk d ▸ h), hleaf]
  | some p =>
    rcases parts?_eq_some h with ⟨hl, l, hd, -⟩ | ⟨ht, t, hd, -⟩
    · rw [read_list r hl hd, read_list r (hk ▸ hl) hd]
    · rw [read_table r ht hd, read_table r (hk ▸ ht) hd]

end

/-! ## The bases that a comparison looks at -/

/-- The reading that collects the bases of lists' and tables' keys and of all values within. Keys are
passed over, as comparisons pass over them. -/
def mentioning : Reading (List Base) where
  leaf _ _ := []
  list l := l.keyKind.base :: l.entries.flatMap fun e => e.kind.base :: e.value
  table t := t.keyKind.base :: t.entries.flatMap fun e => e.kind.base :: e.value

/-- The bases that comparing a value looks at. -/
def mentions (k : Kind) (d : Datum) : List Base := k.read mentioning d

/-- A leaf mentions no further kinds. -/
theorem mentions_leaf {k : Kind} {d : Datum} (h : k.parts? d = none) : k.mentions d = [] :=
  read_leaf h

/-- Data with parts mention the kind of the keys, the kinds of the values, and what these mention. -/
theorem mentions_parts {k : Kind} {d : Datum} {p : Parts} (h : k.parts? d = some p) :
    k.mentions d =
      p.keyKind.base :: p.entries.flatMap fun e => e.kind.base :: e.kind.mentions e.value := by
  have read := read_parts (r := mentioning)
    (f := fun keyKind entries => keyKind.base :: entries.flatMap fun e => e.kind.base :: e.value)
    (fun _ => rfl) (fun _ => rfl) h
  rw [List.flatMap_map] at read
  exact read

/-- Twins see the same kinds mentioned. -/
theorem mentions_congr {k k' : Kind} (h : k.base = k'.base) (d : Datum) :
    k.mentions d = k'.mentions d :=
  read_congr h rfl

/-- The kind and all that a value mentions under it have the property `P`. -/
def Within (P : Base → Prop) (k : Kind) (d : Datum) : Prop :=
  P k.base ∧ ∀ b ∈ k.mentions d, P b

/-- The kind of the keys is among what is mentioned. -/
theorem Within.keyKind {P : Base → Prop} {k : Kind} {d : Datum} {p : Parts} (h : k.Within P d)
    (hp : k.parts? d = some p) : P p.keyKind.base :=
  h.2 _ (mentions_parts hp ▸ List.mem_cons_self)

/-- What a value mentions is mentioned. -/
theorem Within.value {P : Base → Prop} {k : Kind} {d : Datum} {p : Parts} (h : k.Within P d)
    (hp : k.parts? d = some p) {e : Entry Datum} (he : e ∈ p.entries) : e.kind.Within P e.value := by
  have mem : ∀ b ∈ e.kind.base :: e.kind.mentions e.value, P b := by
    intro b hb
    refine h.2 b (mentions_parts hp ▸ List.mem_cons_of_mem _ ?_)
    exact List.mem_flatMap.2 ⟨e, he, hb⟩
  exact ⟨mem _ List.mem_cons_self, fun b hb => mem b (List.mem_cons_of_mem _ hb)⟩

/-- Data keep to some bases if they, their keys' kind and all their values do. -/
theorem Within.of_parts {P : Base → Prop} {k : Kind} {d : Datum} {p : Parts}
    (hp : k.parts? d = some p) (hk : P k.base) (hkeys : P p.keyKind.base)
    (hvalues : ∀ e ∈ p.entries, e.kind.Within P e.value) : k.Within P d := by
  refine ⟨hk, fun b hb => ?_⟩
  rw [mentions_parts hp] at hb
  rcases List.mem_cons.1 hb with rfl | hb
  · exact hkeys
  · obtain ⟨e, he, hb⟩ := List.mem_flatMap.1 hb
    rcases List.mem_cons.1 hb with rfl | hb
    · exact (hvalues e he).1
    · exact (hvalues e he).2 b hb

/-- A leaf mentions nothing besides its kind. -/
theorem within_leaf {P : Base → Prop} {k : Kind} {d : Datum} (h : k.parts? d = none) :
    k.Within P d ↔ P k.base := by
  simp [Within, mentions_leaf h]

/-- Twins keep to the same bases. -/
theorem Within.congr {P : Base → Prop} {k k' : Kind} {d : Datum} (hk : k.base = k'.base)
    (h : k.Within P d) : k'.Within P d :=
  ⟨hk ▸ h.1, mentions_congr hk d ▸ h.2⟩

end Kind

end OrderedTable
