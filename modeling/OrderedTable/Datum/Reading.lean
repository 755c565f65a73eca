import OrderedTable.Datum.View

/-!
# Reading nested data

Printing, encoding, hashing, comparing and copying a datum all walk it in the same way. A list or a
table read under its own kind is read entry by entry: each key under the kind of the keys, each value
under the kind recorded with it. Anything else is a leaf. A `Reading` says what is made of a leaf,
and of a list or a table whose keys and values have been read already; `Kind.read` applies it
throughout. So no operation recurses on its own account, and what is proved about the walk is proved
once.

* `Listing.map` and `Table.map` put other data in the places of the keys and values.
* `Kind.read_list`, `Kind.read_table` and `Kind.read_of_leaf` say what `Kind.read` comes to.
* `Datum.nested_induction` is induction along the same walk.
-/

namespace OrderedTable

/-- The entry with its key and value replaced. -/
def Entry.map {δ ε : Type} (onKey : δ → ε) (onValue : Kind → δ → ε) (e : Entry δ) : Entry ε :=
  ⟨onKey e.key, onValue e.kind e.value, e.kind⟩

/-- The list with every key and value replaced by what `f` makes of it under its kind. -/
def Listing.map {δ ε : Type} (f : Kind → δ → ε) (l : Listing δ) : Listing ε :=
  ⟨l.keyKind, l.entries.map (Entry.map (f l.keyKind) f)⟩

/-- The row with its key and value replaced. -/
def Row.map {δ ε : Type} (onKey : δ → ε) (onValue : Kind → δ → ε) (r : Row δ) : Row ε :=
  ⟨r.toEntry.map onKey onValue, r.bucket, r.handle⟩

/-- The table with every key and value replaced by what `f` makes of it under its kind. -/
def Table.map {δ ε : Type} (f : Kind → δ → ε) (t : Table δ) : Table ε :=
  ⟨t.keyKind, t.capacity, t.lastAdded, t.nextSerial, t.rows.map (Row.map (f t.keyKind) f)⟩

/-- What is made of a datum: of a leaf read under a kind, of a list and of a table. -/
structure Reading (ρ : Type) where
  leaf : Kind → Datum → ρ
  list : Listing ρ → ρ
  table : Table ρ → ρ

section
variable {ρ : Type} (r : Reading ρ)

mutual

/-- What a reading makes of a datum under a kind. -/
def Kind.read (k : Kind) : Datum → ρ
  | .list l => if k.base = .list then r.list (Listing.read l) else r.leaf k (.list l)
  | .boxed (.list l) => if k.base = .list then r.list (Listing.read l) else r.leaf k (.boxed (.list l))
  | .table t => if k.base = .table then r.table (Table.read t) else r.leaf k (.table t)
  | .boxed (.table t) =>
    if k.base = .table then r.table (Table.read t) else r.leaf k (.boxed (.table t))
  | d => r.leaf k d

/-- A list with its keys and values read. -/
def Listing.read : Listing Datum → Listing ρ
  | ⟨keyKind, entries⟩ => ⟨keyKind, Entry.readAll keyKind entries⟩

/-- A table with its keys and values read. -/
def Table.read : Table Datum → Table ρ
  | ⟨keyKind, capacity, lastAdded, nextSerial, rows⟩ =>
    ⟨keyKind, capacity, lastAdded, nextSerial, Row.readAll keyKind rows⟩

/-- Entries with their keys and values read. -/
def Entry.readAll (keyKind : Kind) : List (Entry Datum) → List (Entry ρ)
  | [] => []
  | ⟨key, value, kind⟩ :: rest =>
    ⟨Kind.read keyKind key, Kind.read kind value, kind⟩ :: Entry.readAll keyKind rest

/-- Rows with their keys and values read. -/
def Row.readAll (keyKind : Kind) : List (Row Datum) → List (Row ρ)
  | [] => []
  | ⟨⟨key, value, kind⟩, bucket, handle⟩ :: rest =>
    ⟨⟨Kind.read keyKind key, Kind.read kind value, kind⟩, bucket, handle⟩ ::
      Row.readAll keyKind rest

end

/-- Entries are read one by one: the key under the kind of the keys, the value under its own. -/
theorem Entry.readAll_eq_map (keyKind : Kind) (entries : List (Entry Datum)) :
    Entry.readAll r keyKind entries = entries.map (Entry.map (Kind.read r keyKind) (Kind.read r)) := by
  induction entries with
  | nil => rfl
  | cons e rest ih => rw [Entry.readAll, ih]; rfl

/-- Rows are read as their entries are, and stay where they stand. -/
theorem Row.readAll_eq_map (keyKind : Kind) (rows : List (Row Datum)) :
    Row.readAll r keyKind rows = rows.map (Row.map (Kind.read r keyKind) (Kind.read r)) := by
  induction rows with
  | nil => rfl
  | cons e rest ih => rw [Row.readAll, ih]; rfl

/-- A list is read by reading what is in it. -/
theorem Listing.read_eq_map (l : Listing Datum) : Listing.read r l = l.map (Kind.read r) := by
  cases l; rw [Listing.read, Entry.readAll_eq_map]; rfl

/-- A table is read by reading what is in it. -/
theorem Table.read_eq_map (t : Table Datum) : Table.read r t = t.map (Kind.read r) := by
  cases t; rw [Table.read, Row.readAll_eq_map]; rfl

/-- A list under its own kind is read entry by entry. -/
theorem Kind.read_list {k : Kind} {d : Datum} {l : Listing Datum} (hk : k.base = .list)
    (hd : d.list? = some l) : k.read r d = r.list (l.map (Kind.read r)) := by
  rcases Datum.list?_eq_some_iff.1 hd with rfl | rfl <;>
    simp [Kind.read, hk, Listing.read_eq_map]

/-- A table under its own kind is read row by row. -/
theorem Kind.read_table {k : Kind} {d : Datum} {t : Table Datum} (hk : k.base = .table)
    (hd : d.table? = some t) : k.read r d = r.table (t.map (Kind.read r)) := by
  rcases Datum.table?_eq_some_iff.1 hd with rfl | rfl <;>
    simp [Kind.read, hk, Table.read_eq_map]

/-- Anything else is a leaf. -/
theorem Kind.read_of_leaf {k : Kind} {d : Datum} (hl : k.base = .list → d.list? = none)
    (ht : k.base = .table → d.table? = none) : k.read r d = r.leaf k d := by
  cases d with
  | list l => simp_all [Kind.read, Datum.list?, Datum.peel]
  | table t => simp_all [Kind.read, Datum.table?, Datum.peel]
  | boxed d => cases d <;> simp_all [Kind.read, Datum.list?, Datum.table?, Datum.peel]
  | _ => rfl

end

/-- Induction along the walk: a property of every datum follows if it holds of a list and of a table
whenever it holds of all keys and values in them, of a box whenever it holds of what is inside, and
of everything else. -/
theorem Datum.nested_induction {P : Datum → Prop}
    (list : ∀ l : Listing Datum, (∀ e ∈ l.entries, P e.key ∧ P e.value) → P (.list l))
    (table : ∀ t : Table Datum, (∀ r ∈ t.rows, P r.key ∧ P r.value) → P (.table t))
    (boxed : ∀ d, P d → P (.boxed d))
    (scalar : ∀ s, P (.scalar s)) (text : ∀ s, P (.text s)) (bytes : ∀ s, P (.bytes s))
    (plainText : ∀ f s, P (.plainText f s)) (plainBytes : ∀ f b, P (.plainBytes f b))
    (unit : P .unit) (d : Datum) : P d :=
  @Datum.rec P
    (fun l => ∀ e ∈ l.entries, P e.key ∧ P e.value)
    (fun t => ∀ r ∈ t.rows, P r.key ∧ P r.value)
    (fun es => ∀ e ∈ es, P e.key ∧ P e.value)
    (fun rs => ∀ r ∈ rs, P r.key ∧ P r.value)
    (fun e => P e.key ∧ P e.value)
    (fun r => P r.key ∧ P r.value)
    scalar text bytes plainText plainBytes unit boxed list table
    (fun _ _ h => h) (fun _ _ _ _ _ h => h)
    (fun _ h => absurd h List.not_mem_nil)
    (fun _ _ he hes _ h => (List.mem_cons.1 h).elim (· ▸ he) (hes _))
    (fun _ h => absurd h List.not_mem_nil)
    (fun _ _ hr hrs _ h => (List.mem_cons.1 h).elim (· ▸ hr) (hrs _))
    (fun _ _ _ hk hv => ⟨hk, hv⟩)
    (fun _ _ _ he => he) d

end OrderedTable
