import OrderedTable.Proofs.Datum.Alike

/-!
# Values kept elsewhere

Where the bytes of a text or a byte string are kept does not show. `Datum.keptBy f` is a datum with all its
text and bytes kept as `f` says, at every level, and everything else as it was. It is seen as before as long as
`f` keeps the same bytes.

`Storage.onto` is the change that matters for input that is decoded in place: a window on one buffer becomes
a window at the same place of another buffer, if that shows the same bytes there.
-/

namespace OrderedTable

namespace Storage

/-- A window moved to the same place of another buffer, as long as the same bytes are there. -/
def onto (buffer : Bytes) : Storage → Storage
  | owned bs => owned bs
  | shared old start length =>
    if (shared buffer start length).bytes = (shared old start length).bytes then shared buffer start length
    else shared old start length

/-- Text that is kept in another buffer spells the same. -/
@[simp] theorem bytes_onto (buffer : Bytes) (s : Storage) : (s.onto buffer).bytes = s.bytes := by
  cases s with
  | owned bs => rfl
  | shared old start length =>
    rw [onto]
    split
    · next h => exact h
    · rfl

end Storage

section
variable (f : Storage → Storage)

mutual

/-- A datum with its text and bytes kept as `f` says. -/
def Datum.keptBy : Datum → Datum
  | .text s => .text (f s)
  | .bytes s => .bytes (f s)
  | .boxed d => .boxed (Datum.keptBy d)
  | .list l => .list (Listing.keptBy l)
  | .table t => .table (Table.keptBy t)
  | .scalar s => .scalar s
  | .plainText form text => .plainText form text
  | .plainBytes form bytes => .plainBytes form bytes
  | .unit => .unit

/-- A list with its text and bytes kept as `f` says. -/
def Listing.keptBy : Listing Datum → Listing Datum
  | ⟨keyKind, entries⟩ => ⟨keyKind, Entry.allKeptBy entries⟩

/-- A table with its text and bytes kept as `f` says. -/
def Table.keptBy : Table Datum → Table Datum
  | ⟨keyKind, capacity, lastAdded, nextSerial, rows⟩ =>
    ⟨keyKind, capacity, lastAdded, nextSerial, Row.allKeptBy rows⟩

/-- Entries with their text and bytes kept as `f` says. -/
def Entry.allKeptBy : List (Entry Datum) → List (Entry Datum)
  | [] => []
  | ⟨key, value, kind⟩ :: rest => ⟨Datum.keptBy key, Datum.keptBy value, kind⟩ :: Entry.allKeptBy rest

/-- Rows with their text and bytes kept as `f` says. -/
def Row.allKeptBy : List (Row Datum) → List (Row Datum)
  | [] => []
  | ⟨⟨key, value, kind⟩, bucket, handle⟩ :: rest =>
    ⟨⟨Datum.keptBy key, Datum.keptBy value, kind⟩, bucket, handle⟩ :: Row.allKeptBy rest

end

/-- An entry with its text and bytes kept as `f` says. -/
def Entry.keptBy (e : Entry Datum) : Entry Datum := e.map (Datum.keptBy f) fun _ => Datum.keptBy f

/-- A list is kept elsewhere by keeping what is in it elsewhere. -/
theorem Listing.keptBy_eq_map (l : Listing Datum) : l.keptBy f = l.map fun _ => Datum.keptBy f := by
  have entries : ∀ es, Entry.allKeptBy f es = es.map (Entry.keptBy f) := by
    intro es
    induction es with
    | nil => rfl
    | cons e es ih => rw [Entry.allKeptBy, ih]; rfl
  cases l
  rw [keptBy, entries]
  rfl

/-- A table is kept elsewhere by keeping what is in it elsewhere. -/
theorem Table.keptBy_eq_map (t : Table Datum) : t.keptBy f = t.map fun _ => Datum.keptBy f := by
  have rows : ∀ rs, Row.allKeptBy f rs = rs.map (Row.map (Datum.keptBy f) fun _ => Datum.keptBy f) := by
    intro rs
    induction rs with
    | nil => rfl
    | cons r rs ih => rw [Row.allKeptBy, ih]; rfl
  cases t
  rw [keptBy, rows]
  rfl

/-- The entries of such a list are those of the other, kept elsewhere. -/
theorem Listing.entries_keptBy (l : Listing Datum) : (l.keptBy f).entries = l.entries.map (Entry.keptBy f) := by
  rw [keptBy_eq_map]
  rfl

/-- The entries of such a table are those of the other, kept elsewhere. -/
theorem Table.entries_keptBy (t : Table Datum) : (t.keptBy f).entries = t.entries.map (Entry.keptBy f) := by
  rw [keptBy_eq_map, entries, entries, map, List.map_map, List.map_map]
  rfl

end

namespace Datum

variable {f : Storage → Storage}

/-- What is kept as it was is what it was. -/
theorem keptBy_id (d : Datum) : d.keptBy id = d := by
  induction d using nested_induction with
  | list l ih =>
    have entries : l.entries.map (Entry.keptBy id) = l.entries := by
      refine (List.map_congr_left fun e he => ?_).trans (List.map_id _)
      rw [Entry.keptBy, Entry.map, (ih e he).1, (ih e he).2]
      rfl
    rw [keptBy, Listing.keptBy_eq_map]
    exact congrArg (fun es => Datum.list ⟨l.keyKind, es⟩) entries
  | table t ih =>
    have rows : t.rows.map (Row.map (Datum.keptBy id) fun _ => Datum.keptBy id) = t.rows := by
      refine (List.map_congr_left fun r hr => ?_).trans (List.map_id _)
      rw [Row.map, Entry.map, (ih r hr).1, (ih r hr).2]
      rfl
    rw [keptBy, Table.keptBy_eq_map]
    exact congrArg (fun rs => Datum.table ⟨t.keyKind, t.capacity, t.lastAdded, t.nextSerial, rs⟩) rows
  | boxed d ih => rw [keptBy, ih]
  | scalar | text | bytes | plainText | plainBytes | unit => rfl

/-- Taking out of a box and keeping elsewhere go together. -/
theorem peel_keptBy (d : Datum) : (d.keptBy f).peel = d.peel.keptBy f := by
  cases d <;> rfl

/-- What is kept elsewhere is a list if it was one. -/
theorem list?_keptBy (d : Datum) : (d.keptBy f).list? = d.list?.map (Listing.keptBy f) := by
  rw [list?, list?, peel_keptBy]
  cases d.peel <;> rfl

/-- What is kept elsewhere is a table if it was one. -/
theorem table?_keptBy (d : Datum) : (d.keptBy f).table? = d.table?.map (Table.keptBy f) := by
  rw [table?, table?, peel_keptBy]
  cases d.peel <;> rfl

/-- A datum whose bytes are the same is seen as it was. -/
theorem sameViews_keptBy (hf : ∀ s, (f s).bytes = s.bytes) (d : Datum) : d.SameViews (d.keptBy f) := by
  refine ⟨fun s => ?_, ?_, ?_⟩
  · rw [scalarOf?, scalarOf?, scalar?, scalar?, peel_keptBy]
    cases d.peel <;> rfl
  · rw [textBytes?, textBytes?, peel_keptBy]
    cases d.peel <;> first | rfl | exact congrArg some (hf _).symm
  · rw [bytes?, bytes?, peel_keptBy]
    cases d.peel <;> first | rfl | exact congrArg some (hf _).symm

/-- A leaf that is kept elsewhere is a leaf. -/
theorem IsLeaf.keptBy {d : Datum} (h : d.IsLeaf) : (d.keptBy f).IsLeaf := by
  rw [IsLeaf, list?_keptBy, table?_keptBy, h.1, h.2]
  exact ⟨rfl, rfl⟩

end Datum

/-- The parts of a list or a table with their text and bytes kept as `f` says. -/
theorem Kind.parts?_keptBy {f : Storage → Storage} {k : Kind} {d : Datum} {p : Parts}
    (h : k.parts? d = some p) :
    k.parts? (d.keptBy f) = some ⟨p.keyKind, p.capacity, p.entries.map (Entry.keptBy f)⟩ := by
  rcases parts?_eq_some h with ⟨hk, l, hl, rfl⟩ | ⟨hk, t, ht, rfl⟩
  · rw [parts?_of_list hk (by rw [Datum.list?_keptBy, hl]; rfl), Listing.parts, Listing.entries_keptBy,
      Listing.keptBy_eq_map]
    rfl
  · rw [parts?_of_table hk (by rw [Datum.table?_keptBy, ht]; rfl), Table.parts, Table.entries_keptBy,
      Table.keptBy_eq_map]
    rfl

end OrderedTable
