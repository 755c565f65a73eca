import OrderedTable.Kind.Format
import OrderedTable.Proofs.Datum.Alike

/-!
# Readings that rebuild what they read

A reading may make of a value a value again: leaves stay as they are, and what has parts has the same
entries, read in their turn, under kinds with the same bases (`Reading.Rebuilds`). What is rebuilt compares
and is written as before (`Rebuilds.order_read`, `Rebuilds.encode_read`).

So a rebuilding reading says what does not count. `Kind.owned` has every kind give way to the owning one, and
`Kind.nameless` takes the names of their rows from all tables within. Text tells buckets apart, which both
leave alone, but not names (`Kind.format_nameless`).
-/

namespace OrderedTable

/-- An entry whose key and value are read, under a kind that takes the place of its own. -/
def Entry.rebuilt (r : Reading Datum) (relabel : Kind → Kind) (keyKind : Kind) (e : Entry Datum) :
    Entry Datum :=
  ⟨keyKind.read r e.key, e.kind.read r e.value, relabel e.kind⟩

/-- The reading leaves leaves as they are, and of what has parts it reads every entry and keeps the bases
of the kinds. -/
structure Reading.Rebuilds (r : Reading Datum) (relabel : Kind → Kind) : Prop where
  base : ∀ k, (relabel k).base = k.base
  leaf : ∀ k d, r.leaf k d = d
  parts : ∀ (k : Kind) (d : Datum) (p : Parts), k.parts? d = some p → k.parts? (k.read r d) =
    some ⟨relabel p.keyKind, p.capacity, p.entries.map (Entry.rebuilt r relabel p.keyKind)⟩

namespace Reading.Rebuilds

variable {C : Catalogue} {r : Reading Datum} {relabel : Kind → Kind} (h : r.Rebuilds relabel)
include h

/-- A leaf is left as it is. -/
theorem read_leaf {k : Kind} {d : Datum} (hd : k.parts? d = none) : k.read r d = d :=
  (Kind.read_leaf hd).trans (h.leaf k d)

/-- Twins are rebuilt alike. -/
theorem read_congr {k k' : Kind} (hk : k.base = k'.base) (d : Datum) : k.read r d = k'.read r d :=
  Kind.read_congr hk ((h.leaf k d).trans (h.leaf k' d).symm)

/-- Comparing entry by entry does not see that entries were rebuilt, if comparing values does not. -/
private theorem orderEntries_rebuilt (K L : Kind) {es : List (Entry Datum)} (fs : List (Entry Datum))
    (ih : ∀ e ∈ es, ∀ d, e.kind.order C (e.kind.read r e.value) (e.kind.read r d) =
      e.kind.order C e.value d) :
    orderEntries C (readyEntries C (relabel K) (es.map (Entry.rebuilt r relabel K)))
        (fs.map (Entry.rebuilt r relabel L)) =
      orderEntries C (readyEntries C K es) fs := by
  induction es generalizing fs with
  | nil => cases fs <;> rfl
  | cons e es ihes =>
    cases fs with
    | nil => rfl
    | cons f fs =>
      have hrest := ihes fs fun e h => ih e (List.mem_cons_of_mem _ h)
      show (if (relabel e.kind).base = (relabel f.kind).base then
          ((relabel e.kind).order C (e.kind.read r e.value) (f.kind.read r f.value)).then
            (orderEntries C (readyEntries C (relabel K) (es.map _)) (fs.map _))
        else C.orderKinds (relabel e.kind) (relabel f.kind)) =
        if e.kind.base = f.kind.base then
          (e.kind.order C e.value f.value).then (orderEntries C (readyEntries C K es) fs)
        else C.orderKinds e.kind f.kind
      rw [h.base, h.base, C.orderKinds_congr (h.base e.kind) (h.base f.kind), hrest,
        Kind.order_congr (h.base e.kind)]
      split
      · next hbase => rw [← h.read_congr hbase, ih e List.mem_cons_self]
      · rfl

/-- What is rebuilt compares as before. -/
theorem order_read (k : Kind) (a b : Datum) : k.order C (k.read r a) (k.read r b) = k.order C a b := by
  induction k, a using Kind.walk_induction generalizing b with
  | leaf k a ha =>
    rw [h.read_leaf ha]
    cases hb : k.parts? b with
    | none => rw [h.read_leaf hb]
    | some q => rw [Kind.order_leaf_parts ha hb, Kind.order_leaf_parts ha (h.parts k b q hb)]
  | parts k a p ha ih =>
    have ha' := h.parts k a p ha
    cases hb : k.parts? b with
    | none => rw [h.read_leaf hb, Kind.order_parts_leaf ha hb, Kind.order_parts_leaf ha' hb]
    | some q =>
      have hentries := h.orderEntries_rebuilt p.keyKind q.keyKind q.entries fun e he => (ih e he).2
      rw [Kind.order_parts ha' (h.parts k b q hb), Kind.order_parts ha hb, Parts.order, Parts.order,
        orderBlocks, orderBlocks, hentries, h.base, h.base,
        C.orderKinds_congr (h.base p.keyKind) (h.base q.keyKind)]
      simp only [readyEntries, List.length_map]

/-- Values that are rebuilt to the same stand for each other in every comparison. -/
theorem order_eq {k : Kind} {a a' b b' : Datum} (ha : k.read r a = k.read r a')
    (hb : k.read r b = k.read r b') : k.order C a b = k.order C a' b' :=
  calc k.order C a b = k.order C (k.read r a) (k.read r b) := (h.order_read k a b).symm
    _ = k.order C (k.read r a') (k.read r b') := by rw [ha, hb]
    _ = k.order C a' b' := h.order_read k a' b'

end Reading.Rebuilds

namespace Kind

variable {C : Catalogue} {k k' : Kind}

/-- Twins write a value alike. -/
theorem encode_congr (h : k.base = k'.base) (d : Datum) : k.encode C d = k'.encode C d := by
  refine read_congr h ?_
  show k.encodeLeaf C d = k'.encodeLeaf C d
  rw [encodeLeaf, encodeLeaf, Catalogue.name, Catalogue.name, h]

/-- Tables are shown as values under the kind of tables are. -/
theorem format_table (t : Table Datum) : Kind.table.format C (.table t) = t.format C :=
  read_table (formatting C) rfl rfl

/-- Twins show a value alike. -/
theorem format_congr (h : k.base = k'.base) (d : Datum) : k.format C d = k'.format C d := by
  refine read_congr h ?_
  show k.formatLeaf C d = k'.formatLeaf C d
  rw [formatLeaf, formatLeaf, h]

end Kind

namespace Reading.Rebuilds

variable {C : Catalogue} {r : Reading Datum} {relabel : Kind → Kind} (h : r.Rebuilds relabel)
include h

/-- What is rebuilt is written as before. -/
theorem encode_read (k : Kind) (d : Datum) : k.encode C (k.read r d) = k.encode C d := by
  induction k, d using Kind.walk_induction with
  | leaf k d hd => rw [h.read_leaf hd]
  | parts k d p hp ih =>
    have hentries : (p.entries.map (Entry.rebuilt r relabel p.keyKind)).map
          (Entry.map ((relabel p.keyKind).encode C) (Kind.encode C)) =
        (p.entries.map (Entry.map (p.keyKind.encode C) (Kind.encode C))).map
          fun e => { e with kind := relabel e.kind } := by
      rw [List.map_map, List.map_map]
      refine List.map_congr_left fun e he => ?_
      show (⟨(relabel p.keyKind).encode C (p.keyKind.read r e.key),
        (relabel e.kind).encode C (e.kind.read r e.value), relabel e.kind⟩ : Entry _) = _
      rw [Kind.encode_congr (h.base _), Kind.encode_congr (h.base _), (ih e he).1, (ih e he).2]
      rfl
    -- the kinds are written as they were, since their bases are the same
    have hkinds : ∀ es : List (Entry (Except WireFault Bytes)),
        C.encodeEntries (es.map fun e => { e with kind := relabel e.kind }) = C.encodeEntries es := by
      intro es
      induction es with
      | nil => rfl
      | cons e es ihes =>
        rw [List.map_cons, Catalogue.encodeEntries, Catalogue.encodeEntries, ihes,
          C.wireIndex_congr (h.base e.kind)]
    rw [Kind.encode_parts (h.parts k d p hp), Kind.encode_parts hp, Catalogue.encodeBlock,
      Catalogue.encodeBlock, hentries, hkinds, C.wireIndex_congr (h.base p.keyKind)]
    simp only [List.length_map]

/-- Values that are rebuilt to the same are written alike. -/
theorem encode_eq {k : Kind} {d d' : Datum} (hd : k.read r d = k.read r d') :
    k.encode C d = k.encode C d' :=
  calc k.encode C d = k.encode C (k.read r d) := (h.encode_read k d).symm
    _ = k.encode C (k.read r d') := by rw [hd]
    _ = k.encode C d' := h.encode_read k d'

end Reading.Rebuilds

/-! ## Owning kinds throughout -/

/-- The entry under the owning kind. -/
def Entry.owned {δ : Type} (e : Entry δ) : Entry δ := { e with kind := e.kind.owner }

/-- The list with owning kinds for its keys and values. -/
def Listing.owned {δ : Type} (l : Listing δ) : Listing δ := ⟨l.keyKind.owner, l.entries.map Entry.owned⟩

/-- The table with owning kinds for its keys and values. -/
def Table.owned {δ : Type} (t : Table δ) : Table δ :=
  { t with
    keyKind := t.keyKind.owner
    lastAdded := t.lastAdded.map Kind.owner
    rows := t.rows.map fun r => { r with toEntry := r.toEntry.owned } }

/-- The reading that has every kind give way to the owning one. -/
def ownership : Reading Datum where
  leaf _ d := d
  list l := .list l.owned
  table t := .table t.owned

/-- A value with owning kinds throughout. -/
def Kind.owned (k : Kind) (d : Datum) : Datum := k.read ownership d

/-- Owning all of its data rebuilds a datum. -/
theorem rebuilds_ownership : ownership.Rebuilds Kind.owner where
  base _ := rfl
  leaf _ _ := rfl
  parts k d p hp := by
    rcases Kind.parts?_eq_some hp with ⟨hk, l, hl, rfl⟩ | ⟨hk, t, ht, rfl⟩
    · rw [Kind.read_list ownership hk hl, Kind.parts?_of_list hk rfl]
      simp only [Listing.parts, Listing.owned, Listing.map, List.map_map]
      rfl
    · rw [Kind.read_table ownership hk ht, Kind.parts?_of_table hk rfl]
      simp only [Table.parts, Table.owned, Table.map, Table.entries, List.map_map]
      rfl

/-! ## Tables without names -/

/-- The table with one name for all its rows, and without a record of what was added. -/
def Table.nameless {δ : Type} (t : Table δ) : Table δ :=
  { t with
    lastAdded := none
    nextSerial := 0
    rows := t.rows.map fun r => { r with handle := ⟨0⟩ } }

/-- The reading that takes their names from the rows of all tables. -/
def namelessness : Reading Datum where
  leaf _ d := d
  list := .list
  table t := .table t.nameless

/-- A value without the names of rows in the tables within. -/
def Kind.nameless (k : Kind) (d : Datum) : Datum := k.read namelessness d

/-- An entry without the names of rows in the tables within. -/
def Entry.nameless (keyKind : Kind) (e : Entry Datum) : Entry Datum :=
  ⟨keyKind.nameless e.key, e.kind.nameless e.value, e.kind⟩

/-- Taking the names off all rows rebuilds a datum. -/
theorem rebuilds_namelessness : namelessness.Rebuilds id where
  base _ := rfl
  leaf _ _ := rfl
  parts k d p hp := by
    rcases Kind.parts?_eq_some hp with ⟨hk, l, hl, rfl⟩ | ⟨hk, t, ht, rfl⟩
    · rw [Kind.read_list namelessness hk hl, Kind.parts?_of_list hk rfl]
      rfl
    · rw [Kind.read_table namelessness hk ht, Kind.parts?_of_table hk rfl]
      simp only [Table.parts, Table.nameless, Table.map, Table.entries, List.map_map]
      rfl

/-- The text of a table does not tell names. -/
theorem Table.render_nameless (t : Table String) : t.nameless.render = t.render := by
  have bucket : ∀ b, t.nameless.renderBucket b = t.renderBucket b := by
    intro b
    have hrows : t.nameless.bucketRows b =
        (t.bucketRows b).map fun r => { r with handle := ⟨0⟩ } := by
      simp only [nameless, bucketRows, List.filter_map]
      rfl
    rw [renderBucket, renderBucket, hrows]
    cases t.bucketRows b with
    | nil => rfl
    | cons r rows =>
      simp only [List.map_cons, List.map_map]
      rfl
  rw [render, render, size, size, funext bucket]
  simp only [nameless, List.length_map]

/-- Nor does the text of anything that has tables within. -/
theorem Kind.format_nameless {C : Catalogue} (k : Kind) (d : Datum) :
    k.format C (k.nameless d) = k.format C d := by
  induction k, d using walk_induction with
  | leaf k d hd => rw [nameless, rebuilds_namelessness.read_leaf hd]
  | parts k d p hp ih =>
    rcases parts?_eq_some hp with ⟨hk, l, hl, rfl⟩ | ⟨hk, t, ht, rfl⟩
    · rw [nameless, read_list namelessness hk hl, format, format, read_list _ hk rfl, read_list _ hk hl]
      have hentries : (l.map (Kind.read namelessness)).map (Kind.format C) = l.map (Kind.format C) := by
        simp only [Listing.map, List.map_map]
        refine congrArg (Listing.mk l.keyKind) (List.map_congr_left fun e he => ?_)
        show (⟨l.keyKind.format C (l.keyKind.nameless e.key), e.kind.format C (e.kind.nameless e.value),
          e.kind⟩ : Entry String) = _
        have hkey : l.keyKind.format C (l.keyKind.nameless e.key) = l.keyKind.format C e.key := (ih e he).1
        rw [hkey, (ih e he).2]
        rfl
      exact congrArg Listing.render hentries
    · rw [nameless, read_table namelessness hk ht, format, format, read_table _ hk rfl,
        read_table _ hk ht]
      have hrows : ((t.map (Kind.read namelessness)).nameless).map (Kind.format C) =
          (t.map (Kind.format C)).nameless := by
        simp only [Table.map, Table.nameless, List.map_map]
        refine congrArg (Table.mk t.keyKind t.capacity none 0) (List.map_congr_left fun r hr => ?_)
        have ih := ih r.toEntry (List.mem_map_of_mem hr)
        show (⟨⟨t.keyKind.format C (t.keyKind.nameless r.key), r.kind.format C (r.kind.nameless r.value),
          r.kind⟩, r.bucket, ⟨0⟩⟩ : Row String) = _
        have hkey : t.keyKind.format C (t.keyKind.nameless r.key) = t.keyKind.format C r.key := ih.1
        have hvalue : r.kind.format C (r.kind.nameless r.value) = r.kind.format C r.value := ih.2
        rw [hkey, hvalue]
        rfl
      show ((t.map (Kind.read namelessness)).nameless.map (Kind.format C)).render = _
      rw [hrows, Table.render_nameless]
      rfl

/-- Values that are the same up to names have the same text. -/
theorem Kind.format_eq_of_nameless {C : Catalogue} {k : Kind} {d d' : Datum}
    (h : k.nameless d = k.nameless d') : k.format C d = k.format C d' := by
  rw [← k.format_nameless d, h, k.format_nameless]

end OrderedTable
