import OrderedTable.Proofs.Json.Known
import OrderedTable.Proofs.Json.Making
import OrderedTable.Proofs.Table.Assembly

/-!
# Importing JSON and exporting it again

`Json.Imported` says what a JSON value has become: which scalar under which kind, for an array a list with
its items that are not null, each keyed by the place that it had in the array, and for an object a table
with its members that are not null, in whatever order, each under its name and under this name only once.
It says so at every depth.

What is made of an ordered value is of this form (`Ordered.imported`), and what is of this form is exported as
the JSON value without its nulls (`Imported.toJson`), whatever else is in play. So the text of an object comes
back stripped of them (`ofJson_strips`). Of the library it is assumed that its reader and its objects are as they
should be (`Library.Streams`, `Library.Maps`).
-/

namespace OrderedTable

namespace Json

/-! ## Without nulls -/

mutual

/-- The value without the members and items that are null, at every depth. -/
def stripped : Json → Json
  | .array items => .array (strippedItems items)
  | .object members => .object (strippedMembers members)
  | x => x

/-- The items without those that are null. -/
def strippedItems : List Json → List Json
  | [] => []
  | x :: rest => if x.isNull then strippedItems rest else x.stripped :: strippedItems rest

/-- The members without those that are null. -/
def strippedMembers : List (String × Json) → List (String × Json)
  | [] => []
  | (name, x) :: rest => if x.isNull then strippedMembers rest else (name, x.stripped) :: strippedMembers rest

end

/-- Stripping items keeps those that are not null, and strips them. -/
theorem strippedItems_eq (items : List Json) :
    strippedItems items = (items.filter (!·.isNull)).map stripped := by
  induction items with
  | nil => rfl
  | cons x rest ih =>
    rw [strippedItems, ih, List.filter_cons]
    cases x.isNull <;> rfl

/-- Stripping members keeps those that are not null under their names, and strips them. -/
theorem strippedMembers_eq (members : List (String × Json)) :
    strippedMembers members = (members.filter (!·.2.isNull)).map fun m => (m.1, m.2.stripped) := by
  induction members with
  | nil => rfl
  | cons m rest ih =>
    rw [strippedMembers, ih, List.filter_cons]
    cases m.2.isNull <;> rfl

/-- Stripped members are still in order. -/
theorem Sorted.strippedMembers {members : List (String × Json)} (h : Sorted members) :
    Sorted (strippedMembers members) := by
  rw [strippedMembers_eq]
  exact List.pairwise_map.2 (List.Pairwise.filter _ h)

/-- No other member has the name of one. -/
theorem Sorted.filter_name {members : List (String × Json)} (h : Sorted members)
    {m : String × Json} (hm : m ∈ members) : members.filter (·.1 = m.1) = [m] := by
  induction members with
  | nil => cases hm
  | cons n rest ih =>
    obtain ⟨hn, hrest⟩ := List.pairwise_cons.1 h
    have hne : ∀ k ∈ rest, n.1 ≠ k.1 := by
      intro k hk heq
      have hlt := hn k hk
      rw [heq] at hlt
      exact String.lt_irrefl _ hlt
    rcases List.mem_cons.1 hm with rfl | hm
    · have hnone : rest.filter (fun k => decide (k.1 = m.1)) = [] :=
        List.filter_eq_nil_iff.2 fun k hk heq => hne k hk (of_decide_eq_true heq).symm
      rw [List.filter_cons_of_pos (by simp), hnone]
    · rw [List.filter_cons_of_neg (by simpa using hne m hm), ih hrest hm]

/-- So the name of a member is that of one selected member, if the member is selected. -/
theorem Sorted.countP_filter {members : List (String × Json)} (h : Sorted members)
    (select : String × Json → Bool) {m : String × Json} (hm : m ∈ members) :
    (members.filter select).countP (·.1 = m.1) = if select m then 1 else 0 := by
  have hswap : (members.filter select).countP (·.1 = m.1) =
      (members.filter (·.1 = m.1)).countP select := by
    simp only [List.countP_eq_length_filter, List.filter_filter, Bool.and_comm]
  rw [hswap, h.filter_name hm, List.countP_singleton]

/-! ## What a value becomes -/

/-- What a JSON value is imported as, and its kind. -/
inductive Imported : Json → Datum → Kind → Prop
  | bool (b : Bool) : Imported (.bool b) (.scalar (.bool b)) .bool
  | signed {n : Int} {held : IntKind.i64.holds n ∨ IntKind.u64.holds n} (signed : IntKind.i64.holds n) :
    Imported (.number (.int n held)) (.scalar (.int .i64 (BitVec.ofInt _ n))) .i64
  /-- An integer is unsigned only if signed ones cannot hold it. -/
  | unsigned {n : Int} {held : IntKind.i64.holds n ∨ IntKind.u64.holds n} (beyond : ¬ IntKind.i64.holds n) :
    Imported (.number (.int n held)) (.scalar (.int .u64 (BitVec.ofInt _ n))) .u64
  | float {bits : BitVec 64} {finite : FloatKind.f64.isFinite bits.toNat} :
    Imported (.number (.float bits finite)) (.scalar (.float .f64 bits)) .f64
  | string (s : String) : Imported (.string s) (.ofBytes (Utf8.encode s)) .bytes
  /-- `kept` are the items that are not null, each with its place in the array and its entry. -/
  | array {items : List Json} {kept : List ((Json × Nat) × Entry Datum)}
    (selected : kept.map (·.1) = items.zipIdx.filter (!·.1.isNull))
    (keyed : ∀ p ∈ kept, p.2.key = .scalar (.int .u64 (BitVec.ofNat _ p.1.2)))
    (each : ∀ p ∈ kept, Imported p.1.1 p.2.value p.2.kind) :
    Imported (.array items) (.list ⟨.u64, kept.map (·.2)⟩) .list
  /-- `kept` are the members that are not null, each with its entry. -/
  | object {members : List (String × Json)} {kept : List ((String × Json) × Entry Datum)}
    {t : Table Datum} (keyKind : t.keyKind = .text) (sorted : Sorted members)
    (selected : kept.map (·.1) = members.filter (!·.2.isNull))
    (holds : t.entries.Perm (kept.map (·.2)))
    (keyed : ∀ p ∈ kept, p.2.key = .ofText p.1.1)
    (once : ∀ m ∈ members, t.entries.countP (·.key.text? = some m.1) = if m.2.isNull then 0 else 1)
    (each : ∀ p ∈ kept, Imported p.1.2 p.2.value p.2.kind) :
    Imported (.object members) (.table t) .table

variable {L : Library} {C : Catalogue}

/-- A text made into a datum is the text of that datum. -/
theorem text?_ofText (name : String) : (Datum.ofText name).text? = some name := by
  show some ((Utf8.decode? (Utf8.encode name)).getD "") = some name
  rw [Utf8.decode?_encode]
  rfl

/-- A list is exported as the array of its values. -/
theorem toJson_list (l : Listing Datum) :
    Kind.list.toJson L C (.list l) = .array (l.entries.map fun e => e.kind.toJson L C e.value) := by
  rw [Kind.toJson, Kind.read_list _ rfl rfl]
  show Json.array ((l.entries.map _).map _) = _
  rw [List.map_map]
  rfl

/-- A table is exported as the object of its values, each under the text of its key. -/
theorem toJson_table (t : Table Datum) :
    Kind.table.toJson L C (.table t) = L.object (t.entries.map fun e =>
      ((t.keyKind.read (jsonExport L C) e.key).text, e.kind.toJson L C e.value)) := by
  rw [Kind.toJson, Kind.read_table _ rfl rfl]
  show L.object ((t.map _).entries.map _) = _
  rw [Kind.entries_map, List.map_map]
  rfl

/-- What was imported is exported without its nulls. -/
theorem Imported.toJson (hL : L.Maps) {x : Json} {d : Datum} {k : Kind} (h : Imported x d k) :
    k.toJson L C d = x.stripped := by
  induction h with
  | bool b => rfl
  | @signed n held signed =>
    show ofInteger .i64 (BitVec.ofInt _ n) = .number (.int n held)
    simp only [ofInteger, of_decide_eq_true signed]
    rfl
  | @unsigned n held beyond =>
    show ofInteger .u64 (BitVec.ofInt _ n) = .number (.int n held)
    simp only [ofInteger, of_decide_eq_true (held.resolve_left beyond)]
    rfl
  | @float bits finite => exact dif_pos finite
  | string s =>
    show Json.string (Utf8.decodeLossy (Utf8.encode s)) = .string s
    rw [Utf8.decodeLossy_encode]
  | @array items kept selected keyed each ih =>
    have hentries : kept.map (fun p => p.2.kind.toJson L C p.2.value) =
        (kept.map (·.1)).map fun p => p.1.stripped := by
      rw [List.map_map]
      exact List.map_congr_left ih
    have hitems : (items.zipIdx.filter (!·.1.isNull)).map (fun p => p.1.stripped) =
        (items.filter (!·.isNull)).map stripped := by
      conv => rhs; rw [← List.zipIdx_map_fst 0 items, List.filter_map, List.map_map]
      rfl
    rw [selected, hitems, ← strippedItems_eq] at hentries
    rw [toJson_list, List.map_map, stripped, ← hentries]
    rfl
  | @object members kept t keyKind sorted selected holds keyed once each ih =>
    -- the entries come in some order, but it is one of the stripped members
    have hkept : kept.map (fun p => ((t.keyKind.read (jsonExport L C) p.2.key).text,
        p.2.kind.toJson L C p.2.value)) = (kept.map (·.1)).map fun m => (m.1, m.2.stripped) := by
      rw [List.map_map]
      refine List.map_congr_left fun p hp => ?_
      rw [keyKind, keyed p hp, ih p hp]
      show ((Datum.ofText p.1.1).text?.getD "", _) = _
      rw [text?_ofText]
      rfl
    rw [selected, ← strippedMembers_eq] at hkept
    rw [toJson_table, stripped]
    refine hL.object_of_perm sorted.strippedMembers ?_
    have hperm := holds.map fun e : Entry Datum =>
      ((t.keyKind.read (jsonExport L C) e.key).text, e.kind.toJson L C e.value)
    rw [List.map_map] at hperm
    exact hperm.trans (.of_eq hkept)

/-! ## Importing -/

/-- Every member that is not null is under its name in the table of its object, and once. -/
theorem imported_object {members : List (String × Json)} (sorted : Sorted members)
    {kept : List ((String × Json) × Entry Datum)} (h : KeptMembers C members kept)
    (each : ∀ p ∈ kept, Imported p.1.2 p.2.value p.2.kind) {t : Table Datum}
    (ht : t = (Table.empty .text Table.minCapacity).addAll C (kept.map (·.2))) :
    Imported (.object members) (.table t) .table := by
  have holds : t.entries.Perm (kept.map (·.2)) := by
    rw [ht]
    refine Table.addAll_perm (Table.Shaped.empty _ _) fun e he => ?_
    obtain ⟨p, hp, rfl⟩ := List.mem_map.1 he
    exact ⟨by rw [h.keyed p hp]; rfl, accepts_of_make (h.made p hp)⟩
  have keyKind : t.keyKind = .text := by
    rw [ht]
    exact (Table.addAll_fields _ _).1
  refine .object keyKind sorted h.selected holds h.keyed ?_ each
  intro m hm
  have hnames : ∀ p ∈ kept, p.2.key.text? = some m.1 ↔ p.1.1 = m.1 := by
    intro p hp
    rw [h.keyed p hp, text?_ofText, Option.some.injEq]
  have hcount : kept.countP (fun p => p.2.key.text? = some m.1) =
      (kept.map (·.1)).countP (·.1 = m.1) := by
    rw [List.countP_map]
    exact List.countP_congr fun p hp => by simpa using hnames p hp
  rw [holds.countP_eq, List.countP_map]
  refine hcount.trans ?_
  rw [h.selected, sorted.countP_filter _ hm]
  cases m.2.isNull <;> rfl

/-- What is kept of an array or an object is not null and was there. -/
theorem mem_of_selected {α : Type} {all : List α} {select : α → Bool} {kept : List (α × Entry Datum)}
    (h : kept.map (·.1) = all.filter select) {p : α × Entry Datum} (hp : p ∈ kept) : p.1 ∈ all := by
  have hmem : p.1 ∈ kept.map (·.1) := List.mem_map_of_mem hp
  rw [h] at hmem
  exact (List.mem_filter.1 hmem).1

/-- What is made of an ordered value is of the form that it should have, at every depth. -/
theorem Ordered.imported {x : Json} (h : x.Ordered) {d : Datum} {k : Kind} (hmake : x.make C = .ok (some (d, k))) :
    Imported x d k := by
  induction h generalizing d k with
  | null => cases hmake
  | bool b => cases hmake; exact .bool b
  | number n =>
    cases n with
    | int n held =>
      rw [make] at hmake
      split at hmake
      · next hsigned => cases hmake; exact .signed hsigned
      · next hbeyond => cases hmake; exact .unsigned hbeyond
    | float bits finite => cases hmake; exact .float
  | string s => cases hmake; exact .string s
  | @array items _ ih =>
    obtain ⟨kept, hkept, hitems⟩ := exists_makeItems (C := C) 0 items
    rw [make, hitems] at hmake
    cases hmake
    refine .array hkept.selected hkept.keyed fun p hp => ih _ ?_ (hkept.made p hp)
    exact (List.mem_zipIdx' (mem_of_selected hkept.selected hp)).2 ▸ List.getElem_mem _
  | @object members sorted _ ih =>
    obtain ⟨kept, hkept, hfill⟩ := exists_fill (C := C) (.empty .text Table.minCapacity) rfl members
    rw [make, hfill] at hmake
    cases hmake
    exact imported_object sorted hkept
      (fun p hp => ih _ (mem_of_selected hkept.selected hp) (hkept.made p hp)) rfl

/-! ## From the text -/

/-- The text of an object is read as the table of its members. -/
theorem ofJson_eq (hL : L.Streams) {text : String} {members : List (String × Json)} {length : Nat}
    (h : L.first? text.toList = some (.ok (.object members, length))) :
    Table.ofJson L C text = toTable C members := by
  obtain ⟨after, hbrace⟩ := List.head?_eq_some_iff.1 (hL.head?_dropBlanks h)
  have hafter : Text.afterBytes? 0 text.toList = some text.toList := Text.afterBytes?_append [] _
  simp only [Table.ofJson, Cursor.next, hafter, hbrace, h]

/-- An object is imported from every text that starts with one, and yields a table that is exported as
the object without the members and items that are null at any depth. In that table and all within it,
every item of an array is keyed by the place that it had, and every member of an object that is not null
is there once. -/
theorem ofJson_strips (L : Library) (streams : L.Streams) (maps : L.Maps) (C : Catalogue) (text : String)
    (members : List (String × Json)) (length : Nat)
    (h : L.first? text.toList = some (.ok (.object members, length))) :
    ∃ t, Table.ofJson L C text = .ok t ∧ t.toJson L C = (Json.object members).stripped ∧
      Imported (.object members) (.table t) .table := by
  obtain ⟨t, ht⟩ := exists_toTable C members
  have hmake : (Json.object members).make C = .ok (some (.table t, .table)) := by
    rw [make]
    show toTable C members >>= _ = _
    rw [ht]
    rfl
  have himported := (maps.ordered h).imported hmake
  have hjson := himported.toJson (C := C) maps
  rw [Kind.toJson, Kind.read_table _ rfl rfl] at hjson
  exact ⟨t, (ofJson_eq streams h).trans ht, hjson, himported⟩

/-- The object of a text has a null member, and an array with a null item before another. -/
theorem ofJson_strips_nulls :
    let object : List Char :=
      ['\x7b', '"', 'b', '"', ':', '[', 'n', 'u', 'l', 'l', ',', '7', ']', ',', '"', 'a', '"', ':',
        'n', 'u', 'l', 'l', '\x7d']
    let seven : Json := .number (.int 7 (.inl rfl))
    let members : List (String × Json) := [("a", .null), ("b", .array [.null, seven])]
    let L := Library.knowing [(object, members)]
    let text := String.ofList (object ++ ['!'])
    L.Streams ∧ L.Maps ∧ L.first? text.toList = some (.ok (.object members, 23)) ∧
      ∃ t, Table.ofJson L .specimens text = .ok t ∧ t.toJson L .specimens = .object [("b", .array [seven])] ∧
        Imported (.object members) (.table t) .table := by
  intro object seven members L text
  have hknown : Library.Known [(object, members)] := by
    refine ⟨List.pairwise_singleton _ _, List.forall_mem_singleton.2 ⟨(object.drop 1).dropLast, rfl⟩,
      List.forall_mem_singleton.2 (.object (List.pairwise_pair.2 (by decide)) ?_)⟩
    refine List.forall_mem_cons.2 ⟨.null, List.forall_mem_singleton.2 (.array ?_)⟩
    exact List.forall_mem_cons.2 ⟨.null, List.forall_mem_singleton.2 (.number _)⟩
  have hread : L.first? text.toList = some (.ok (.object members, 23)) := by
    rw [String.toList_ofList]
    rfl
  exact ⟨hknown.streams, hknown.maps, hread,
    ofJson_strips L hknown.streams hknown.maps .specimens text members 23 hread⟩

end Json

end OrderedTable
