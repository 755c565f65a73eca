import OrderedTable.Proofs.Linked.Basic
import OrderedTable.Proofs.Table.Halving
import OrderedTable.Proofs.Table.Neighbours

/-!
# What a linked table stands for

`Linked.Represents` ties a linked table to a table with its rows in one list. The buckets hold the
handles of their rows in order, the node of a handle holds the entry of its row and the handles next
to it in the global order, and head and tail are the ends of that order.

Under this relation every place that the linked operations compute from buckets and links is the place
that the rows have: `Represents.placeFor` for a new row, `Represents.locate?_eq_some` for a row that is
looked for.
-/

namespace OrderedTable

namespace Table

variable {δ : Type}

/-- The handles of a run of rows. -/
def handles (rows : List (Row δ)) : List Handle := rows.map (·.handle)

/-- The node that a row is kept in. -/
def node? (t : Table Datum) (h : Handle) : Option Node :=
  (t.row? h).map fun r => ⟨r.toEntry, t.previous? h, t.next? h⟩

end Table

namespace Linked

open Table (handles firstHandle lastHandle Between)

variable {C : Catalogue} {L : Linked} {t : Table Datum}

/-! ## Nodes -/

/-- How the handles of a bucket are kept. -/
def stored (hs : List Handle) : Option (List Handle) := if hs.isEmpty then none else some hs

/-- A bucket that is kept has a handle, and is kept as it is. -/
theorem stored_eq_some {hs hs' : List Handle} (h : stored hs = some hs') : hs = hs' ∧ hs ≠ [] := by
  cases hs with
  | nil => cases h
  | cons x hs => exact ⟨Option.some.inj h, List.cons_ne_nil x hs⟩

/-- A bucket with a row is kept, and has the handle of the row at its place. -/
theorem stored_of_getElem? {rows : List (Row Datum)} {place : Nat} {r : Row Datum}
    (h : rows[place]? = some r) :
    stored (handles rows) = some (handles rows) ∧ (handles rows)[place]? = some r.handle := by
  constructor
  · cases rows with
    | nil => cases h
    | cons s rows => rfl
  · rw [handles, List.getElem?_map, h]
    rfl

/-- Changing a node shows at its own handle alone. -/
theorem node?_modifyNode (p h : Handle) (change : Node → Node) :
    (L.modifyNode p change).node? h = (L.node? h).map fun n => if p = h then change n else n := by
  rw [node?, node?, modifyNode, List.find?_map, Option.map_map, Option.map_map]
  refine Option.map_congr fun x hx => ?_
  have hx : x.1 = h := by simpa using List.find?_some hx
  simp [hx, eq_comm]

/-- Giving nodes other links changes these links, and nothing else. -/
theorem node?_relink (h : Handle) (previous next forward back : Option Handle) :
    (L.relink previous next forward back).node? h = (L.node? h).map fun n =>
      { n with
        previous := if next = some h then back else n.previous
        next := if previous = some h then forward else n.next } := by
  -- four cases, by which neighbours there are: on both sides, on one or on none
  cases previous with
  | none =>
    cases next with
    | none =>
      show L.node? h = _
      cases L.node? h <;> rfl
    | some q =>
      show (L.modifyNode q _).node? h = _
      rw [node?_modifyNode]
      refine Option.map_congr fun n _ => ?_
      by_cases hq : q = h <;> simp [hq]
  | some p =>
    cases next with
    | none =>
      show (L.modifyNode p _).node? h = _
      rw [node?_modifyNode]
      refine Option.map_congr fun n _ => ?_
      by_cases hp : p = h <;> simp [hp]
    | some q =>
      show ((L.modifyNode p _).modifyNode q _).node? h = _
      rw [node?_modifyNode, node?_modifyNode, Option.map_map]
      refine Option.map_congr fun n _ => ?_
      by_cases hp : p = h <;> by_cases hq : q = h <;> simp [hp, hq]

/-- Nodes with one put in front. -/
theorem node?_of_cons {M : Linked} {p : Handle} {n : Node} (hM : M.nodes = (p, n) :: L.nodes)
    (h : Handle) : M.node? h = if p = h then some n else L.node? h := by
  rw [node?, hM, List.find?_cons]
  by_cases hp : p = h
  · simp [hp]
  · simp [hp, node?]

/-- Nodes with one taken out. -/
theorem node?_of_filter {M : Linked} {p : Handle} (hM : M.nodes = L.nodes.filter (·.1 ≠ p))
    (h : Handle) : M.node? h = if p = h then none else L.node? h := by
  rw [node?, hM, List.find?_filter]
  by_cases hp : p = h
  · rw [if_pos hp, List.find?_eq_none.2 fun x _ => by simp [hp]]
    rfl
  · rw [if_neg hp, node?]
    congr 2
    funext x
    by_cases hx : x.1 = h
    · simp [hx, Ne.symm hp]
    · simp [hx]

/-- Changing a node leaves it under its handle. -/
theorem modifyNode_handles (h : Handle) (change : Node → Node) :
    (L.modifyNode h change).nodes.map (·.1) = L.nodes.map (·.1) := by
  simp [modifyNode, Function.comp_def]

/-- Links are kept in the nodes. -/
theorem relink_eq (previous next forward back : Option Handle) :
    L.relink previous next forward back =
      { L with nodes := (L.relink previous next forward back).nodes } := by
  cases previous <;> cases next <;> rfl

/-- So does giving nodes other links. -/
theorem relink_handles (previous next forward back : Option Handle) :
    (L.relink previous next forward back).nodes.map (·.1) = L.nodes.map (·.1) := by
  cases previous <;> cases next <;> simp [relink, modifyNode_handles]

/-- The first handle in a run of buckets. -/
theorem findSome?_stored (f : Nat → List Handle) (is : List Nat) :
    ((is.map fun i => stored (f i)).findSome? id).bind List.head? = (is.flatMap f).head? := by
  induction is with
  | nil => rfl
  | cons i is ih =>
    rw [List.map_cons, List.findSome?_cons, List.flatMap_cons]
    -- a bucket that is kept has a first handle; one that is not is passed over
    cases hf : f i with
    | nil => simpa [stored] using ih
    | cons x xs => rfl

/-- The last handle in a run of buckets. -/
theorem findSome?_reverse_stored (f : Nat → List Handle) (is : List Nat) :
    ((is.map fun i => stored (f i)).reverse.findSome? id).bind List.getLast? =
      (is.flatMap f).getLast? := by
  rw [List.getLast?_flatMap, ← List.map_reverse]
  induction is.reverse with
  | nil => rfl
  | cons i is ih =>
    rw [List.map_cons, List.findSome?_cons, List.findSome?_cons]
    cases hf : f i with
    | nil => simpa [stored] using ih
    | cons x xs =>
      have hlast : (x :: xs).getLast? = some ((x :: xs).getLast (List.cons_ne_nil x xs)) :=
        List.getLast?_eq_some_getLast _
      simp [stored, hlast]

/-- The first handle of a run of buckets of rows is that of their handles. -/
theorem firstHandle_flatMap (f : Nat → List (Row Datum)) (is : List Nat) :
    firstHandle (is.flatMap f) = (is.flatMap fun i => handles (f i)).head? := by
  rw [firstHandle, ← List.head?_map, List.map_flatMap]
  rfl

/-- So is the last one. -/
theorem lastHandle_flatMap (f : Nat → List (Row Datum)) (is : List Nat) :
    lastHandle (is.flatMap f) = (is.flatMap fun i => handles (f i)).getLast? := by
  rw [lastHandle, ← List.getLast?_map, List.map_flatMap]
  rfl

/-! ## The relation -/

/-- The linked table has the fields of the table, its nodes are the rows with their neighbours, and its
buckets hold the handles of their rows. -/
structure Represents (L : Linked) (t : Table Datum) : Prop where
  keyKind : L.keyKind = t.keyKind
  lastAdded : L.lastAdded = t.lastAdded
  nextSerial : L.nextSerial = t.nextSerial
  buckets : L.buckets = (List.range t.capacity).map fun i => stored (handles (t.bucketRows i))
  node? : ∀ h, L.node? h = t.node? h
  known : (L.nodes.map (·.1)).Perm (handles t.rows)
  head : L.head = t.head?
  tail : L.tail = t.tail?

/-- An empty linked table stands for an empty table: all its buckets are without rows. -/
theorem Represents.empty (keyKind : Kind) (wanted : Nat) :
    (Linked.empty keyKind wanted).Represents (Table.empty keyKind wanted) where
  keyKind := rfl
  lastAdded := rfl
  nextSerial := rfl
  buckets := by
    have hnone : ∀ i ∈ List.range (max wanted Table.minCapacity),
        stored (handles ((Table.empty keyKind wanted : Table Datum).bucketRows i)) = none :=
      fun _ _ => rfl
    show _ = List.map _ (List.range (max wanted Table.minCapacity))
    rw [List.map_congr_left hnone, List.map_const', List.length_range]
    rfl
  node? _ := rfl
  known := .nil
  head := rfl
  tail := rfl

namespace Represents

variable (hr : L.Represents t) (hs : t.Shaped)
include hr

/-- Both have the same number of buckets. -/
theorem capacity_eq : L.capacity = t.capacity := by
  rw [capacity, hr.buckets, List.length_map, List.length_range]

/-- Both have a key in the same bucket. -/
theorem bucketOf_eq (key : Datum) : L.bucketOf C key = t.bucketOf C key := by
  rw [bucketOf, Table.bucketOf, hr.keyKind, hr.capacity_eq]

/-- A bucket is kept if it has rows, with their handles. -/
theorem bucket?_eq {index : Nat} (hlt : index < t.capacity) :
    L.bucket? index = stored (handles (t.bucketRows index)) := by
  rw [bucket?, hr.buckets, List.getElem?_map, List.getElem?_range hlt]
  rfl

/-- The link forward goes to the row behind, also from a handle that is gone: nowhere. -/
theorem next?_eq (h : Handle) : L.next? h = t.next? h := by
  rw [next?, hr.node?, Table.node?]
  cases hrow : t.row? h with
  | none => exact (Table.handleAfter_eq_none (Table.row?_eq_none.1 hrow)).symm
  | some r => rfl

/-- The link back goes to the row in front. -/
theorem previous?_eq (h : Handle) : L.previous? h = t.previous? h := by
  rw [previous?, hr.node?, Table.node?]
  cases hrow : t.row? h with
  | none =>
    have habsent : ∀ r ∈ t.rows.reverse, r.handle ≠ h := fun r hr =>
      Table.row?_eq_none.1 hrow r (List.mem_reverse.1 hr)
    exact (Table.handleAfter_eq_none habsent).symm
  | some r => rfl

include hs

/-- The key under a handle compares as that of its row. -/
theorem orderAt_eq (key : Datum) {r : Row Datum} (hmem : r ∈ t.rows) :
    L.orderAt C key r.handle = some (t.keyKind.order C r.key key) := by
  rw [orderAt, hr.node?, Table.node?, hs.row?_of_mem hmem, hr.keyKind]
  rfl

/-! ## The place of a new entry -/

omit hr hs in
/-- Two neighbours of a bucket that are linked to each other are found if the buckets on either side keep them. -/
theorem bucketNeighbours_of_sought {index : Nat} {previous next : Option Handle} (hnodes : ¬ L.nodes.isEmpty)
    (hnext : ((L.buckets.drop (index + 1)).findSome? id).bind List.head? = next)
    (hprevious : ((L.buckets.take index).reverse.findSome? id).bind List.getLast? = previous)
    (hback : ∀ h, next = some h → L.previous? h = previous)
    (hforth : ∀ h, previous = some h → L.next? h = next) : L.bucketNeighbours index = (previous, next) := by
  rw [bucketNeighbours, if_neg hnodes]
  simp only [hnext]
  split
  · next hsought =>
    -- the handle behind tells none in front, so that one is sought through the buckets
    have htold : next.bind L.previous? = none := by
      simpa using (Bool.and_eq_true_iff.1 hsought).1
    cases hfound : (L.buckets.take index).reverse.findSome? id with
    | none =>
      rw [hfound] at hprevious
      rw [← hprevious, htold]
      rfl
    | some handles =>
      rw [hfound] at hprevious
      have hlast : handles.getLast? = previous := hprevious
      simp only [hlast]
      cases next with
      | some h => rfl
      | none =>
        cases previous with
        | none => rfl
        | some h => rw [Option.bind_some, hforth h rfl, Option.none_or]
  · next htold =>
    cases next with
    | some h => rw [Option.bind_some, hback h rfl]
    | none =>
      -- no bucket comes before the first
      obtain rfl : index = 0 := by simpa using htold
      rw [← hprevious]
      rfl

/-- The row behind a bucket without rows is found in the next bucket that has some. -/
theorem sought_behind {key : Datum} (hnone : t.bucketRows (t.bucketOf C key) = []) :
    ((L.buckets.drop (t.bucketOf C key + 1)).findSome? id).bind List.head? = firstHandle (t.behind C key) := by
  have hbehind : t.behind C key = t.rows.filter (t.bucketOf C key < ·.bucket) := by
    simp [Table.behind, hnone]
  rw [hbehind, hs.filter_gt (hs.bucketOf_lt key), firstHandle_flatMap, hr.buckets, ← List.map_drop,
    findSome?_stored]

/-- The row in front of it is found in the closest bucket before that has some. -/
theorem sought_ahead {key : Datum} (hnone : t.bucketRows (t.bucketOf C key) = []) :
    ((L.buckets.take (t.bucketOf C key)).reverse.findSome? id).bind List.getLast? = lastHandle (t.ahead C key) := by
  have hahead : t.ahead C key = t.rows.filter (·.bucket < t.bucketOf C key) := by
    simp [Table.ahead, hnone]
  have htake : (List.range t.capacity).take (t.bucketOf C key) = List.range (t.bucketOf C key) := by
    rw [List.take_range, Nat.min_eq_left (Nat.le_of_lt (hs.bucketOf_lt key))]
  rw [hahead, hs.filter_lt, lastHandle_flatMap, hr.buckets, ← List.map_take, htake, findSome?_reverse_stored]

/-- In a bucket without rows, the neighbours of a new row are the rows on either side of the bucket. -/
theorem bucketNeighbours_eq {key : Datum} (hnone : t.bucketRows (t.bucketOf C key) = []) :
    L.bucketNeighbours (t.bucketOf C key) =
      (lastHandle (t.ahead C key), firstHandle (t.behind C key)) := by
  have hsplit : t.ahead C key ++ t.behind C key = t.rows := hs.ahead_append_behind key
  by_cases hempty : L.nodes.isEmpty
  · -- without any row there are no neighbours
    have hknown := hr.known
    rw [List.isEmpty_iff.1 hempty] at hknown
    have hrows : t.rows = [] := List.map_eq_nil_iff.1 (List.nil_perm.1 hknown)
    obtain ⟨hahead, hbehind⟩ := List.append_eq_nil_iff.1 (hsplit.trans hrows)
    rw [bucketNeighbours, if_pos hempty, hahead, hbehind]
    rfl
  · refine bucketNeighbours_of_sought hempty (hr.sought_behind hs hnone) (hr.sought_ahead hs hnone)
      (fun h hfirst => ?_) fun h hlast => ?_
    · rw [hr.previous?_eq, Table.previous?_of_split hs.distinct hsplit.symm hfirst]
    · rw [hr.next?_eq, Table.next?_of_split hs.distinct hsplit.symm hlast]

/-- The place of a new entry and its neighbours there are those of the new row. -/
theorem placeFor_eq (key : Datum) :
    L.placeFor C key =
      (t.placeFor C key (t.bucketRows (t.bucketOf C key)), lastHandle (t.ahead C key),
        firstHandle (t.behind C key)) := by
  have hbucket := hr.bucket?_eq (hs.bucketOf_lt (C := C) key)
  have hsplit : t.ahead C key ++ t.behind C key = t.rows := hs.ahead_append_behind key
  rw [placeFor, hr.bucketOf_eq, hbucket]
  cases hrows : t.bucketRows (t.bucketOf C key) with
  | nil => rw [← hr.bucketNeighbours_eq hs hrows]; rfl
  | cons first rest =>
    rw [← hrows]
    have hmem : ∀ r ∈ t.bucketRows (t.bucketOf C key), r ∈ t.rows := fun r h => (List.mem_filter.1 h).1
    have hplace : partitionPoint (fun h => L.orderAt C key h != some .gt)
        (handles (t.bucketRows (t.bucketOf C key))) =
        t.placeFor C key (t.bucketRows (t.bucketOf C key)) :=
      partitionPoint_map_congr fun r h => by rw [hr.orderAt_eq hs key (hmem r h)]; rfl
    have hstored : stored (handles (t.bucketRows (t.bucketOf C key))) =
        some (handles (t.bucketRows (t.bucketOf C key))) := by rw [hrows]; rfl
    rw [hstored]
    show L.placeIn C key (handles (t.bucketRows (t.bucketOf C key))) = _
    rw [placeIn, hplace]
    generalize hn : t.placeFor C key (t.bucketRows (t.bucketOf C key)) = place
    have hlast : ((handles (t.bucketRows (t.bucketOf C key))).take place).getLast? =
        lastHandle ((t.bucketRows (t.bucketOf C key)).take place) := by
      rw [handles, ← List.map_take, List.getLast?_map, lastHandle]
    simp only [hlast]
    cases hbefore : lastHandle ((t.bucketRows (t.bucketOf C key)).take place) with
    | some before =>
      -- the row before it in the bucket is the one before it in the global order
      have hahead : lastHandle (t.ahead C key) = some before := by
        obtain ⟨r, hr', rfl⟩ := Option.map_eq_some_iff.1 hbefore
        rw [lastHandle, Table.ahead, hn, List.getLast?_append, hr']
        rfl
      have hnext : L.next? before = firstHandle (t.behind C key) := by
        rw [hr.next?_eq, Table.next?_of_split hs.distinct hsplit.symm hahead]
      rw [hahead, ← hnext]
    | none =>
      -- it becomes the first of the bucket, before what is first now
      have hzero : place = 0 := by
        have hnil := List.getLast?_eq_none_iff.1 (Option.map_eq_none_iff.1 hbefore)
        rw [hrows] at hnil
        exact (List.take_eq_nil_iff.1 hnil).resolve_right (List.cons_ne_nil first rest)
      have hafter : (handles (t.bucketRows (t.bucketOf C key)))[place]? =
          firstHandle (t.behind C key) := by
        rw [Table.behind, hn, hzero, hrows]
        rfl
      have hfirst : firstHandle (t.behind C key) = some first.handle := by
        rw [Table.behind, hn, hzero, hrows]
        rfl
      rw [hafter, hfirst, Option.bind_some, hr.previous?_eq,
        Table.previous?_of_split hs.distinct hsplit.symm hfirst]

/-! ## The place of an entry that is there -/

omit hr hs in
/-- A row that is found is one of the rows. -/
theorem mem_of_find? {key : Datum} {r : Row Datum} (h : t.find? C key = some r) : r ∈ t.rows := by
  unfold Table.find? at h
  dsimp only at h
  split at h
  · have hget := (Option.filter_eq_some_iff.1 h).1
    exact (List.mem_filter.1 (List.mem_of_getElem? hget)).1
  · cases h

/-- The oldest row with a key is located in its bucket. -/
theorem locate?_spec (key : Datum) :
    (t.find? C key = none → L.locate? C key = none) ∧
      ∀ r, t.find? C key = some r → ∃ place, L.locate? C key = some (r.bucket, place) ∧
        (t.bucketRows r.bucket)[place]? = some r := by
  have hbucket := hr.bucket?_eq (hs.bucketOf_lt (C := C) key.peel)
  unfold Table.find? locate?
  dsimp only
  rw [hr.keyKind, hr.bucketOf_eq]
  by_cases haccepts : t.keyKind.accepts C key.peel = true
  · rw [if_pos haccepts, if_pos haccepts, hbucket]
    generalize hb : t.bucketOf C key.peel = bucket
    have hmem : ∀ r ∈ t.bucketRows bucket, r ∈ t.rows := fun r h => (List.mem_filter.1 h).1
    have hplace : partitionPoint (fun h => L.orderAt C key.peel h == some .lt)
        (handles (t.bucketRows bucket)) =
        partitionPoint (fun r => t.keyKind.order C r.key key.peel == .lt) (t.bucketRows bucket) :=
      partitionPoint_map_congr fun r h => by rw [hr.orderAt_eq hs _ (hmem r h)]; rfl
    generalize hn : partitionPoint (fun r => t.keyKind.order C r.key key.peel == .lt)
      (t.bucketRows bucket) = place at *
    -- nothing is filed at the place where the key would be, or a row whose key may be equal
    cases hget : (t.bucketRows bucket)[place]? with
    | none =>
      refine ⟨fun _ => ?_, fun r h => by cases h⟩
      cases hstored : stored (handles (t.bucketRows bucket)) with
      | none => rfl
      | some hs' =>
        obtain ⟨rfl, -⟩ := stored_eq_some hstored
        rw [Option.bind_some, hplace, handles, List.getElem?_map, hget]
        rfl
    | some r =>
      have hr' : r ∈ t.bucketRows bucket := List.mem_of_getElem? hget
      have hrb : r.bucket = bucket := by simpa [Table.bucketRows] using (List.mem_filter.1 hr').2
      have horder := hr.orderAt_eq (C := C) hs key.peel (hmem r hr')
      obtain ⟨hstored, hhandle⟩ := stored_of_getElem? hget
      rw [hstored, Option.bind_some, hplace, hhandle]
      by_cases heq : t.keyKind.order C r.key key.peel = .eq
      · rw [Option.filter_some_pos (by simpa using heq), Option.filter_some_pos (by simp [horder, heq])]
        refine ⟨(fun h => by cases h), fun r' h => ?_⟩
        obtain rfl : r = r' := Option.some.inj h
        exact ⟨place, by rw [hrb]; rfl, hrb ▸ hget⟩
      · rw [Option.filter_some_neg (by simpa using heq), Option.filter_some_neg (by simp [horder, heq])]
        exact ⟨fun _ => rfl, fun r' h => by cases h⟩
  · rw [if_neg haccepts, if_neg haccepts]
    exact ⟨fun _ => rfl, fun r' h => by cases h⟩

end Represents

end Linked

end OrderedTable
