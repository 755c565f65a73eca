import OrderedTable.Proofs.Linked.Representation
import OrderedTable.Proofs.Table.History

/-!
# Linked tables keep to their rows

Every operation on a linked table does to it what the operation on the rows does to the table it stands
for, and gives the same answer (`Represents.perform`). So buckets and links stay in step through every
history (`Represents.run`), even where the kind of the keys was changed and the buckets are not in
order any more: all that this needs is the shape of the table.
-/

namespace OrderedTable

namespace Table

variable {C : Catalogue} {t u : Table Datum} {xs ys : List (Row Datum)} {r : Row Datum} {h : Handle}

/-! ## Nodes of a table with a row more -/

/-- The new row's node links to the rows on either side of it; these link to it, and no other node changes. -/
theorem Between.node?_within (hb : Between t u xs r ys) :
    u.node? h =
      if r.handle = h then some ⟨r.toEntry, lastHandle xs, firstHandle ys⟩
      else (t.node? h).map fun n =>
        { n with
          previous := if firstHandle ys = some h then some r.handle else n.previous
          next := if lastHandle xs = some h then some r.handle else n.next } := by
  rw [node?, hb.row?_within]
  -- the row itself, or a row that was there
  by_cases hh : r.handle = h
  · obtain ⟨hprevious, hnext⟩ := hb.neighbours
    rw [hh] at hprevious hnext
    rw [if_pos hh, if_pos hh, Option.map_some, hprevious, hnext]
  · obtain ⟨hprevious, hnext⟩ := hb.neighbours_within hh
    rw [if_neg hh, if_neg hh, node?, Option.map_map, hprevious, hnext]
    rfl

/-- The other way round: without the row, the nodes on either side link to each other. -/
theorem Between.node?_without (hb : Between t u xs r ys) :
    t.node? h =
      if r.handle = h then none
      else (u.node? h).map fun n =>
        { n with
          previous := if firstHandle ys = some h then lastHandle xs else n.previous
          next := if lastHandle xs = some h then firstHandle ys else n.next } := by
  rw [node?, hb.row?_without]
  by_cases hh : r.handle = h
  · rw [if_pos hh, if_pos hh]
    rfl
  · obtain ⟨hprevious, hnext⟩ := hb.neighbours_without hh
    rw [if_neg hh, if_neg hh, node?, Option.map_map, hprevious, hnext]
    rfl

/-! ## Buckets of a table with a row more -/

/-- Other buckets do not see the row. -/
theorem Between.bucketRows_of_ne (hb : Between t u xs r ys) {i : Nat} (hi : r.bucket ≠ i) :
    u.bucketRows i = t.bucketRows i := by
  rw [bucketRows, bucketRows, hb.within, hb.without, List.filter_append, List.filter_append,
    List.filter_cons_of_neg (by simpa using hi)]

/-- The bucket of a new row has it at its place, between the rows it had. -/
theorem bucketRows_insert (t : Table Datum) (e : Entry Datum) :
    (t.insert C e).bucketRows (t.bucketOf C e.key) =
      let rows := t.bucketRows (t.bucketOf C e.key)
      rows.take (t.placeFor C e.key rows) ++ t.newRow C e :: rows.drop (t.placeFor C e.key rows) := by
  have within : ∀ rows : List (Row Datum), (∀ r ∈ rows, r ∈ t.bucketRows (t.bucketOf C e.key)) →
      rows.filter (·.bucket = t.bucketOf C e.key) = rows := by
    intro rows hrows
    refine List.filter_eq_self.2 fun r hr => ?_
    exact (List.mem_filter.1 (hrows r hr)).2
  have before : (t.rows.filter (·.bucket < t.bucketOf C e.key)).filter
      (·.bucket = t.bucketOf C e.key) = [] := by
    refine List.filter_eq_nil_iff.2 fun r hr => ?_
    have := (List.mem_filter.1 hr).2
    simp only [decide_eq_true_eq] at this ⊢
    omega
  have after : (t.rows.filter (t.bucketOf C e.key < ·.bucket)).filter
      (·.bucket = t.bucketOf C e.key) = [] := by
    refine List.filter_eq_nil_iff.2 fun r hr => ?_
    have := (List.mem_filter.1 hr).2
    simp only [decide_eq_true_eq] at this ⊢
    omega
  rw [bucketRows, rows_insert, List.filter_append, List.filter_cons_of_pos (by simp [newRow]), ahead,
    behind, List.filter_append, List.filter_append, before, after,
    within _ fun r => List.mem_of_mem_take, within _ fun r => List.mem_of_mem_drop, List.nil_append,
    List.append_nil]

/-- Of rows with handles of their own, taking out the row at a place is taking out its handle. -/
theorem eraseIdx_handles {rows : List (Row Datum)} (hd : Distinct rows) {place : Nat}
    (hget : rows[place]? = some r) :
    (handles rows).eraseIdx place = handles (rows.filter (·.handle ≠ r.handle)) := by
  induction rows generalizing place with
  | nil => cases hget
  | cons s rows ih =>
    obtain ⟨hs, hrest⟩ := List.pairwise_cons.1 hd
    cases place with
    | zero =>
      obtain rfl : s = r := Option.some.inj hget
      rw [List.filter_cons_of_neg (by simp), List.filter_eq_self.2]
      · rfl
      · intro x hx
        simpa using (hs x hx).symm
    | succ place =>
      have hne : s.handle ≠ r.handle := hs r (List.mem_of_getElem? hget)
      rw [List.filter_cons_of_pos (by simpa using hne)]
      show s.handle :: (handles rows).eraseIdx place = s.handle :: handles _
      rw [ih hrest hget]

/-- Erasing a row takes it out of whichever bucket it is in. -/
theorem bucketRows_erase (t : Table Datum) (h : Handle) (i : Nat) :
    (t.erase h).bucketRows i = (t.bucketRows i).filter (·.handle ≠ h) := by
  rw [bucketRows, bucketRows, erase, List.filter_filter, List.filter_filter]
  exact List.filter_congr fun r _ => Bool.and_comm _ _

theorem handles_append (xs ys : List (Row Datum)) : handles (xs ++ ys) = handles xs ++ handles ys :=
  List.map_append

/-- Of a run of rows, putting a handle in at a place is putting it between the handles on either side. -/
theorem insertIdx_handles {rows : List (Row Datum)} {place : Nat} (hle : place ≤ rows.length)
    (h : Handle) :
    (handles rows).insertIdx place h = handles (rows.take place) ++ h :: handles (rows.drop place) := by
  induction rows generalizing place with
  | nil =>
    obtain rfl : place = 0 := Nat.le_zero.1 hle
    rfl
  | cons s rows ih =>
    cases place with
    | zero => rfl
    | succ place =>
      show s.handle :: (handles rows).insertIdx place h = _
      rw [ih (Nat.le_of_succ_le_succ hle)]
      rfl

/-- In the bucket it is filed under, the place of a row's handle is the row's own. -/
theorem Shaped.getElem?_of_idxOf? (hs : t.Shaped) (hmem : r ∈ t.rows) {place : Nat}
    (hplace : (handles (t.bucketRows r.bucket)).idxOf? r.handle = some place) :
    (t.bucketRows r.bucket)[place]? = some r := by
  obtain ⟨hlt, hget, -⟩ := List.idxOf?_eq_some_iff.1 hplace
  have hget := List.getElem?_eq_some_iff.2 ⟨hlt, hget⟩
  rw [handles, List.getElem?_map] at hget
  obtain ⟨s, hs', hsh⟩ := Option.map_eq_some_iff.1 hget
  have hsmem := (mem_bucketRows.1 (List.mem_of_getElem? hs')).1
  rw [hs', hs.eq_of_handle hsmem hmem hsh]

/-- What comes after a row depends on the handles alone. -/
theorem handleAfter_map {change : Row Datum → Row Datum} (hhandle : ∀ r, (change r).handle = r.handle)
    (rows : List (Row Datum)) (h : Handle) : handleAfter h (rows.map change) = handleAfter h rows := by
  induction rows with
  | nil => rfl
  | cons r rows ih =>
    rw [List.map_cons, handleAfter, handleAfter, hhandle, ih, List.head?_map, Option.map_map]
    have : (fun x : Row Datum => x.handle) ∘ change = fun x => x.handle := funext hhandle
    rw [this]

end Table

namespace Linked

open Table (handles firstHandle lastHandle Between)

variable {C : Catalogue} {L : Linked} {t : Table Datum}

/-- An empty bucket reads as one without handles, kept or not. -/
theorem stored_getD (hs : List Handle) : (stored hs).getD [] = hs := by
  cases hs <;> rfl

/-- The buckets after one of them was changed. -/
theorem set_buckets {n index : Nat} {f g : Nat → Option (List Handle)} {b : Option (List Handle)}
    (hb : g index = b) (hother : ∀ i, i ≠ index → g i = f i) :
    ((List.range n).map f).set index b = (List.range n).map g := by
  refine List.ext_getElem? fun i => ?_
  rw [List.getElem?_set, List.getElem?_map, List.getElem?_map, List.length_map, List.length_range]
  by_cases hi : index = i
  · rw [if_pos hi, ← hi]
    by_cases hlt : index < n
    · rw [if_pos hlt, List.getElem?_range hlt, Option.map_some, hb]
    · rw [if_neg hlt, List.getElem?_eq_none (by simpa using hlt)]
      rfl
  · rw [if_neg hi]
    exact Option.map_congr fun j hj => by
      have hj : j = i := by
        obtain ⟨hlt, rfl⟩ := List.getElem?_eq_some_iff.1 hj
        exact List.getElem_range _
      rw [hj, hother i (Ne.symm hi)]

namespace Represents

variable (hr : L.Represents t) (hs : t.Shaped)
include hr hs

/-! ## Insertion -/

/-- The bucket of a new row has one handle more. -/
theorem buckets_insert (e : Entry Datum) :
    L.buckets.set (t.bucketOf C e.key)
        (some (((L.bucket? (t.bucketOf C e.key)).getD []).insertIdx
          (t.placeFor C e.key (t.bucketRows (t.bucketOf C e.key))) t.nextHandle)) =
      (List.range (t.insert C e).capacity).map fun i =>
        stored (handles ((t.insert C e).bucketRows i)) := by
  have hother : ∀ i, i ≠ t.bucketOf C e.key →
      stored (handles ((t.insert C e).bucketRows i)) = stored (handles (t.bucketRows i)) := by
    intro i hi
    rw [(hs.between_insert e).bucketRows_of_ne (i := i) (Ne.symm hi)]
  have hle : t.placeFor C e.key (t.bucketRows (t.bucketOf C e.key)) ≤
      (t.bucketRows (t.bucketOf C e.key)).length := partitionPoint_le _
  rw [hr.bucket?_eq (hs.bucketOf_lt e.key), hr.buckets]
  refine set_buckets ?_ hother
  rw [Table.bucketRows_insert, stored_getD, Table.insertIdx_handles hle, handles, List.map_append,
    List.map_cons, stored, if_neg (by simp)]
  rfl

/-- Inserting an entry into a linked table does what inserting its row does. -/
theorem insert (e : Entry Datum) : (L.insert C e).Represents (t.insert C e) := by
  have hb := hs.between_insert (C := C) e
  have hhandle : (⟨L.nextSerial⟩ : Handle) = t.nextHandle := by rw [hr.nextSerial]; rfl
  have hbuckets := hr.buckets_insert hs (C := C) e
  rw [Linked.insert, hr.placeFor_eq hs, hr.bucketOf_eq, hhandle]
  dsimp only
  rw [hbuckets, link, relink_eq]
  -- left to show: the nodes with their links, the handles that are known, head and tail
  refine ⟨hr.keyKind, rfl, congrArg (· + 1) hr.nextSerial, rfl, ?_, ?_, ?_, ?_⟩
  · intro h
    show (relink _ _ _ _ _).node? h = _
    rw [node?_relink, hb.node?_within, node?_of_cons rfl]
    show _ = if t.nextHandle = h then _ else _
    by_cases hh : t.nextHandle = h
    · -- the new node is no neighbour of itself
      have hprevious : lastHandle (t.ahead C e.key) ≠ some h := by
        intro hlast
        obtain ⟨r, hmem, hrh⟩ := Table.exists_of_lastHandle hlast
        exact hs.handle_ne_next (hs.mem_of_mem_ahead hmem) (hrh.trans hh.symm)
      have hnext : firstHandle (t.behind C e.key) ≠ some h := by
        intro hfirst
        obtain ⟨r, hmem, hrh⟩ := Table.exists_of_firstHandle hfirst
        exact hs.handle_ne_next (hs.mem_of_mem_behind hmem) (hrh.trans hh.symm)
      rw [if_pos hh, if_pos hh, Option.map_some, if_neg hprevious, if_neg hnext]
      rfl
    · rw [if_neg hh, if_neg hh]
      show (L.node? h).map _ = _
      rw [hr.node?]
      rfl
  · have hknown := hr.known
    rw [← hs.ahead_append_behind (C := C) e.key, Table.handles_append] at hknown
    show ((relink _ _ _ _ _).nodes.map (·.1)).Perm _
    rw [relink_handles, Table.rows_insert, Table.handles_append]
    exact (hknown.cons _).trans List.perm_middle.symm
  · rw [hb.head?_within, ← hr.head]
    rfl
  · rw [hb.tail?_within, ← hr.tail]
    rfl

/-! ## Removal -/

/-- The bucket of a row that goes has one handle less, and is dropped with the last one. -/
theorem buckets_erase {r : Row Datum} (hmem : r ∈ t.rows) {place : Nat}
    (hget : (t.bucketRows r.bucket)[place]? = some r) :
    L.buckets.set r.bucket
        (if ((handles (t.bucketRows r.bucket)).eraseIdx place).isEmpty then none
          else some ((handles (t.bucketRows r.bucket)).eraseIdx place)) =
      (List.range (t.erase r.handle).capacity).map fun i =>
        stored (handles ((t.erase r.handle).bucketRows i)) := by
  have hother : ∀ i, i ≠ r.bucket →
      stored (handles ((t.erase r.handle).bucketRows i)) = stored (handles (t.bucketRows i)) := by
    intro i hi
    obtain ⟨xs, ys, hb⟩ := Table.exists_between hs.distinct hmem
    rw [← hb.bucketRows_of_ne (i := i) (Ne.symm hi)]
  have hdistinct : Table.Distinct (t.bucketRows r.bucket) := hs.distinct.filter _
  rw [hr.buckets, Table.eraseIdx_handles hdistinct hget, ← Table.bucketRows_erase]
  exact set_buckets rfl hother

/-- Taking a row's handle out of its bucket and unlinking it removes the row. -/
theorem takeOut {r : Row Datum} (hmem : r ∈ t.rows) {place : Nat}
    (hget : (t.bucketRows r.bucket)[place]? = some r) :
    ∃ L' M, L.takeFromBucket r.bucket place = some (r.handle, L') ∧
      L'.unlink r.handle = some (r.toEntry, M) ∧ M.Represents (t.erase r.handle) := by
  obtain ⟨xs, ys, hb⟩ := Table.exists_between hs.distinct hmem
  have hbucket := hr.bucket?_eq (hs.bucket_lt r hmem)
  have hnode : L.node? r.handle = some ⟨r.toEntry, lastHandle xs, firstHandle ys⟩ := by
    rw [hr.node?, hb.node?_within, if_pos rfl]
  obtain ⟨hstored, hhandle⟩ := stored_of_getElem? hget
  rw [takeFromBucket, hbucket, hstored, Option.bind_some, hhandle, Option.map_some]
  dsimp only
  rw [hr.buckets_erase hs hmem hget]
  refine ⟨_, _, rfl, congrArg _ hnode, ?_⟩
  dsimp only
  rw [relink_eq]
  -- left to show, as for insertion: nodes, handles, head and tail
  refine ⟨hr.keyKind, hr.lastAdded, hr.nextSerial, rfl, ?_, ?_, ?_, ?_⟩
  · intro h
    show (relink _ _ _ _ _).node? h = _
    rw [node?_relink, hb.node?_without, node?_of_filter rfl]
    by_cases hh : r.handle = h
    · rw [if_pos hh, if_pos hh]
      rfl
    · rw [if_neg hh, if_neg hh]
      show (L.node? h).map _ = _
      rw [hr.node?]
  · have hknown := hr.known.filter (· ≠ r.handle)
    rw [List.filter_map, handles, List.filter_map] at hknown
    show ((relink _ _ _ _ _).nodes.map (·.1)).Perm _
    rw [relink_handles]
    exact hknown
  · rw [hb.head?_without, ← hr.head]
  · rw [hb.tail?_without, ← hr.tail]

/-! ## Changes in place -/

omit hs in
/-- A row may be changed where it stands, but for its bucket and its handle. -/
theorem modify {h : Handle} {change : Row Datum → Row Datum} {change' : Node → Node}
    (hbucket : ∀ r, (change r).bucket = r.bucket) (hhandle : ∀ r, (change r).handle = r.handle)
    (hnode : ∀ r p n, change' ⟨r.toEntry, p, n⟩ = ⟨(change r).toEntry, p, n⟩) :
    (L.modifyNode h change').Represents (t.modify h change) := by
  let onRow : Row Datum → Row Datum := fun r => if r.handle = h then change r else r
  have name : ∀ r, (onRow r).handle = r.handle := Table.changed_eq hhandle h
  have bucket : ∀ r, (onRow r).bucket = r.bucket := Table.changed_eq hbucket h
  have hrows : (t.modify h change).rows = t.rows.map onRow := rfl
  have hnames : (fun r : Row Datum => r.handle) ∘ onRow = fun r => r.handle := funext name
  -- buckets and links go by handles and bucket numbers, which the change keeps
  refine ⟨hr.keyKind, hr.lastAdded, hr.nextSerial, ?_, ?_, ?_, ?_, ?_⟩
  · refine hr.buckets.trans (List.map_congr_left fun i _ => congrArg stored ?_)
    have hsame : (fun r : Row Datum => decide (r.bucket = i)) ∘ onRow =
        fun r => decide (r.bucket = i) := funext fun r => congrArg (fun b => decide (b = i)) (bucket r)
    rw [Table.bucketRows, Table.bucketRows, hrows, List.filter_map, handles, handles, List.map_map,
      hnames, hsame]
  · intro h'
    rw [node?_modifyNode, hr.node?, Table.node?, Table.node?, Table.row?, Table.row?, hrows,
      List.find?_map]
    have hfind : (fun r : Row Datum => decide (r.handle = h')) ∘ onRow =
        fun r => decide (r.handle = h') := funext fun r => congrArg (fun x => decide (x = h')) (name r)
    rw [hfind, Option.map_map, Option.map_map]
    refine Option.map_congr fun r hfound => ?_
    have hr' : r.handle = h' := by simpa using List.find?_some hfound
    -- handles stay, and so do the neighbours
    have hnext : (t.modify h change).next? h' = t.next? h' := Table.handleAfter_map name _ _
    have hprevious : (t.modify h change).previous? h' = t.previous? h' := by
      rw [Table.previous?_eq, Table.previous?_eq, hrows, ← List.map_reverse,
        Table.handleAfter_map name]
    simp only [Function.comp_apply, hnext, hprevious]
    by_cases hh : h = h'
    · rw [if_pos hh, hnode]
      simp [onRow, hr', hh]
    · have hne : r.handle ≠ h := fun heq => hh (heq.symm.trans hr')
      rw [if_neg hh]
      simp [onRow, hne]
  · rw [modifyNode_handles, handles, hrows, List.map_map, hnames]
    exact hr.known
  · show L.head = _
    rw [hr.head, Table.head?, Table.head?, hrows, List.head?_map, Option.map_map, hnames]
  · show L.tail = _
    rw [hr.tail, Table.tail?, Table.tail?, hrows, List.getLast?_map, Option.map_map, hnames]

omit hs in
/-- Without entries every bucket is empty. -/
theorem clear : L.clear.Represents t.clear where
  keyKind := hr.keyKind
  lastAdded := hr.lastAdded
  nextSerial := hr.nextSerial
  buckets := by
    show L.buckets.map _ = _
    rw [hr.buckets, List.map_map]
    rfl
  node? _ := rfl
  known := .nil
  head := rfl
  tail := rfl

omit hs in
/-- The kind of the keys is a field of its own: nothing is filed anew. -/
theorem setKeyKind (k : Kind) : ({ L with keyKind := k } : Linked).Represents (t.setKeyKind k) :=
  ⟨rfl, hr.lastAdded, hr.nextSerial, hr.buckets, hr.node?, hr.known, hr.head, hr.tail⟩

/-! ## Operations -/

/-- The handle found is that of the row found. -/
theorem find?_eq (key : Datum) : L.find? C key = (t.find? C key).map (·.handle) := by
  obtain ⟨hnone, hsome⟩ := hr.locate?_spec hs (C := C) key
  rw [Linked.find?]
  -- located in its bucket, the handle at that place is the row's
  cases hfind : t.find? C key with
  | none =>
    rw [hnone hfind]
    rfl
  | some r =>
    obtain ⟨place, hplace, hget⟩ := hsome r hfind
    obtain ⟨hstored, hhandle⟩ := stored_of_getElem? hget
    rw [hplace, Option.bind_some]
    dsimp only
    rw [hr.bucket?_eq (hs.bucket_lt r (mem_of_find? hfind)), hstored, Option.bind_some, hhandle]
    rfl

omit hs in
/-- What a handle shows is its row. -/
theorem item?_eq (h : Handle) : L.item? h = (t.row? h).map Row.item := by
  rw [item?, hr.node?, Table.node?, Option.map_map]
  refine Option.map_congr fun r hfound => ?_
  have hr' : r.handle = h := by simpa using List.find?_some hfound
  simp [Row.item, hr']

/-- What is found by key is the row found, with its handle. -/
theorem item_of_find? (key : Datum) :
    (L.find? C key).bind L.item? = (t.find? C key).map Row.item := by
  rw [hr.find?_eq hs]
  cases hfind : t.find? C key with
  | none => rfl
  | some r =>
    rw [Option.map_some, Option.bind_some, hr.item?_eq, hs.row?_of_mem (mem_of_find? hfind)]

/-- A key is located if its row is found. -/
theorem contains_eq (key : Datum) : (L.locate? C key).isSome = t.contains C key := by
  obtain ⟨hnone, hsome⟩ := hr.locate?_spec hs (C := C) key
  rw [Table.contains]
  cases hfind : t.find? C key with
  | none =>
    rw [hnone hfind]
    rfl
  | some r =>
    obtain ⟨place, hplace, -⟩ := hsome r hfind
    rw [hplace]
    rfl

omit hs in
/-- Both give a new entry the same handle. -/
theorem nextHandle_eq : L.nextHandle = t.nextHandle := by
  rw [Linked.nextHandle, Table.nextHandle, hr.nextSerial]

/-- Adding is refused alike, and inserts alike. -/
theorem add_agrees (e : Entry Datum) :
    Agree Represents (Answer.insertion L L.nextHandle (L.add C e))
      (Answer.insertion t t.nextHandle (t.add C e)) := by
  rw [add, Table.add, hr.keyKind, hr.nextHandle_eq]
  by_cases hk : (!t.keyKind.accepts C e.key) = true
  · rw [if_pos hk, if_pos hk]
    exact ⟨hr, rfl⟩
  · rw [if_neg hk, if_neg hk]
    by_cases hv : (!e.kind.accepts C e.value) = true
    · rw [if_pos hv, if_pos hv]
      exact ⟨hr, rfl⟩
    · rw [if_neg hv, if_neg hv]
      exact ⟨hr.insert hs e, rfl⟩

/-- A value is replaced at the same entry. -/
theorem setValue?_agrees (key value : Datum) :
    Agree Represents (Answer.replacement L (L.setValue? C key value))
      (Answer.replacement t (t.setValue? C key value)) := by
  rw [Linked.setValue?, Table.setValue?, hr.find?_eq hs]
  cases t.find? C key with
  | none => exact ⟨hr, rfl⟩
  | some r =>
    let change : Row Datum → Row Datum := fun r => { r with value }
    have hmodify : (L.modifyNode r.handle fun n => { n with value }).Represents
        (t.modify r.handle change) :=
      hr.modify (fun _ => rfl) (fun _ => rfl) fun _ _ _ => rfl
    exact ⟨hmodify, rfl⟩

/-- The oldest entry with a key is removed from both. -/
theorem remove?_agrees (key : Datum) :
    Agree Represents (Answer.removal L (L.remove? C key))
      (Answer.removal t (t.remove? C key)) := by
  obtain ⟨hnone, hsome⟩ := hr.locate?_spec hs (C := C) key
  rw [Linked.remove?, Table.remove?]
  cases hfind : t.find? C key with
  | none =>
    rw [hnone hfind]
    exact ⟨hr, rfl⟩
  | some r =>
    obtain ⟨place, hplace, hget⟩ := hsome r hfind
    obtain ⟨L', M, htake, hunlink, hrepr⟩ := hr.takeOut hs (mem_of_find? hfind) hget
    rw [hplace, Option.bind_some]
    dsimp only
    rw [htake, Option.bind_some]
    dsimp only
    rw [hunlink]
    exact ⟨hrepr, rfl⟩

/-- An entry is removed by its handle only where the bucket of its key holds it, and so is the row. -/
theorem removeHandle?_agrees (h : Handle) :
    Agree Represents (Answer.removal L (L.removeHandle? C h))
      (Answer.removal t (t.removeRow? C h)) := by
  rw [Linked.removeHandle?, Table.removeRow?, hr.node?, Table.node?]
  cases hrow : t.row? h with
  | none => exact ⟨hr, rfl⟩
  | some r =>
    obtain rfl : r.handle = h := by simpa using List.find?_some hrow
    have hmem : r ∈ t.rows := List.mem_of_find?_eq_some hrow
    have hbucket := hr.bucket?_eq (hs.bucketOf_lt (C := C) r.key)
    rw [Option.map_some, Option.bind_some, Option.bind_some]
    dsimp only
    rw [hr.bucketOf_eq, hbucket]
    -- the bucket of the key is computed again, under the kind that the keys have now
    by_cases hb : r.bucket = t.bucketOf C r.key
    · rw [if_pos hb, ← hb]
      have hin : r.handle ∈ handles (t.bucketRows r.bucket) :=
        List.mem_map.2 ⟨r, Table.mem_bucketRows.2 ⟨hmem, rfl⟩, rfl⟩
      -- so the handle is found there
      cases hplace : (handles (t.bucketRows r.bucket)).idxOf? r.handle with
      | none => exact absurd hin (List.idxOf?_eq_none_iff.1 hplace)
      | some place =>
        have hget := hs.getElem?_of_idxOf? hmem hplace
        obtain ⟨hstored, -⟩ := stored_of_getElem? hget
        obtain ⟨L', M, htake, hunlink, hrepr⟩ := hr.takeOut hs hmem hget
        rw [hstored, Option.bind_some, hplace, Option.bind_some, htake, Option.bind_some]
        dsimp only
        rw [hunlink]
        exact ⟨hrepr, rfl⟩
    · -- the row is filed under another bucket, after a change of the key kind, and is not found
      rw [if_neg hb]
      cases hstored : stored (handles (t.bucketRows (t.bucketOf C r.key))) with
      | none => exact ⟨hr, rfl⟩
      | some hs' =>
        obtain ⟨rfl, -⟩ := stored_eq_some hstored
        have habsent : r.handle ∉ handles (t.bucketRows (t.bucketOf C r.key)) := by
          intro hin
          obtain ⟨s, hsin, hsh⟩ := List.mem_map.1 hin
          obtain ⟨hsmem, hsb⟩ := Table.mem_bucketRows.1 hsin
          rw [hs.eq_of_handle hsmem hmem hsh] at hsb
          exact hb hsb
        rw [Option.bind_some, List.idxOf?_eq_none_iff.2 habsent]
        exact ⟨hr, rfl⟩

omit hs in
/-- The kind of a value changes at the same entry, if it accepts the value. -/
theorem setValueKind_agrees (h : Handle) (k : Kind) :
    Agree Represents (Answer.relabelling L (L.setValueKind C h k))
      (Answer.relabelling t (t.setValueKind C h k)) := by
  rw [Linked.setValueKind, Table.setValueKind, hr.node?, Table.node?]
  cases t.row? h with
  | none => exact ⟨hr, rfl⟩
  | some r =>
    by_cases ha : k.accepts C r.value = true
    · let change : Row Datum → Row Datum := fun r => { r with kind := k }
      have hmodify : (L.modifyNode h fun n => { n with kind := k }).Represents
          (t.modify h change) :=
        hr.modify (fun _ => rfl) (fun _ => rfl) fun _ _ _ => rfl
      simp only [Option.map_some, ha, if_true]
      exact ⟨hmodify, rfl⟩
    · simp only [Option.map_some, ha]
      exact ⟨hr, rfl⟩

/-- One operation does the same to a linked table and to the table it stands for. -/
theorem perform (op : Operation) : Agree Represents (L.perform C op) (t.perform C op) := by
  -- the operations that only look leave both as they are; the others go by their lemma
  cases op with
  | add e => exact hr.add_agrees hs e
  | addInferred key value =>
    have hkind : L.lastAdded.getD L.keyKind = t.inferredKind := by
      rw [hr.lastAdded, hr.keyKind, Table.inferredKind]
    rw [Linked.perform, hkind]
    exact hr.add_agrees hs _
  | addCopied e =>
    rw [Linked.perform, Table.perform, Table.addCopied, hr.keyKind]
    cases e.copied C t.keyKind with
    | error fault => exact ⟨hr, rfl⟩
    | ok copy => exact hr.add_agrees hs copy
  | find key => exact ⟨hr, congrArg Answer.found (hr.item_of_find? hs key)⟩
  | get key =>
    refine ⟨hr, congrArg Answer.value ?_⟩
    rw [hr.item_of_find? hs, Option.map_map]
    rfl
  | contains key => exact ⟨hr, congrArg Answer.flag (hr.contains_eq hs key)⟩
  | look h => exact ⟨hr, congrArg Answer.found (hr.item?_eq h)⟩
  | setValue key value => exact hr.setValue?_agrees hs key value
  | remove key => exact hr.remove?_agrees hs key
  | removeRow h => exact hr.removeHandle?_agrees hs h
  | setValueKind h k => exact hr.setValueKind_agrees h k
  | clear => exact ⟨hr.clear, rfl⟩
  | setKeyKind k => exact ⟨hr.setKeyKind k, rfl⟩

/-- A history on a linked table leads to what the table it stands for becomes, with the same answers. -/
theorem run (ops : List Operation) :
    (L.run C ops).Represents (t.run C ops) ∧ L.answers C ops = t.answers C ops := by
  -- the step carries the shape along, which every operation keeps
  have hstep : ∀ (L : Linked) (t : Table Datum) (op : Operation), True →
      L.Represents t ∧ t.Shaped →
      Agree (fun L t => L.Represents t ∧ t.Shaped) (L.perform C op) (t.perform C op) := by
    rintro L t op - ⟨hr, hs⟩
    obtain ⟨hrepr, hanswer⟩ := hr.perform hs (C := C) op
    exact ⟨⟨hrepr, (Table.perform_change t op).shaped hs⟩, hanswer⟩
  obtain ⟨⟨hlast, -⟩, hanswers⟩ := runWith_simulates hstep (fun _ _ => trivial) ⟨hr, hs⟩
  exact ⟨hlast, hanswers⟩

end Represents

end Linked

end OrderedTable
