import OrderedTable.Proofs.Datum.Rebuilding
import OrderedTable.Proofs.Order.Structural
import OrderedTable.Proofs.Table.Ledger

/-!
# The global order does not tell its history

Where a row stands follows from its key and from the age of the rows with equal keys, whatever was put in and
taken out in between. So two tables of one capacity have the same global order as soon as, key by key, their
ledgers have the same entries in the same order of age (`Table.order_independent_of_history`).

The argument is about lists in order: such a list is determined by the sequences of its equal elements
(`TotalPreorder.map_eq_of_queues`). The rows of a table are in the order of `Table.position`, by bucket and
then by key; and for each key they have the sequence that the ledger has (`Table.Tallies.queue_eq`).

The entries of two tables count as the same if they are equal up to the names that rows have in tables within
(`Entry.nameless`).
-/

namespace OrderedTable

/-! ## Lists in order -/

namespace TotalPreorder

variable {α β : Type} {among : α → Prop} {order : α → α → Ordering}

/-- What is equal compares alike with all others. -/
theorem eq_iff_of_eq (h : TotalPreorder among order) {a b c : α} (ha : among a) (hb : among b)
    (hc : among c) (hab : order a b = .eq) : order a c = .eq ↔ order b c = .eq := by
  have hba : order b a = .eq := by rw [h.swap a b ha hb, hab]; rfl
  -- the comparisons are not greater in either direction
  have pass : ∀ {x y : α}, among x → among y → order x y = .eq → order y x = .eq → order x c = .eq →
      order y c = .eq := by
    intro x y hx hy hxy hyx hxc
    have hcx : order c x = .eq := by rw [h.swap x c hx hc, hxc]; rfl
    have hle := (h.trans y x c hy hx hc (by rw [hyx]; decide) (by rw [hxc]; decide)).1
    have hge := (h.trans c x y hc hx hy (by rw [hcx]; decide) (by rw [hxy]; decide)).1
    rw [h.swap y c hy hc] at hge
    revert hle hge
    cases order y c <;> decide
  exact ⟨pass ha hb hab hba, pass hb ha hba hab⟩

/-- The elements of a list that are equal to a given one. -/
def queue (order : α → α → Ordering) (z : α) (xs : List α) : List α :=
  xs.filter fun x => order x z = .eq

theorem queue_cons_of_eq {x z : α} {xs : List α} (hxz : order x z = .eq) :
    queue order z (x :: xs) = x :: queue order z xs :=
  List.filter_cons_of_pos (decide_eq_true hxz)

theorem queue_cons_of_ne {x z : α} {xs : List α} (hxz : order x z ≠ .eq) :
    queue order z (x :: xs) = queue order z xs :=
  List.filter_cons_of_neg (by simpa using hxz)

/-- The first element of a list in order is not greater than what equals some element. -/
theorem head_le_of_queue (h : TotalPreorder among order) {x z : α} {xs : List α}
    (hxs : ∀ y ∈ x :: xs, among y) (hz : among z)
    (sorted : (x :: xs).Pairwise fun a b => order a b ≠ .gt) (hqueue : queue order z (x :: xs) ≠ []) :
    order x z ≠ .gt := by
  obtain ⟨y, hy⟩ := List.exists_mem_of_ne_nil _ hqueue
  obtain ⟨hmem, heq⟩ := List.mem_filter.1 hy
  have hyz : order y z ≠ .gt := by
    rw [of_decide_eq_true heq]
    decide
  rcases List.mem_cons.1 hmem with rfl | htail
  · exact hyz
  · have hxy := (List.pairwise_cons.1 sorted).1 y htail
    exact (h.trans x y z (hxs x List.mem_cons_self) (hxs y hmem) hz hxy hyz).1

/-- Two lists in order show the same if for each element those equal to it do. -/
theorem map_eq_of_queues (h : TotalPreorder among order) {shows : α → β} {xs ys : List α}
    (hxs : ∀ x ∈ xs, among x) (hys : ∀ y ∈ ys, among y)
    (sorted : xs.Pairwise fun a b => order a b ≠ .gt) (sorted' : ys.Pairwise fun a b => order a b ≠ .gt)
    (hqueues : ∀ z, z ∈ xs ∨ z ∈ ys → (queue order z xs).map shows = (queue order z ys).map shows) :
    xs.map shows = ys.map shows := by
  -- along the first list; the queues tell that the second goes on as long
  induction xs generalizing ys with
  | nil =>
    cases ys with
    | nil => rfl
    | cons y ys =>
      have hself := h.self y (hys y List.mem_cons_self)
      have hnil := hqueues y (.inr List.mem_cons_self)
      rw [queue_cons_of_eq hself] at hnil
      cases hnil
  | cons x xs ih =>
    have hx := hxs x List.mem_cons_self
    have hfirst := hqueues x (.inl List.mem_cons_self)
    rw [queue_cons_of_eq (h.self x hx), List.map_cons] at hfirst
    cases ys with
    | nil => cases hfirst
    | cons y ys =>
      have hy := hys y List.mem_cons_self
      -- either first element is equal to something in the other list, so neither is greater
      have hyx : order y x = .eq := by
        have hle : order y x ≠ .gt := by
          refine h.head_le_of_queue hys hx sorted' fun hnil => ?_
          rw [hnil] at hfirst
          cases hfirst
        have hge : order x y ≠ .gt := by
          refine h.head_le_of_queue hxs hy sorted fun hnil => ?_
          have hsecond := hqueues y (.inr List.mem_cons_self)
          rw [hnil, queue_cons_of_eq (h.self y hy)] at hsecond
          cases hsecond
        rw [h.swap y x hy hx] at hge
        revert hle hge
        cases order y x <;> decide
      rw [queue_cons_of_eq hyx, List.map_cons] at hfirst
      obtain ⟨hshows, -⟩ := List.cons.inj hfirst
      -- without their first elements, both lists still have the same queues
      have hrest : xs.map shows = ys.map shows := by
        refine ih (fun a ha => hxs a (List.mem_cons_of_mem _ ha))
          (fun a ha => hys a (List.mem_cons_of_mem _ ha)) sorted.of_cons sorted'.of_cons fun z hz => ?_
        have hz' : among z := hz.elim (fun hz => hxs z (List.mem_cons_of_mem _ hz))
          fun hz => hys z (List.mem_cons_of_mem _ hz)
        have hboth := hqueues z (hz.imp (List.mem_cons_of_mem _) (List.mem_cons_of_mem _))
        -- the first elements belong to the same queue, so both go from it or neither was in it
        by_cases hxz : order x z = .eq
        · have hyz := (h.eq_iff_of_eq hy hx hz' hyx).2 hxz
          rw [queue_cons_of_eq hxz, queue_cons_of_eq hyz] at hboth
          exact (List.cons.inj hboth).2
        · have hyz : order y z ≠ .eq := fun hyz => hxz ((h.eq_iff_of_eq hy hx hz' hyx).1 hyz)
          rw [queue_cons_of_ne hxz, queue_cons_of_ne hyz] at hboth
          exact hboth
      rw [List.map_cons, List.map_cons, hshows, hrest]

end TotalPreorder

/-! ## The position of an entry -/

/-- The entries with a key, the oldest first. -/
def Ledger.queue (C : Catalogue) (g : Ledger) (key : Datum) : List (Entry Datum) :=
  (g.items.filter fun i => g.keyKind.order C i.entry.key key = .eq).map Item.entry

namespace Table

variable {C : Catalogue} {P : Base → Prop} {t u : Table Datum}

/-- Entries compared by where they stand in a table: by bucket, and then by key. -/
def position (C : Catalogue) (t : Table Datum) (e f : Entry Datum) : Ordering :=
  (compare (t.bucketOf C e.key) (t.bucketOf C f.key)).then (t.keyKind.order C e.key f.key)

/-- Positions depend on the base of the keys and on how many buckets there are. -/
theorem position_congr (hbase : t.keyKind.base = u.keyKind.base) (hcapacity : t.capacity = u.capacity) :
    t.position C = u.position C := by
  funext e f
  rw [position, position, bucketOf_congr hbase hcapacity, bucketOf_congr hbase hcapacity,
    Kind.order_congr hbase]

/-- Positions are totally preordered, as keys are. -/
theorem total_position (hP : C.Orders P) :
    TotalPreorder (fun e : Entry Datum => t.keyKind.Within P e.key) (t.position C) := by
  refine .of_composes (fun e f he hf => ?_) fun e f g he hf hg => ?_
  · rw [position, position, Ordering.swap_then, ← Nat.compare_swap, ← Kind.order_swap hP _ _ _ he hf]
  · exact (Composes.of_transCmp compare _ _ _).andThen fun _ _ =>
      Kind.order_composes hP _ _ _ _ he hf hg

namespace Kept

variable (hk : t.Kept C P)
include hk

/-- The entries stand in the order of their positions. -/
theorem sorted : t.entries.Pairwise fun e f => t.position C e f ≠ .gt := by
  refine List.pairwise_map.2 ((hk.shaped.sorted.and hk.filed.increasing).imp_of_mem ?_)
  rintro r s hr hs ⟨hle, horder⟩
  rw [position, ← hk.filed.placed r hr, ← hk.filed.placed s hs]
  rcases Nat.lt_or_eq_of_le hle with hlt | heq
  · rw [Nat.compare_eq_lt.2 hlt]
    exact nofun
  · rw [Nat.compare_eq_eq.2 heq]
    exact horder heq

/-- Rows with keys that equal one key have equal keys. -/
theorem order_eq (hP : C.Orders P) {r s : Row Datum} (hr : r ∈ t.rows) (hs : s ∈ t.rows) {key : Datum}
    (hkey : t.keyKind.Within P key) (heq : t.keyKind.order C r.key key = .eq)
    (heq' : t.keyKind.order C s.key key = .eq) : t.keyKind.order C r.key s.key = .eq := by
  have hcomposes := Kind.order_composes hP _ _ _ _ (hk.within r hr) (hk.within s hs) hkey
  exact (hcomposes.2.1 heq').symm.trans heq

/-- An entry has the position of a row if its key is equal to that of the row, as these share a bucket. -/
theorem position_eq_iff (hC : C.Lawful P) {r : Row Datum} (hr : r ∈ t.rows) {e : Entry Datum}
    (he : t.keyKind.Within P e.key) (haccepts : t.keyKind.accepts C e.key = true) :
    t.position C r.toEntry e = .eq ↔ t.keyKind.order C r.key e.key = .eq := by
  rw [position, Ordering.then_eq_eq]
  refine ⟨fun h => h.2, fun h => ⟨Nat.compare_eq_eq.2 ?_, h⟩⟩
  rw [← hk.filed.placed r hr]
  exact hk.filed.bucket_eq_of_order hC hk.within hr he haccepts h

end Kept

/-- The entries with keys that equal a key are those that the ledger has for it, the oldest first. -/
theorem Tallies.filter_entries {g : Ledger} (h : t.Tallies g) (hC : C.Lawful P) (hk : t.Kept C P)
    {key : Datum} (hkey : t.keyKind.Within P key) :
    t.entries.filter (fun e => t.keyKind.order C e.key key = .eq) = g.queue C key := by
  have hitems : (t.rows.filter fun r => t.keyKind.order C r.key key = .eq).map Row.item =
      g.items.filter fun i => g.keyKind.order C i.entry.key key = .eq := by
    -- both are in the order of their handles, and of a handle there is but one item
    refine List.Perm.eq_of_pairwise (fun i j _ _ hij hji => absurd hij (Nat.lt_asymm hji)) ?_
      (h.aged.filter _) ?_
    · refine List.pairwise_map.2 ((hk.filed.aged.filter _).imp_of_mem fun {r s} hr hs haged => ?_)
      obtain ⟨hr, heq⟩ := List.mem_filter.1 hr
      obtain ⟨hs, heq'⟩ := List.mem_filter.1 hs
      have horder := hk.order_eq hC.toOrders hr hs hkey (of_decide_eq_true heq) (of_decide_eq_true heq')
      refine haged ?_ horder
      rw [hk.filed.placed s hs]
      exact hk.filed.bucket_eq_of_order hC hk.within hr (hk.within s hs) (hk.filed.accepted s hs) horder
    · have hperm := h.items.symm.filter fun i => g.keyKind.order C i.entry.key key = .eq
      rw [List.filter_map] at hperm
      rw [h.keyKind] at hperm ⊢
      exact hperm
  rw [Ledger.queue, ← hitems, List.map_map, entries, List.filter_map]
  rfl

/-- The entries in the position of an entry are those that the ledger has for its key, the oldest first. -/
theorem Tallies.queue_eq {g : Ledger} (h : t.Tallies g) (hC : C.Lawful P) (hk : t.Kept C P)
    {e : Entry Datum} (he : t.keyKind.Within P e.key) (haccepts : t.keyKind.accepts C e.key = true) :
    TotalPreorder.queue (t.position C) e t.entries = g.queue C e.key := by
  rw [← h.filter_entries hC hk he, TotalPreorder.queue]
  refine List.filter_congr fun f hf => ?_
  obtain ⟨r, hr, rfl⟩ := List.mem_map.1 hf
  exact decide_eq_decide.2 (hk.position_eq_iff hC hr he haccepts)

/-- Tables show the same entries in the same order if their ledgers do so for every key. -/
theorem Tallies.map_entries_eq {g g' : Ledger} (h : t.Tallies g) (h' : u.Tallies g') (hC : C.Lawful P)
    (ht : t.Kept C P) (hu : u.Kept C P) (hbase : t.keyKind.base = u.keyKind.base)
    (hcapacity : t.capacity = u.capacity) {β : Type} {shows : Entry Datum → β}
    (hqueues : ∀ i, i ∈ g.items ∨ i ∈ g'.items →
      (g.queue C i.entry.key).map shows = (g'.queue C i.entry.key).map shows) :
    t.entries.map shows = u.entries.map shows := by
  have hposition : t.position C = u.position C := position_congr hbase hcapacity
  -- every entry of either table has a key that both may hold
  have fit : ∀ e, e ∈ t.entries ∨ e ∈ u.entries → (t.keyKind.Within P e.key ∧
      t.keyKind.accepts C e.key = true) ∧ ∃ i, (i ∈ g.items ∨ i ∈ g'.items) ∧ i.entry = e := by
    rintro e (he | he)
    · obtain ⟨r, hr, rfl⟩ := List.mem_map.1 he
      exact ⟨⟨ht.within r hr, ht.filed.accepted r hr⟩, r.item, .inl (h.mem_items.2 ⟨r, hr, rfl⟩), rfl⟩
    · obtain ⟨r, hr, rfl⟩ := List.mem_map.1 he
      exact ⟨⟨(hu.within r hr).congr hbase.symm,
        (Kind.accepts_congr hbase r.key).trans (hu.filed.accepted r hr)⟩, r.item,
        .inr (h'.mem_items.2 ⟨r, hr, rfl⟩), rfl⟩
  refine (total_position (t := t) hC.toOrders).map_eq_of_queues (fun e he => (fit e (.inl he)).1.1)
    (fun e he => (fit e (.inr he)).1.1) ht.sorted (hposition ▸ hu.sorted) fun e he => ?_
  obtain ⟨⟨hwithin, haccepts⟩, i, hi, rfl⟩ := fit e he
  rw [h.queue_eq hC ht hwithin haccepts, hposition, h'.queue_eq hC hu (hwithin.congr hbase)
    ((Kind.accepts_congr hbase _).symm.trans haccepts)]
  exact hqueues i hi

end Table

/-! ## Values compared with themselves -/

/-- The base is built in, or an extension for which every value equals itself. -/
def Catalogue.Reflexive (C : Catalogue) (b : Base) : Prop :=
  ∀ id, b = .extension id → ∀ d, (C.extension id).order d d = .eq

/-- What is seen equals itself if it does so where it is there. -/
theorem orderViews_self {α : Type} {order : α → α → Ordering} (h : ∀ a, order a a = .eq) (x : Option α) :
    orderViews order x x = .eq := by
  cases x with
  | none => rfl
  | some a => exact h a

namespace Kind

variable {C : Catalogue}

/-- A value without parts equals itself. -/
theorem orderLeaf_self {k : Kind} {d : Datum} (hk : C.Reflexive k.base) (hd : k.parts? d = none) :
    k.orderLeaf C d d = .eq := by
  have bytes : ∀ bs, Bytes.order bs bs = .eq := fun _ => Bytes.order_eq_iff.2 rfl
  unfold orderLeaf
  split
  · exact orderViews_self (fun s => @Std.ReflCmp.compare_self _ compare _ s.rank) _
  · exact orderViews_self (fun bs => bytes (foldCase _ bs)) _
  · exact orderViews_self bytes _
  · next h => simp [list?_eq_none_of_parts? hd h]
  · next h => simp [table?_eq_none_of_parts? hd h]
  · next id h => exact hk id h d

/-- A value equals itself if it does so wherever an extension is asked. -/
theorem order_reflexive (k : Kind) (d : Datum) (h : k.Within C.Reflexive d) : k.order C d d = .eq := by
  induction k, d using walk_induction with
  | leaf k d hd => exact (order_of_leaf hd).trans (orderLeaf_self h.1 hd)
  | parts k d p hp ih =>
    have entries : ∀ es : List (Entry Datum), (∀ e ∈ es, e.kind.order C e.value e.value = .eq) →
        orderEntries C (readyEntries C p.keyKind es) es = .eq := by
      intro es hes
      induction es with
      | nil => rfl
      | cons e es ihes =>
        show (if e.kind.base = e.kind.base then
          (e.kind.order C e.value e.value).then (orderEntries C (readyEntries C p.keyKind es) es)
          else C.orderKinds e.kind e.kind) = .eq
        rw [if_pos rfl, hes e List.mem_cons_self,
          ihes fun e he => hes e (List.mem_cons_of_mem _ he)]
        rfl
    rw [order_parts hp hp, Parts.order, orderBlocks, if_pos rfl,
      entries p.entries fun e he => (ih e he).2 (h.value hp he), readyEntries, List.length_map,
      Nat.compare_eq_eq.2 rfl]
    rfl

end Kind

/-! ## Tables with the same entries -/

/-- Two lists that show the same in one way do so in every way that tells no more. -/
theorem map_eq_of_map_eq {α β γ : Type} {f : α → β} {g : α → γ} {xs ys : List α}
    (h : xs.map f = ys.map f) (hfg : ∀ x ∈ xs, ∀ y ∈ ys, f x = f y → g x = g y) :
    xs.map g = ys.map g := by
  induction xs generalizing ys with
  | nil =>
    cases ys with
    | nil => rfl
    | cons y ys => cases h
  | cons x xs ih =>
    cases ys with
    | nil => cases h
    | cons y ys =>
      obtain ⟨hxy, hrest⟩ := List.cons.inj h
      have hrest := ih hrest fun x hx y hy =>
        hfg x (List.mem_cons_of_mem _ hx) y (List.mem_cons_of_mem _ hy)
      rw [List.map_cons, List.map_cons, hrest, hfg x List.mem_cons_self y List.mem_cons_self hxy]

namespace Table

variable {C : Catalogue} {P : Base → Prop} {t u : Table Datum}

/-- Tables with the same entries up to names, as many buckets and keys of one base are the same up to
names, since the buckets of the rows follow from their keys. -/
theorem nameless_eq (hC : C.Lawful P) (ht : t.Kept C P) (hu : u.Kept C P)
    (hbase : t.keyKind.base = u.keyKind.base) (hcapacity : t.capacity = u.capacity)
    (hentries : t.entries.map (Entry.nameless t.keyKind) = u.entries.map (Entry.nameless t.keyKind)) :
    Kind.table.nameless (.table t) = Kind.table.nameless (.table (u.setKeyKind t.keyKind)) := by
  -- a row with the same key up to names is in the same bucket
  have hbucket : ∀ r ∈ t.rows, ∀ s ∈ u.rows, t.keyKind.nameless r.key = t.keyKind.nameless s.key →
      r.bucket = s.bucket := by
    intro r hr s hs hkey
    have hr' := ht.within r hr
    have hs' : t.keyKind.Within P s.key := (hu.within s hs).congr hbase.symm
    have haccepted : t.keyKind.accepts C s.key = true :=
      (Kind.accepts_congr hbase s.key).trans (hu.filed.accepted s hs)
    have horder : t.keyKind.order C r.key s.key = .eq := by
      have same := rebuilds_namelessness.order_read (C := C) t.keyKind
      calc t.keyKind.order C r.key s.key
          = t.keyKind.order C (t.keyKind.nameless r.key) (t.keyKind.nameless s.key) := (same _ _).symm
        _ = t.keyKind.order C (t.keyKind.nameless s.key) (t.keyKind.nameless s.key) := by rw [hkey]
        _ = t.keyKind.order C s.key s.key := same _ _
        _ = .eq := Kind.order_self hC.toOrders hs'
    calc r.bucket
        = t.bucketOf C s.key := ht.filed.bucket_eq_of_order hC ht.within hr hs' haccepted horder
      _ = u.bucketOf C s.key := bucketOf_congr hbase hcapacity s.key
      _ = s.bucket := (hu.filed.placed s hs).symm
  rw [entries, entries, List.map_map, List.map_map] at hentries
  -- entries and buckets together are all that is left of a row without its name
  have hrows : (t.map (Kind.read namelessness)).nameless.rows =
      ((u.setKeyKind t.keyKind).map (Kind.read namelessness)).nameless.rows := by
    simp only [Table.map, Table.nameless, setKeyKind, List.map_map]
    refine map_eq_of_map_eq hentries fun r hr s hs hrs => ?_
    have hkey : t.keyKind.nameless r.key = t.keyKind.nameless s.key := congrArg Entry.key hrs
    have hentry : (r.toEntry.map (t.keyKind.read namelessness) (Kind.read namelessness)) =
      s.toEntry.map (t.keyKind.read namelessness) (Kind.read namelessness) := hrs
    simp only [Function.comp_apply, Row.map, hentry, hbucket r hr s hs hkey]
  rw [Kind.nameless, Kind.nameless, Kind.read_table namelessness rfl rfl,
    Kind.read_table namelessness rfl rfl]
  refine congrArg Datum.table ?_
  simp only [Table.nameless, Table.map, setKeyKind, Table.mk.injEq, true_and] at hrows ⊢
  exact ⟨hcapacity, hrows⟩

/-! ## Keys under the twin -/

/-- Where tables are compared, the kind of the keys may give way to its twin. -/
theorem order_setKeyKind {k : Kind} (hk : k.base = u.keyKind.base) :
    t.order C (u.setKeyKind k) = t.order C u ∧ (u.setKeyKind k).order C t = u.order C t := by
  have parts : ∀ v w : Table Datum, v.order C w = v.parts.order C w.parts := fun v w =>
    (Kind.order_table v w).symm.trans (Kind.order_parts rfl rfl)
  -- only the keys are read under the kind, and their comparison is the same under the twin
  have hready : readyEntries C k u.entries = readyEntries C u.keyKind u.entries := by
    have hkeys : k.order C = u.keyKind.order C := by
      funext a b
      exact Kind.order_congr hk a b
    rw [readyEntries, readyEntries, hkeys]
  obtain ⟨b, borrowing⟩ := k
  obtain rfl : b = u.keyKind.base := hk
  rw [parts, parts, parts, parts, Parts.order, Parts.order]
  exact ⟨rfl, congrArg (fun es => orderBlocks C u.keyKind es t.keyKind t.entries) hready⟩

/-- A table is written alike under the twin, as kinds are written by their index. -/
theorem encode_setKeyKind {k : Kind} (hk : k.base = u.keyKind.base) :
    (u.setKeyKind k).encode C = u.encode C := by
  have hkeys : k.encode C = u.keyKind.encode C := funext (Kind.encode_congr hk)
  simp only [encode, encoding, Table.map, setKeyKind, entries, hkeys, Catalogue.encodeBlock,
    C.wireIndex_congr hk]

/-- It is shown alike, too. -/
theorem format_setKeyKind {k : Kind} (hk : k.base = u.keyKind.base) :
    (u.setKeyKind k).format C = u.format C := by
  have hkeys : k.format C = u.keyKind.format C := funext (Kind.format_congr hk)
  simp only [format, Table.map, setKeyKind, hkeys]
  rfl

/-! ## Two histories -/

/-- Two histories on empty tables with as many buckets, for keys of one base, that mention lawful bases only.
If for every key the ledgers end with the same entries in the same order of age, up to names, the tables have
the same entries in the same global order, again up to names. So they are written and shown alike, and compare
as equal where values equal themselves. -/
theorem order_independent_of_history (hC : C.Lawful P) {keyKind keyKind' : Kind}
    (hk : P keyKind.base) (hbase : keyKind.base = keyKind'.base) {wanted wanted' : Nat}
    (hcapacity : max wanted minCapacity = max wanted' minCapacity) {ops ops' : List Operation}
    (hops : ∀ op ∈ ops, op.KeysWithin P keyKind) (hops' : ∀ op ∈ ops', op.KeysWithin P keyKind')
    (hqueues : ∀ i,
      i ∈ ((Ledger.empty keyKind).run C ops).items ∨ i ∈ ((Ledger.empty keyKind').run C ops').items →
        (((Ledger.empty keyKind).run C ops).queue C i.entry.key).map (Entry.nameless keyKind) =
          (((Ledger.empty keyKind').run C ops').queue C i.entry.key).map (Entry.nameless keyKind)) :
    let g := (Ledger.empty keyKind).run C ops
    let g' := (Ledger.empty keyKind').run C ops'
    let t := (Table.empty keyKind wanted).run C ops
    let t' := (Table.empty keyKind' wanted').run C ops'
    t.entries.map (Entry.nameless keyKind) = t'.entries.map (Entry.nameless keyKind) ∧
      ((∀ i, i ∈ g.items ∨ i ∈ g'.items → g.queue C i.entry.key = g'.queue C i.entry.key) →
        t.entries = t'.entries) ∧
      ((∀ e ∈ t.entries, e.kind.Within C.Reflexive e.value) →
        t.order C t' = .eq ∧ t'.order C t = .eq) ∧
      t.encode C = t'.encode C ∧ t.format C = t'.format C := by
  intro g g' t t'
  obtain ⟨⟨htallies, hkept, htbase⟩, -⟩ := run_tallies hC hk wanted hops
  obtain ⟨⟨htallies', hkept', htbase'⟩, -⟩ := run_tallies hC (hbase ▸ hk) wanted' hops'
  have hsame : t.keyKind.base = t'.keyKind.base := by
    rw [htbase, htbase', hbase]
  have hbuckets : t.capacity = t'.capacity := by
    rw [run_capacity, run_capacity]
    exact hcapacity
  have hentries := htallies.map_entries_eq htallies' hC hkept hkept' hsame hbuckets hqueues
  have hnameless : Entry.nameless t.keyKind = Entry.nameless keyKind := by
    funext e
    have hkey := rebuilds_namelessness.read_congr htbase e.key
    exact congrArg (Entry.mk · (e.kind.nameless e.value) e.kind) hkey
  -- the second table with its keys under the kind of the first is the first, up to names
  have htables := nameless_eq hC hkept hkept' hsame hbuckets (hnameless ▸ hentries)
  -- the other conjuncts only see a table up to names
  refine ⟨hentries, fun hliteral => ?_, fun hreflexive => ?_, ?_, ?_⟩
  · have hid : t.entries.map id = t'.entries.map id :=
      htallies.map_entries_eq htallies' hC hkept hkept' hsame hbuckets fun i hi => by rw [hliteral i hi]
    rwa [List.map_id, List.map_id] at hid
  · have hself : t.order C t = .eq := by
      have hkeys : C.Reflexive t.keyKind.base := by
        intro id hid d
        have hordered := hC.extension id (hid ▸ hkept.base)
        exact Ordering.eq_eq_of_eq_swap (hordered.swap d d)
      have hwithin : Kind.table.Within C.Reflexive (.table t) :=
        .of_parts (Kind.parts?_of_table rfl rfl) nofun hkeys hreflexive
      exact (Kind.order_table t t).symm.trans (Kind.order_reflexive _ _ hwithin)
    obtain ⟨hright, hleft⟩ := order_setKeyKind (C := C) (t := t) hsame
    rw [← hright, ← hleft, ← Kind.order_table, ← Kind.order_table,
      rebuilds_namelessness.order_eq rfl htables.symm, rebuilds_namelessness.order_eq htables.symm rfl,
      Kind.order_table]
    exact ⟨hself, hself⟩
  · rw [← encode_setKeyKind hsame, ← Kind.encode_table, ← Kind.encode_table]
    exact rebuilds_namelessness.encode_eq htables
  · rw [← format_setKeyKind hsame, ← Kind.format_table, ← Kind.format_table]
    exact Kind.format_eq_of_nameless htables

/-- Keys that differ in the case of a letter are equal, so of these it counts which is older. When the others
came, and what was taken out meanwhile, does not. -/
theorem order_independent_of_history_cases :
    let C := Catalogue.specimens
    let entry (key : String) (value : Int) : Entry Datum :=
      ⟨.ofText key, .scalar (.int .i32 (.ofInt 32 value)), .i32⟩
    let ops : List Operation := [.add (entry "B" 5), .add (entry "A" 1), .add (entry "a" 2)]
    let ops' : List Operation :=
      [.add (entry "A" 1), .add (entry "c" 0), .add (entry "a" 2), .remove (.ofText "C"),
        .add (entry "B" 5)]
    let g := (Ledger.empty .textCaseBlind).run C ops
    let g' := (Ledger.empty Kind.textCaseBlind.twin).run C ops'
    let t := (Table.empty .textCaseBlind 0).run C ops
    let t' := (Table.empty Kind.textCaseBlind.twin 64).run C ops'
    C.Lawful C.Registered ∧ C.Registered Kind.textCaseBlind.base ∧ max 0 minCapacity = max 64 minCapacity ∧
      (∀ op ∈ ops, op.KeysWithin C.Registered .textCaseBlind) ∧
      (∀ op ∈ ops', op.KeysWithin C.Registered Kind.textCaseBlind.twin) ∧
      (∀ i, i ∈ g.items ∨ i ∈ g'.items → g.queue C i.entry.key = g'.queue C i.entry.key) ∧
      t.entries = t'.entries ∧ t.order C t' = .eq ∧ t.encode C = t'.encode C ∧ t.format C = t'.format C := by
  intro C entry ops ops' g g' t t'
  have hk : C.Registered Kind.textCaseBlind.base := by decide
  have hcapacity : max 0 minCapacity = max 64 minCapacity := rfl
  have registered : ∀ (k : Kind) (op : Operation), k.base = .text true → op.keyKind? = none →
      op.KeysWithin C.Registered k := by
    intro k op hbase hop
    refine ⟨fun k' hk' => ?_, fun key _ => ?_⟩
    · cases hop.symm.trans hk'
    · have hleaf : k.parts? key.peel = none :=
        Kind.parts?_eq_none_of_base (by rw [hbase]; decide) (by rw [hbase]; decide) _
      exact (Kind.within_leaf hleaf).2 (hbase ▸ hk)
  have hops : ∀ op ∈ ops, op.KeysWithin C.Registered .textCaseBlind := by
    intro op hop
    refine registered _ op rfl ?_
    simp only [ops, List.mem_cons, List.not_mem_nil, or_false] at hop
    rcases hop with rfl | rfl | rfl <;> rfl
  have hops' : ∀ op ∈ ops', op.KeysWithin C.Registered Kind.textCaseBlind.twin := by
    intro op hop
    refine registered _ op rfl ?_
    simp only [ops', List.mem_cons, List.not_mem_nil, or_false] at hop
    rcases hop with rfl | rfl | rfl | rfl | rfl <;> rfl
  -- the two ledgers in the end; only the older of "A" and "a" counts
  have hitems : g.items = [⟨⟨0⟩, entry "B" 5⟩, ⟨⟨1⟩, entry "A" 1⟩, ⟨⟨2⟩, entry "a" 2⟩] := rfl
  have hitems' : g'.items = [⟨⟨0⟩, entry "A" 1⟩, ⟨⟨2⟩, entry "a" 2⟩, ⟨⟨3⟩, entry "B" 5⟩] := rfl
  have hqueues : ∀ i, i ∈ g.items ∨ i ∈ g'.items →
      g.queue C i.entry.key = g'.queue C i.entry.key := by
    intro i hi
    simp only [hitems, hitems', List.mem_cons, List.not_mem_nil, or_false] at hi
    rcases hi with (rfl | rfl | rfl) | rfl | rfl | rfl <;> rfl
  obtain ⟨-, hentries, horder, hencode, hformat⟩ :=
    @order_independent_of_history C C.Registered Catalogue.specimens_lawful .textCaseBlind
      Kind.textCaseBlind.twin hk rfl 0 64 hcapacity ops ops' hops hops' fun i hi => congrArg _ (hqueues i hi)
  obtain ⟨⟨htallies, -, -⟩, -⟩ := run_tallies Catalogue.specimens_lawful hk 0 hops
  have hvalues : ∀ e ∈ t.entries, e.kind.Within C.Reflexive e.value := by
    intro e he
    obtain ⟨r, hr, rfl⟩ := List.mem_map.1 he
    have hitem : r.item ∈ g.items := htallies.mem_items.2 ⟨r, hr, rfl⟩
    simp only [hitems, List.mem_cons, List.not_mem_nil, or_false] at hitem
    rcases hitem with hitem | hitem | hitem
    all_goals
      have hentry := congrArg Item.entry hitem
      rw [show r.toEntry = _ from hentry]
      exact (Kind.within_leaf rfl).2 nofun
  exact ⟨Catalogue.specimens_lawful, hk, hcapacity, hops, hops', hqueues, hentries hqueues,
    (horder hvalues).1, hencode, hformat⟩

end Table

end OrderedTable
