import OrderedTable.Catalogue.Specimens
import OrderedTable.Proofs.Linked.Simulation
import OrderedTable.Proofs.Table.Filing

/-!
# Integrity of linked tables

Whatever its history, a linked table holds together: its links and its buckets record one global order
of its entries (`Linked.Intact`). If besides the keys were read under one base all the time, and can be
ordered, every entry is in the bucket of its key and every bucket in order (`Linked.InOrder`).

`Linked.history_intact` says so of every history that starts from any of the sources of a table.
-/

namespace OrderedTable

namespace Linked

open Table (handles firstHandle lastHandle)

variable {C : Catalogue} {L : Linked} {t : Table Datum}

/-- The handles bucket by bucket. -/
def order (L : Linked) : List Handle := L.buckets.flatMap (·.getD [])

/-- The links and the buckets record one order of the entries. -/
structure Intact (L : Linked) : Prop where
  /-- Following the links forward meets the handles bucket by bucket, and ends. -/
  forward : ∀ limit, L.size ≤ limit → L.forward limit = L.order
  /-- Following the links back meets them the other way round. -/
  backward : ∀ limit, L.size ≤ limit → L.backward limit = L.order.reverse
  ends : L.head = L.order.head? ∧ L.tail = L.order.getLast?
  /-- No handle is met twice. -/
  nodup : L.order.Nodup
  /-- The handles met are those that have an entry. -/
  live : ∀ h, h ∈ L.order ↔ (L.node? h).isSome
  size : L.order.length = L.size
  /-- A bucket without handles is not kept. -/
  filled : some [] ∉ L.buckets

/-- Every entry is in the bucket of its key, and every bucket in the order of its keys. -/
structure InOrder (C : Catalogue) (L : Linked) : Prop where
  placed : ∀ index hs, L.bucket? index = some hs → ∀ h ∈ hs, ∃ n, L.node? h = some n ∧
    L.bucketOf C n.key = index ∧ index < L.capacity
  increasing : ∀ index hs, L.bucket? index = some hs → hs.Pairwise fun g h =>
    ∀ m n, L.node? g = some m → L.node? h = some n → L.keyKind.order C m.key n.key ≠ .gt

namespace Represents

variable (hr : L.Represents t) (hs : t.Shaped)
include hr hs

/-- The buckets, one after the other, hold the handles of the rows. -/
theorem order_eq : L.order = handles t.rows := by
  conv => rhs; rw [hs.rows_eq_flatMap, handles, List.map_flatMap]
  rw [order, hr.buckets, List.flatMap_map]
  congr 1
  funext i
  exact stored_getD _

/-- The links go along the rows, and so do the walks on the rows themselves. -/
theorem walks_eq : t.forward = L.order ∧ t.backward = L.order.reverse := by
  rw [hr.order_eq hs]
  constructor
  · exact Table.follow_handleAfter hs.distinct (Nat.le_refl _)
  · have hlength : t.rows.reverse.length ≤ t.size := Nat.le_of_eq List.length_reverse
    have hfollow := Table.follow_handleAfter (Table.Distinct.reverse hs.distinct) hlength
    rw [Table.firstHandle_reverse, List.map_reverse] at hfollow
    exact hfollow

omit hs in
/-- There is a node for each row. -/
theorem size_eq : L.size = t.rows.length := by
  rw [size, ← List.length_map, hr.known.length_eq, handles, List.length_map]

/-- What a table in its shape stands for holds together. -/
theorem intact : L.Intact := by
  have horder := hr.order_eq hs
  have hnext : L.next? = (Table.handleAfter · t.rows) := funext hr.next?_eq
  have hprevious : L.previous? = (Table.handleAfter · t.rows.reverse) := funext hr.previous?_eq
  -- in the order of the fields: the two walks, the two ends, then what the list of handles says
  refine ⟨?_, ?_, ⟨?_, ?_⟩, ?_, ?_, ?_, ?_⟩
  · intro limit hlimit
    rw [hr.size_eq] at hlimit
    rw [Linked.forward, horder, hnext, hr.head, Table.head?_eq]
    exact Table.follow_handleAfter hs.distinct hlimit
  · intro limit hlimit
    rw [hr.size_eq, ← List.length_reverse] at hlimit
    rw [Linked.backward, horder, hprevious, hr.tail, Table.tail?_eq, ← Table.firstHandle_reverse,
      Table.follow_handleAfter (Table.Distinct.reverse hs.distinct) hlimit, handles, List.map_reverse]
  · rw [hr.head, horder, handles, List.head?_map]
    rfl
  · rw [hr.tail, horder, handles, List.getLast?_map]
    rfl
  · rw [horder]
    exact List.pairwise_map.2 hs.distinct
  · intro h
    rw [horder, hr.node?, Table.node?, Option.isSome_map]
    constructor
    · intro hmem
      obtain ⟨r, hr', rfl⟩ := List.mem_map.1 hmem
      rw [hs.row?_of_mem hr']
      rfl
    · intro hsome
      obtain ⟨r, hrow⟩ := Option.isSome_iff_exists.1 hsome
      have hrh : r.handle = h := by simpa using List.find?_some hrow
      exact List.mem_map.2 ⟨r, List.mem_of_find?_eq_some hrow, hrh⟩
  · rw [horder, hr.size_eq, handles, List.length_map]
  · rw [hr.buckets]
    intro hmem
    obtain ⟨i, -, hi⟩ := List.mem_map.1 hmem
    obtain ⟨hnil, hne⟩ := stored_eq_some hi
    exact hne hnil

/-- A table whose rows are in the buckets of their keys stands for a linked table in order. -/
theorem inOrder (hf : t.Filed C) : L.InOrder C := by
  -- a bucket holds the handles of its rows
  have rows : ∀ index hs', L.bucket? index = some hs' →
      index < t.capacity ∧ hs' = handles (t.bucketRows index) := by
    intro index hs' hbucket
    by_cases hlt : index < t.capacity
    · rw [hr.bucket?_eq hlt] at hbucket
      exact ⟨hlt, (stored_eq_some hbucket).1.symm⟩
    · rw [bucket?, List.getElem?_eq_none (by rw [hr.buckets]; simpa using hlt)] at hbucket
      cases hbucket
  -- and the node of a handle has the key of its row
  have key : ∀ {r : Row Datum} {n : Node}, r ∈ t.rows → L.node? r.handle = some n → n.key = r.key := by
    intro r n hmem hn
    rw [hr.node?, Table.node?, hs.row?_of_mem hmem] at hn
    rw [← Option.some.inj hn]
  refine ⟨?_, ?_⟩
  · intro index hs' hbucket h hh
    obtain ⟨hlt, rfl⟩ := rows index hs' hbucket
    obtain ⟨r, hr', rfl⟩ := List.mem_map.1 hh
    obtain ⟨hmem, hb⟩ := Table.mem_bucketRows.1 hr'
    refine ⟨⟨r.toEntry, t.previous? r.handle, t.next? r.handle⟩, ?_, ?_, ?_⟩
    · rw [hr.node?, Table.node?, hs.row?_of_mem hmem]
      rfl
    · rw [hr.bucketOf_eq, ← hb]
      exact (hf.placed r hmem).symm
    · rw [hr.capacity_eq]
      exact hlt
  · intro index hs' hbucket
    obtain ⟨-, rfl⟩ := rows index hs' hbucket
    refine List.pairwise_map.2 ((hf.bucketRows_increasing index).imp_of_mem ?_)
    intro r s hr' hs' hrs m n hm hn
    rw [key (Table.mem_bucketRows.1 hr').1 hm, key (Table.mem_bucketRows.1 hs').1 hn, hr.keyKind]
    exact hrs

end Represents

/-- A table from any source has a history on an empty table; on a linked table this history, followed
by any other, ends in a state that holds together and stands for the table, in the order in which the
table is walked. If the later operations keep the base of the keys and the keys can always be ordered,
that state is in order too. -/
theorem history_intact (C : Catalogue) {t : Table Datum} (hsource : t.Source C)
    (ops : List Operation) :
    ∃ (keyKind : Kind) (wanted : Nat) (added : List (Entry Datum)),
      t = (Table.empty keyKind wanted).run C (added.map .add) ∧
      let L := (Linked.empty keyKind wanted).run C (added.map .add ++ ops)
      let u := t.run C ops
      L.Represents u ∧ L.Intact ∧ u.forward = L.order ∧ u.backward = L.order.reverse ∧
        ((∀ op ∈ ops, op.KeepsBase t.keyKind.base) →
          (∀ first, first <+: ops → C.Orders (t.run C first).Mentions) → L.InOrder C) := by
  -- the history that made the table and the one asked for are one history on an empty table
  obtain ⟨keyKind, wanted, added, heq⟩ := hsource.exists_history
  have hempty := Represents.empty keyKind wanted
  have hrepr := (hempty.run (Table.Shaped.empty keyKind wanted) (C := C) (added.map .add ++ ops)).1
  rw [Table.run_append, ← heq] at hrepr
  have hshaped : (t.run C ops).Shaped := hsource.shaped.run ops
  obtain ⟨hforward, hbackward⟩ := hrepr.walks_eq hshaped
  refine ⟨keyKind, wanted, added, heq, hrepr, hrepr.intact hshaped, hforward, hbackward, ?_⟩
  intro hbase horders
  have hstart : t.Filed C := hsource.filed (horders [] List.nil_prefix)
  exact hrepr.inOrder hshaped (hstart.run hsource.shaped hbase horders)

/-- Two equal keys under a kind and its twin, and one of them removed again. -/
theorem history_intact_twins :
    let t : Table Datum := .empty .i32 0
    let seven : Datum := .scalar (.int .i32 7)
    let ops : List Operation :=
      [.add ⟨seven, seven, .i32⟩, .setKeyKind Kind.i32.twin, .add ⟨seven, seven, .i32⟩, .remove seven]
    t.Source .specimens ∧
    ∃ (keyKind : Kind) (wanted : Nat) (added : List (Entry Datum)),
      let L := (Linked.empty keyKind wanted).run .specimens (added.map .add ++ ops)
      L.Represents (t.run .specimens ops) ∧ L.Intact ∧ L.InOrder .specimens := by
  intro t seven ops
  have hsource : t.Source .specimens := .empty .i32 0
  -- the kind is changed to its twin, which has the same base
  have hbase : ∀ op ∈ ops, op.KeepsBase t.keyKind.base := by
    intro op hop k hk
    simp only [ops, List.mem_cons, List.not_mem_nil, or_false] at hop
    rcases hop with rfl | rfl | rfl | rfl <;> cases hk
    rfl
  obtain ⟨keyKind, wanted, added, -, hrepr, hintact, -, -, hinOrder⟩ :=
    history_intact .specimens hsource ops
  refine ⟨hsource, keyKind, wanted, added, hrepr, hintact, hinOrder hbase fun first hfirst => ?_⟩
  have hlist : t.keyKind.base ≠ .list := by decide
  have htable : t.keyKind.base ≠ .table := by decide
  exact Table.orders_run hlist htable (fun id hid => by cases hid)
    fun op hop => hbase op (hfirst.subset hop)

end Linked

end OrderedTable
