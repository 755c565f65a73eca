import OrderedTable.Proofs.Table.Operation
import OrderedTable.Table.Walk

/-!
# Linked tables

A table as it is laid out in memory. The entries are kept in nodes, each found by its handle and
holding the handles of its neighbours in the global order. Every bucket that has entries holds their
handles, and the first and the last handle of the global order are kept besides. So the global order
is recorded twice, by the buckets and by the links, and both are edited separately on every insertion
and removal.

The operations below edit this state step by step. A `Table` with its rows in one list is what it
stands for; that the two never part is proved in `OrderedTable.Proofs.Linked.Simulation`.
-/

namespace OrderedTable

/-- An entry with the handles of its neighbours in the global order. -/
structure Node extends Entry Datum where
  previous : Option Handle
  next : Option Handle

/-- A table in memory. -/
structure Linked where
  keyKind : Kind
  /-- The handles in every bucket; `none` where there are none. -/
  buckets : List (Option (List Handle))
  nodes : List (Handle × Node)
  lastAdded : Option Kind
  nextSerial : Nat
  head : Option Handle
  tail : Option Handle

namespace Linked

/-- The linked table without entries. -/
def empty (keyKind : Kind) (wanted : Nat) : Linked :=
  ⟨keyKind, List.replicate (max wanted Table.minCapacity) none, [], none, 0, none, none⟩

def capacity (L : Linked) : Nat := L.buckets.length

/-- How many entries there are. -/
def size (L : Linked) : Nat := L.nodes.length

/-- The node of a handle. -/
def node? (L : Linked) (h : Handle) : Option Node := (L.nodes.find? (·.1 = h)).map (·.2)

/-- The handles in a bucket, if there are any. -/
def bucket? (L : Linked) (index : Nat) : Option (List Handle) := L.buckets[index]?.join

/-- The link of a node to the one after it. -/
def next? (L : Linked) (h : Handle) : Option Handle := (L.node? h).bind (·.next)

/-- The link of a node to the one before it. -/
def previous? (L : Linked) (h : Handle) : Option Handle := (L.node? h).bind (·.previous)

/-- Changes the node of a handle. -/
def modifyNode (L : Linked) (h : Handle) (change : Node → Node) : Linked :=
  { L with nodes := L.nodes.map fun (h', n) => (h', if h' = h then change n else n) }

/-- The handles met from `start` on following the links forward, at most `limit` of them. -/
def forward (L : Linked) (limit : Nat) : List Handle := Table.follow L.next? limit L.head

/-- The handles met from the last one back, at most `limit` of them. -/
def backward (L : Linked) (limit : Nat) : List Handle := Table.follow L.previous? limit L.tail

/-! ## Links -/

/-- Gives the node `previous` another link forward, and the node `next` another link back. -/
def relink (L : Linked) (previous next forward back : Option Handle) : Linked :=
  let L :=
    match previous with
    | some p => L.modifyNode p fun n => { n with next := forward }
    | none => L
  match next with
  | some q => L.modifyNode q fun n => { n with previous := back }
  | none => L

/-- Makes its neighbours point to a new node, or head and tail where it has none. -/
def link (L : Linked) (h : Handle) (previous next : Option Handle) : Linked :=
  { L.relink previous next (some h) (some h) with
    head := if previous.isNone then some h else L.head
    tail := if next.isNone then some h else L.tail }

/-- Takes a node out, and makes its neighbours point to each other: what it held, and the rest. -/
def unlink (L : Linked) (h : Handle) : Option (Entry Datum × Linked) :=
  (L.node? h).map fun n =>
    let rest := { L with
      nodes := L.nodes.filter (·.1 ≠ h)
      head := if L.head = some h then n.next else L.head
      tail := if L.tail = some h then n.previous else L.tail }
    (n.toEntry, rest.relink n.previous n.next n.next n.previous)

/-! ## Buckets -/

/-- Takes the handle at a place out of a bucket, which is dropped with its last handle. -/
def takeFromBucket (L : Linked) (index place : Nat) : Option (Handle × Linked) :=
  (L.bucket? index).bind fun handles => handles[place]?.map fun h =>
    let left := handles.eraseIdx place
    (h, { L with buckets := L.buckets.set index (if left.isEmpty then none else some left) })

/-- The neighbours of the first entry of a bucket that has none: the first handle of the next bucket
that has some, and what that is linked to; failing that, the last handle of the closest bucket before. -/
def bucketNeighbours (L : Linked) (index : Nat) : Option Handle × Option Handle :=
  if L.nodes.isEmpty then (none, none)
  else
    let next := ((L.buckets.drop (index + 1)).findSome? id).bind List.head?
    let previous := next.bind L.previous?
    if previous.isNone && 0 < index then
      match (L.buckets.take index).reverse.findSome? id with
      | some handles =>
        let previous := handles.getLast?
        (previous, next.or (previous.bind L.next?))
      | none => (previous, next)
    else (previous, next)

variable (C : Catalogue)

/-- The bucket of a key. -/
def bucketOf (L : Linked) (key : Datum) : Nat :=
  if L.keyKind.accepts C key.peel then (L.keyKind.digest C key.peel).toNat % L.capacity else 0

/-- How the key of a node compares with a key. -/
def orderAt (L : Linked) (key : Datum) (h : Handle) : Option Ordering :=
  (L.node? h).map fun n => L.keyKind.order C n.key key

/-- The place of a new entry in its bucket, and its neighbours there. -/
def placeIn (L : Linked) (key : Datum) (handles : List Handle) : Nat × Option Handle × Option Handle :=
  let place := partitionPoint (fun h => L.orderAt C key h != some .gt) handles
  match (handles.take place).getLast? with
  | some before => (place, some before, L.next? before)
  | none =>
    let after := handles[place]?
    (place, after.bind L.previous?, after)

/-- The place of a new entry in its bucket, and its neighbours in the global order. -/
def placeFor (L : Linked) (key : Datum) : Nat × Option Handle × Option Handle :=
  match L.bucket? (L.bucketOf C key) with
  | some handles => L.placeIn C key handles
  | none => (0, L.bucketNeighbours (L.bucketOf C key))

/-- Inserts an entry, whatever key and value are. -/
def insert (L : Linked) (e : Entry Datum) : Linked :=
  let index := L.bucketOf C e.key
  let (place, previous, next) := L.placeFor C e.key
  let h : Handle := ⟨L.nextSerial⟩
  let handles := ((L.bucket? index).getD []).insertIdx place h
  let filed := { L with
    nodes := (h, ⟨e, previous, next⟩) :: L.nodes
    buckets := L.buckets.set index (some handles)
    nextSerial := L.nextSerial + 1
    lastAdded := some e.kind }
  filed.link h previous next

/-- The bucket of the oldest entry with a key, and its place there. -/
def locate? (L : Linked) (key : Datum) : Option (Nat × Nat) :=
  let key := key.peel
  if L.keyKind.accepts C key then
    let index := L.bucketOf C key
    (L.bucket? index).bind fun handles =>
      let place := partitionPoint (fun h => L.orderAt C key h == some .lt) handles
      (handles[place]?.filter fun h => L.orderAt C key h = some .eq).map fun _ => (index, place)
  else none

/-! ## Operations -/

/-- The handle of the oldest entry with a key. -/
def find? (L : Linked) (key : Datum) : Option Handle :=
  (L.locate? C key).bind fun (index, place) => (L.bucket? index).bind (·[place]?)

/-- The entry of a handle. -/
def item? (L : Linked) (h : Handle) : Option Item := (L.node? h).map fun n => ⟨h, n.toEntry⟩

/-- Removes the oldest entry with a key. -/
def remove? (L : Linked) (key : Datum) : Option (Entry Datum × Linked) :=
  (L.locate? C key).bind fun (index, place) =>
    (L.takeFromBucket index place).bind fun (h, L) => L.unlink h

/-- Removes the entry with a handle, looked for in the bucket of its key. -/
def removeHandle? (L : Linked) (h : Handle) : Option (Entry Datum × Linked) :=
  (L.node? h).bind fun n =>
    let index := L.bucketOf C n.key
    (L.bucket? index).bind fun handles =>
      (handles.idxOf? h).bind fun place =>
        (L.takeFromBucket index place).bind fun (_, L) => L.unlink h

/-- Removes every entry. -/
def clear (L : Linked) : Linked :=
  { L with buckets := L.buckets.map fun _ => none, nodes := [], head := none, tail := none }

/-- Inserts an entry that the kinds accept. -/
def add (L : Linked) (e : Entry Datum) : Except TableFault Linked :=
  if !L.keyKind.accepts C e.key then .error (.keyKind (C.name L.keyKind))
  else if !e.kind.accepts C e.value then .error (.valueKind (C.name e.kind))
  else .ok (L.insert C e)

/-- Gives the oldest entry with a key another value. -/
def setValue? (L : Linked) (key value : Datum) : Option Linked :=
  (L.find? C key).map fun h => L.modifyNode h fun n => { n with value }

/-- Gives an entry another kind, if that accepts its value. -/
def setValueKind (L : Linked) (h : Handle) (k : Kind) : Except TableFault Linked :=
  match L.node? h with
  | some n =>
    if k.accepts C n.value then .ok (L.modifyNode h fun n => { n with kind := k })
    else .error (.valueKind (C.name k))
  | none => .error (.valueKind (C.name k))

/-- The handle of the entry inserted next. -/
def nextHandle (L : Linked) : Handle := ⟨L.nextSerial⟩

/-- One operation on a linked table, and its answer. -/
def perform (L : Linked) : Operation → Linked × Answer
  | .add e => Answer.insertion L L.nextHandle (L.add C e)
  | .addInferred key value =>
    Answer.insertion L L.nextHandle (L.add C ⟨key, value, L.lastAdded.getD L.keyKind⟩)
  | .addCopied e => Answer.insertion L L.nextHandle ((e.copied C L.keyKind).bind (L.add C))
  | .find key => (L, .found ((L.find? C key).bind L.item?))
  | .get key => (L, .value (((L.find? C key).bind L.item?).map (·.entry.value)))
  | .contains key => (L, .flag (L.locate? C key).isSome)
  | .look h => (L, .found (L.item? h))
  | .setValue key value => Answer.replacement L (L.setValue? C key value)
  | .remove key => Answer.removal L (L.remove? C key)
  | .removeRow h => Answer.removal L (L.removeHandle? C h)
  | .setValueKind h k => Answer.relabelling L (L.setValueKind C h k)
  | .clear => (L.clear, .done)
  | .setKeyKind k => ({ L with keyKind := k }, .done)

/-- The linked table after a history. -/
def run (L : Linked) (ops : List Operation) : Linked := (runWith (perform C) L ops).1

/-- The answers in a history. -/
def answers (L : Linked) (ops : List Operation) : List Answer := (runWith (perform C) L ops).2

end Linked

end OrderedTable
