import OrderedTable.Kind.Order
import OrderedTable.Kind.Values

/-!
# Where a row goes

A key's bucket is its digest modulo the capacity. Within its bucket a new row goes behind every row
whose key is not greater, so that a bucket stands in increasing order of its keys and equal keys in
the order of their age. Both this place and the first row with a given key are found by halving
(`partitionPoint`); `partitionPoint_append` says that halving finds it.

The kind of the keys may be changed while a table holds rows. Rows stay where they were filed, so a
bucket need not be in order under the new kind; halving then still ends, at a place that depends on
the rows it happens to look at.
-/

namespace OrderedTable

/-- Halves `xs` until one element is left, keeping the half in which `p` stops holding, and answers
with the place after the elements found to satisfy `p`. `steps` bounds the number of halvings. -/
def partitionWithin {α : Type} (p : α → Bool) : (steps : Nat) → List α → Nat
  | 0, _ => 0
  | steps + 1, xs =>
    let half := xs.length / 2
    if half = 0 then if xs.any p then 1 else 0
    else if (xs.drop half).head?.any p then half + partitionWithin p steps (xs.drop half)
    else partitionWithin p steps (xs.take (xs.length - half))

/-- How many elements come before `p` stops holding, given that it does not hold again after. -/
def partitionPoint {α : Type} (p : α → Bool) (xs : List α) : Nat :=
  partitionWithin p xs.length xs

section
variable {α : Type} {p : α → Bool}

/-- Before the boundary, the element at a place is one of those with the property. -/
private theorem head?_drop_any_of_lt {ys zs : List α} (hy : ∀ y ∈ ys, p y) {n : Nat}
    (hn : n < ys.length) : ((ys ++ zs).drop n).head?.any p := by
  rw [List.head?_drop, List.getElem?_append_left hn, List.getElem?_eq_getElem hn]
  exact hy _ (List.getElem_mem hn)

/-- From the boundary on, the element at a place is one of those without it. -/
private theorem head?_drop_any_of_le {ys zs : List α} (hz : ∀ z ∈ zs, ¬ p z) {n : Nat}
    (hn : ys.length ≤ n) : ¬ ((ys ++ zs).drop n).head?.any p := by
  rw [List.head?_drop, List.getElem?_append_right hn]
  cases hget : zs[n - ys.length]? with
  | none => simp
  | some z => exact hz z (List.mem_of_getElem? hget)

/-- With steps enough, halving ends at the boundary. -/
theorem partitionWithin_append {steps : Nat} {ys zs : List α} (hy : ∀ y ∈ ys, p y)
    (hz : ∀ z ∈ zs, ¬ p z) (hsteps : (ys ++ zs).length ≤ steps) :
    partitionWithin p steps (ys ++ zs) = ys.length := by
  induction steps generalizing ys zs with
  | zero =>
    obtain rfl : ys = [] := by
      cases ys with
      | nil => rfl
      | cons y ys => simp at hsteps
    rfl
  | succ steps ih =>
    rw [List.length_append] at hsteps
    rw [partitionWithin]
    rw [List.length_append]
    split
    · next hhalf =>
      -- at most one element is left
      match ys, zs with
      | [], [] => rfl
      | [], [z] => simpa using hz z
      | [y], [] => simpa using hy y
      | [], _ :: _ :: _ => simp only [List.length_cons, List.length_nil] at hhalf; omega
      | _ :: _ :: _, _ => simp only [List.length_cons] at hhalf; omega
      | [_], _ :: _ => simp only [List.length_cons, List.length_nil] at hhalf; omega
    · next hhalf =>
      split
      · next hmiddle =>
        have hlt : (ys.length + zs.length) / 2 < ys.length := by
          by_cases hle : ys.length ≤ (ys.length + zs.length) / 2
          · exact absurd hmiddle (head?_drop_any_of_le hz hle)
          · omega
        rw [List.drop_append_of_le_length (by omega),
          ih (fun y h => hy y (List.mem_of_mem_drop h)) hz (by simp; omega), List.length_drop]
        omega
      · next hmiddle =>
        have hle : ys.length ≤ (ys.length + zs.length) / 2 := by
          by_cases hlt : (ys.length + zs.length) / 2 < ys.length
          · exact absurd (head?_drop_any_of_lt hy hlt) hmiddle
          · omega
        rw [List.take_append, List.take_of_length_le (by omega)]
        exact ih hy (fun z h => hz z (List.mem_of_mem_take h)) (by simp; omega)

/-- Where `p` holds of a first part and of nothing after it, the point is the end of that part. -/
theorem partitionPoint_append {ys zs : List α} (hy : ∀ y ∈ ys, p y) (hz : ∀ z ∈ zs, ¬ p z) :
    partitionPoint p (ys ++ zs) = ys.length :=
  partitionWithin_append hy hz (Nat.le_refl _)

/-- The point is a place in the list or its end, whatever `p` is. -/
theorem partitionPoint_le (xs : List α) : partitionPoint p xs ≤ xs.length := by
  suffices h : ∀ steps, partitionWithin p steps xs ≤ xs.length from h _
  intro steps
  induction steps generalizing xs with
  | zero => exact Nat.zero_le _
  | succ steps ih =>
    rw [partitionWithin]
    split
    · split
      · next h =>
        obtain ⟨x, hx, -⟩ := List.any_eq_true.1 h
        exact List.length_pos_of_mem hx
      · exact Nat.zero_le _
    · split
      · have := ih (xs.drop (xs.length / 2))
        rw [List.length_drop] at this
        omega
      · have := ih (xs.take (xs.length - xs.length / 2))
        rw [List.length_take] at this
        omega

end

namespace Table

variable (C : Catalogue)

/-- The bucket of a key. A key that the kind of the keys does not accept belongs to the first. -/
def bucketOf (t : Table Datum) (key : Datum) : Nat :=
  if t.keyKind.accepts C key.peel then (t.keyKind.digest C key.peel).toNat % t.capacity else 0

/-- The place in a bucket behind every row whose key is not greater. -/
def placeFor (t : Table Datum) (key : Datum) (rows : List (Row Datum)) : Nat :=
  partitionPoint (fun r => t.keyKind.order C r.key key != .gt) rows

/-- The handle of the row inserted next. -/
def nextHandle (t : Table Datum) : Handle := ⟨t.nextSerial⟩

/-- Inserts a row with the next handle, whatever key and value are. -/
def insert (t : Table Datum) (e : Entry Datum) : Table Datum :=
  let bucket := t.bucketOf C e.key
  let rows := t.bucketRows bucket
  let place := t.placeFor C e.key rows
  { t with
    rows :=
      t.rows.filter (·.bucket < bucket) ++
        rows.take place ++ ⟨e, bucket, t.nextHandle⟩ :: rows.drop place ++
        t.rows.filter (bucket < ·.bucket)
    lastAdded := some e.kind
    nextSerial := t.nextSerial + 1 }

/-- Inserts a key with a value under a kind, if the kind of the keys accepts the key and the kind
accepts the value. Equal keys stand side by side. -/
def add (t : Table Datum) (e : Entry Datum) : Except TableFault (Table Datum) :=
  if !t.keyKind.accepts C e.key then .error (.keyKind (C.name t.keyKind))
  else if !e.kind.accepts C e.value then .error (.valueKind (C.name e.kind))
  else .ok (t.insert C e)

/-- The kind of the value inserted last or, where none was inserted yet, that of the keys. -/
def inferredKind (t : Table Datum) : Kind := t.lastAdded.getD t.keyKind

/-- Inserts a key with a value under the inferred kind. -/
def addInferred (t : Table Datum) (key value : Datum) : Except TableFault (Table Datum) :=
  t.add C ⟨key, value, t.inferredKind⟩

/-- Inserts entries one after another, passing over those that are refused. -/
def addAll (t : Table Datum) (entries : List (Entry Datum)) : Table Datum :=
  entries.foldl (fun t e => (t.add C e).toOption.getD t) t

end Table

end OrderedTable
