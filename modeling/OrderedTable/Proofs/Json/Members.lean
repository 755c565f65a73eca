import Mathlib.Data.List.Induction
import Mathlib.Data.List.Nodup
import OrderedTable.Json.Basic

/-!
# The members of JSON objects

A JSON value is `Ordered` if, at every depth, the members of an object stand in increasing order of their
names, so that none is named twice.

`Json.Library.Maps` is what the export relies on of the library's objects: values are read ordered, and a
member is inserted at its place, instead of the member that had its name. Members with names of their own
may then be inserted in whatever order (`Json.Library.Maps.object_of_perm`).
-/

namespace OrderedTable.Json

/-- The members are in increasing order of their names. -/
def Sorted (members : List (String × Json)) : Prop := members.Pairwise fun m n => m.1 < n.1

/-- At every depth the members of objects are in increasing order of their names. -/
inductive Ordered : Json → Prop
  | null : Ordered .null
  | bool (b : Bool) : Ordered (.bool b)
  | number (n : Number) : Ordered (.number n)
  | string (s : String) : Ordered (.string s)
  | array {items : List Json} (each : ∀ x ∈ items, Ordered x) : Ordered (.array items)
  | object {members : List (String × Json)} (sorted : Sorted members)
      (each : ∀ m ∈ members, Ordered m.2) : Ordered (.object members)

/-- What is relied on of the objects of a library. -/
structure Library.Maps (L : Library) : Prop where
  /-- A value is read with the members of its objects in order, each name once. -/
  ordered {cs : List Char} {x : Json} {length : Nat} (read : L.first? cs = some (.ok (x, length))) : x.Ordered
  /-- A member is inserted where the order wants it. -/
  sorted {members : List (String × Json)} (h : Sorted members) (name : String) (x : Json) :
    Sorted (L.insert name x members)
  /-- A member that is inserted takes the place of the one with its name, and of no other. -/
  mem_insert {members : List (String × Json)} (h : Sorted members) (name : String) (x : Json) (m : String × Json) :
    m ∈ L.insert name x members ↔ m = (name, x) ∨ m ∈ members ∧ m.1 ≠ name

variable {members others : List (String × Json)}

/-- Members in order have names of their own. -/
theorem Sorted.nodup_names (h : Sorted members) : (members.map (·.1)).Nodup := by
  refine List.pairwise_map.2 (List.Pairwise.imp ?_ h)
  intro m n hlt heq
  rw [heq] at hlt
  exact String.lt_irrefl _ hlt

/-- Members are determined by their order. -/
theorem Sorted.eq_of_perm (h : Sorted members) (h' : Sorted others) (hperm : members.Perm others) :
    members = others :=
  hperm.eq_of_pairwise
    (fun _ _ _ _ hlt hgt => absurd (String.lt_trans hlt hgt) (String.lt_irrefl _)) h h'

namespace Library.Maps

variable {L : Library}

/-- Members that are inserted one after another come to stand in order, and all are kept if they have names of
their own. -/
theorem foldl_insert (hL : L.Maps) (h : (members.map (·.1)).Nodup) :
    Sorted (members.foldl (fun done m => L.insert m.1 m.2 done) []) ∧
      ∀ m, m ∈ members.foldl (fun done m => L.insert m.1 m.2 done) [] ↔ m ∈ members := by
  -- the member inserted last is the one that the library has the last word on
  induction members using List.reverseRecOn with
  | nil => exact ⟨.nil, fun _ => .rfl⟩
  | append_singleton members last ih =>
    rw [List.map_append, List.nodup_append] at h
    obtain ⟨hsorted, hmem⟩ := ih h.1
    rw [List.foldl_append, List.foldl_cons, List.foldl_nil]
    refine ⟨hL.sorted hsorted _ _, fun m => ?_⟩
    have hnew : m ∈ members → m.1 ≠ last.1 := fun hm =>
      h.2.2 _ (List.mem_map_of_mem hm) _ (List.mem_singleton.2 rfl)
    rw [hL.mem_insert hsorted, hmem, List.mem_append, List.mem_singleton, and_iff_left_of_imp hnew, or_comm]

/-- An object is the same in whatever order its members are inserted. -/
theorem object_of_perm (hL : L.Maps) (h : Sorted members) (hperm : others.Perm members) :
    L.object others = .object members := by
  have hnames : (others.map (·.1)).Nodup := (hperm.map (·.1)).nodup_iff.2 h.nodup_names
  obtain ⟨hsorted, hmem⟩ := hL.foldl_insert hnames
  refine congrArg Json.object (hsorted.eq_of_perm h ?_)
  refine (List.perm_ext_iff_of_nodup (.of_map _ hsorted.nodup_names) (.of_map _ h.nodup_names)).2 fun m => ?_
  rw [hmem, hperm.mem_iff]

end Library.Maps

end OrderedTable.Json
