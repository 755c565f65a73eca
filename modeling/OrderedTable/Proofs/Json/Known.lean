import Mathlib.Data.List.Pairwise
import OrderedTable.Proofs.Json.Extent
import OrderedTable.Proofs.Json.Members

/-!
# A library that knows some objects

`Json.Library.knowing` reads the objects whose texts it is given and no other value. If these texts are in
braces, none of them a beginning of another, and their members are in order, it is a library of which
everything holds that is relied on (`Library.Known.streams`, `Library.Known.maps`).
-/

namespace OrderedTable.Json.Library

/-- The library that knows the texts of some objects and no other value. A member is inserted behind those with
smaller names and before those with greater ones. -/
def knowing (known : List (List Char × List (String × Json))) : Library where
  first? cs :=
    match cs.dropWhile isSpace with
    | [] => none
    | rest =>
      match known.find? (·.1.isPrefixOf rest) with
      | none => some (.error "expected value")
      | some (object, members) =>
        some (.ok (.object members, Text.byteLength (cs.takeWhile isSpace) + Text.byteLength object))
  insert name x members := members.filter (·.1 < name) ++ (name, x) :: members.filter (name < ·.1)

/-- The texts can be told apart, are in braces, and have ordered members. -/
structure Known (known : List (List Char × List (String × Json))) : Prop where
  apart : known.Pairwise fun e f => ¬ e.1 <+: f.1 ∧ ¬ f.1 <+: e.1
  braced : ∀ e ∈ known, ∃ inner, e.1 = '\x7b' :: (inner ++ ['\x7d'])
  ordered : ∀ e ∈ known, (Json.object e.2).Ordered

variable {known : List (List Char × List (String × Json))}

namespace Known

/-- Only one of the texts starts what follows the spaces. -/
theorem find?_eq (h : Known known) {e : List Char × List (String × Json)} (he : e ∈ known) (rest : List Char) :
    known.find? (·.1.isPrefixOf (e.1 ++ rest)) = some e := by
  have hsome : (known.find? (·.1.isPrefixOf (e.1 ++ rest))).isSome :=
    List.find?_isSome.2 ⟨e, he, List.isPrefixOf_iff_prefix.2 (List.prefix_append _ _)⟩
  obtain ⟨f, hf⟩ := Option.isSome_iff_exists.1 hsome
  have hstarts := List.find?_some hf
  have hprefix : f.1 <+: e.1 ++ rest := List.isPrefixOf_iff_prefix.1 hstarts
  have heq : e = f := by
    by_contra hne
    have : Std.Symm fun e f : List Char × List (String × Json) => ¬ e.1 <+: f.1 ∧ ¬ f.1 <+: e.1 :=
      ⟨fun _ _ h => h.symm⟩
    obtain ⟨hef, hfe⟩ := h.apart.forall he (List.mem_of_find?_eq_some hf) hne
    exact (List.prefix_or_prefix_of_prefix (List.prefix_append _ _) hprefix).elim hef hfe
  rw [hf, heq]

/-- What the library reads is one of the objects that it knows, behind spaces. -/
theorem first?_eq_iff (h : Known known) {cs : List Char} {x : Json} {length : Nat} :
    (knowing known).first? cs = some (.ok (x, length)) ↔ ∃ e ∈ known, ∃ rest,
      cs.dropWhile isSpace = e.1 ++ rest ∧ x = .object e.2 ∧
        length = Text.byteLength (cs.takeWhile isSpace) + Text.byteLength e.1 := by
  constructor
  · intro hread
    simp only [knowing] at hread
    split at hread
    · cases hread
    · split at hread
      · cases hread
      · next found =>
        cases hread
        have hstarts := List.find?_some found
        obtain ⟨rest, hrest⟩ := List.isPrefixOf_iff_prefix.1 hstarts
        exact ⟨_, List.mem_of_find?_eq_some found, rest, hrest.symm, rfl, rfl⟩
  · rintro ⟨e, he, rest, hdrop, rfl, rfl⟩
    obtain ⟨inner, hinner⟩ := h.braced e he
    have hfind := h.find?_eq he rest
    rw [hinner, List.cons_append] at hdrop hfind
    simp only [knowing, hdrop, hfind]

/-- Behind spaces, what is not blank starts the text of an object. -/
theorem dropWhile_append (h : Known known) {e : List Char × List (String × Json)} (he : e ∈ known)
    {spaces : List Char} (gap : ∀ c ∈ spaces, isSpace c) (rest : List Char) :
    (spaces ++ (e.1 ++ rest)).dropWhile isSpace = e.1 ++ rest ∧
      (spaces ++ (e.1 ++ rest)).takeWhile isSpace = spaces := by
  obtain ⟨inner, hinner⟩ := h.braced e he
  rw [List.dropWhile_append_of_pos gap, List.takeWhile_append_of_pos gap, hinner]
  exact ⟨rfl, List.append_nil _⟩

/-- Its reader is one that is relied on. -/
theorem streams (h : Known known) : (knowing known).Streams where
  located {cs x length} read := by
    obtain ⟨e, he, rest, hdrop, rfl, rfl⟩ := h.first?_eq_iff.1 read
    obtain ⟨inner, hinner⟩ := h.braced e he
    refine ⟨cs.takeWhile isSpace, e.1, rest, ?_, List.all_eq_true.1 List.all_takeWhile, ⟨?_, fun _ => ?_⟩, ?_⟩
    · rw [← hdrop, List.takeWhile_append_dropWhile]
    · exact ⟨'\x7b', List.mem_singleton.2 rfl, by rw [hinner]; rfl⟩
    · rw [hinner, ← List.cons_append, List.getLast?_concat]
    · rw [Text.byteLength_append]
  spaced {spaces} gap cs x length := by
    rw [h.first?_eq_iff, h.first?_eq_iff, List.dropWhile_append_of_pos gap, List.takeWhile_append_of_pos gap,
      Text.byteLength_append]
    simp only [Nat.add_assoc, Nat.add_left_cancel_iff]
  unexamined {text rest members} read other := by
    obtain ⟨e, he, after, hdrop, hmembers, hlength⟩ := h.first?_eq_iff.1 read
    have gap : ∀ c ∈ (text ++ rest).takeWhile isSpace, isSpace c := List.all_eq_true.1 List.all_takeWhile
    -- the text consists of the spaces that were passed over and the known one
    have hsplit : text ++ rest = ((text ++ rest).takeWhile isSpace ++ e.1) ++ after := by
      rw [List.append_assoc, ← hdrop, List.takeWhile_append_dropWhile]
    rw [← Text.byteLength_append] at hlength
    generalize (text ++ rest).takeWhile isSpace = spaces at *
    obtain ⟨rfl, rfl⟩ := Text.append_inj_of_byteLength hsplit hlength
    obtain ⟨hdrop', htake⟩ := h.dropWhile_append he gap other
    rw [h.first?_eq_iff, List.append_assoc, hdrop', htake, Text.byteLength_append]
    exact ⟨e, he, other, rfl, hmembers, rfl⟩

/-- Its objects are ones that are relied on. -/
theorem maps (h : Known known) : (knowing known).Maps where
  ordered read := by
    obtain ⟨e, he, -, -, rfl, -⟩ := h.first?_eq_iff.1 read
    exact h.ordered e he
  sorted {members} hsorted name x := by
    refine List.pairwise_append.2 ⟨hsorted.filter _, List.pairwise_cons.2 ⟨fun n hn => ?_, hsorted.filter _⟩, ?_⟩
    · exact of_decide_eq_true (List.mem_filter.1 hn).2
    · intro m hm n hn
      have hlow : m.1 < name := of_decide_eq_true (List.mem_filter.1 hm).2
      rcases List.mem_cons.1 hn with rfl | hn
      · exact hlow
      · exact String.lt_trans hlow (of_decide_eq_true (List.mem_filter.1 hn).2)
  mem_insert {members} _ name x m := by
    have hne : m.1 ≠ name ↔ m.1 < name ∨ name < m.1 := by
      constructor
      · intro hne
        by_contra hnot
        obtain ⟨hnlt, hngt⟩ := not_or.1 hnot
        exact hne (String.le_antisymm (String.not_lt.1 hngt) (String.not_lt.1 hnlt))
      · rintro (hlt | hgt) rfl
        · exact String.lt_irrefl _ hlt
        · exact String.lt_irrefl _ hgt
    simp only [knowing, List.mem_append, List.mem_cons, List.mem_filter, decide_eq_true_iff, hne]
    tauto

end Known

end OrderedTable.Json.Library
