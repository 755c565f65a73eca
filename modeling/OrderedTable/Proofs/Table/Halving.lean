import OrderedTable.Table.Placement

/-!
# Halving

What `partitionPoint` finds in a list where what satisfies the predicate comes first, in any list
(`IsBoundary`), and in two lists that a predicate cannot tell apart.
-/

namespace OrderedTable

variable {α β : Type}

/-- Where what satisfies `p` comes before what does not, the point is the place between them. -/
theorem partitionPoint_spec {p : α → Bool} {xs : List α}
    (h : xs.Pairwise fun x y => p y → p x) :
    (∀ x ∈ xs.take (partitionPoint p xs), p x) ∧ ∀ x ∈ xs.drop (partitionPoint p xs), ¬ p x := by
  have hfirst : ∀ x ∈ xs.takeWhile p, p x := List.all_eq_true.1 List.all_takeWhile
  -- behind the first element without the property none has it
  have hrest : ∀ x ∈ xs.dropWhile p, ¬ p x := by
    have hsub : (xs.dropWhile p).Pairwise fun x y => p y → p x := h.sublist (List.dropWhile_sublist p)
    cases hdrop : xs.dropWhile p with
    | nil => rintro x ⟨⟩
    | cons y rest =>
      have hy : ¬ p y := by
        have := @List.head_dropWhile_not _ p xs (by simp [hdrop])
        simpa [hdrop] using this
      rw [hdrop] at hsub
      intro x hx hp
      rcases List.mem_cons.1 hx with rfl | hx
      · exact hy hp
      · exact hy ((List.pairwise_cons.1 hsub).1 x hx hp)
  have hpoint : partitionPoint p xs = (xs.takeWhile p).length := by
    have := partitionPoint_append hfirst hrest
    rwa [List.takeWhile_append_dropWhile] at this
  have hsplit : xs.takeWhile p ++ xs.dropWhile p = xs := List.takeWhile_append_dropWhile
  rw [hpoint, ← List.prefix_iff_eq_take.1 (List.takeWhile_prefix p)]
  refine ⟨hfirst, ?_⟩
  have hdrop : xs.drop (xs.takeWhile p).length = xs.dropWhile p := by
    conv => lhs; arg 2; rw [← hsplit]
    exact List.drop_left
  rw [hdrop]
  exact hrest

/-- Where a comparison goes up along a list, halving finds the first element that is equal, if there is one. -/
theorem getElem?_partitionPoint_filter {cut : α → Ordering} {xs : List α}
    (hlow : xs.Pairwise fun x y => cut y = .lt → cut x = .lt)
    (hhigh : xs.Pairwise fun x y => cut x = .gt → cut y = .gt) :
    xs[partitionPoint (fun x => cut x == .lt) xs]?.filter (fun x => cut x = .eq) =
      xs.find? fun x => cut x = .eq := by
  obtain ⟨hbefore, hafter⟩ := partitionPoint_spec (p := fun x => cut x == .lt)
    (hlow.imp fun h hlt => by simpa using h (by simpa using hlt))
  generalize partitionPoint (fun x => cut x == .lt) xs = place at hbefore hafter
  -- what stands before the place is less
  have hskip : xs.find? (fun x => cut x = .eq) = (xs.drop place).find? fun x => cut x = .eq := by
    have hnone : (xs.take place).find? (fun x => cut x = .eq) = none := by
      refine List.find?_eq_none.2 fun x hx => ?_
      simp [beq_iff_eq.1 (hbefore x hx)]
    conv => lhs; rw [← List.take_append_drop place xs, List.find?_append, hnone, Option.none_or]
  have hhigh := hhigh.sublist (List.drop_sublist place xs)
  rw [hskip, ← List.head?_drop]
  cases hdrop : xs.drop place with
  | nil => rfl
  | cons x rest =>
    rw [hdrop] at hafter hhigh
    rw [List.head?_cons, Option.filter_some, List.find?_cons]
    cases hx : cut x with
    | lt => exact absurd (beq_iff_eq.2 hx) (hafter x List.mem_cons_self)
    | eq => rfl
    | gt =>
      -- and what comes after something greater is greater
      refine (List.find?_eq_none.2 fun y hy => ?_).symm
      simp [(List.pairwise_cons.1 hhigh).1 y hy hx]

/-- A place between an element that satisfies `p` and one that does not: what stands right before it
does, and what stands right behind it does not. There may be several such places. -/
structure IsBoundary (p : α → Bool) (xs : List α) (n : Nat) : Prop where
  le : n ≤ xs.length
  before : ∀ x, 0 < n → xs[n - 1]? = some x → p x
  behind : ∀ x, xs[n]? = some x → ¬ p x

namespace IsBoundary

variable {p : α → Bool} {xs : List α} {n : Nat}

/-- In a list of at most one element the place is before it or behind it. -/
theorem of_length_le_one (h : xs.length ≤ 1) : IsBoundary p xs (if xs.any p then 1 else 0) := by
  rcases xs with _ | ⟨x, _ | ⟨y, ys⟩⟩
  · constructor <;> simp
  · by_cases hx : p x <;> constructor <;> simp [hx]
  · simp at h

/-- A place in the rest of a list that starts with an element that satisfies `p`. -/
theorem of_drop {half : Nat} (hlt : half < xs.length) (hp : p xs[half])
    (h : IsBoundary p (xs.drop half) n) : IsBoundary p xs (half + n) := by
  obtain ⟨hle, hbefore, hbehind⟩ := h
  simp only [List.length_drop, List.getElem?_drop] at hle hbefore hbehind
  refine ⟨by omega, fun x _ hx => ?_, hbehind⟩
  -- the place is not at the start of the rest
  have hpos : 0 < n := by
    refine Nat.pos_of_ne_zero fun hzero => ?_
    subst hzero
    exact hbehind _ (List.getElem?_eq_getElem hlt) hp
  refine hbefore x hpos ?_
  rwa [show half + (n - 1) = half + n - 1 by omega]

/-- A place in the first half of a list, with an element behind the half or at its end that does not
satisfy `p`. -/
theorem of_take {half : Nat} (hlt : half < xs.length) (hodd : xs.length - half ≤ half + 1)
    (hp : ¬ p xs[half]) (h : IsBoundary p (xs.take (xs.length - half)) n) (hle : half ≤ xs.length - half) :
    IsBoundary p xs n := by
  obtain ⟨hn, hbefore, hbehind⟩ := h
  rw [List.length_take] at hn
  have hmiddle : xs[half]? = some xs[half] := List.getElem?_eq_getElem hlt
  refine ⟨by omega, fun x hpos hx => ?_, fun x hx => ?_⟩
  · refine hbefore x hpos ?_
    rwa [List.getElem?_take_of_lt (by omega)]
  · by_cases hlast : n < xs.length - half
    · exact hbehind x (by rwa [List.getElem?_take_of_lt hlast])
    · by_cases heq : n = half
      · subst heq
        rw [hmiddle] at hx
        exact Option.some.inj hx ▸ hp
      · -- what stands right before the place would be that element
        refine absurd (hbefore xs[half] (by omega) ?_) hp
        rw [List.getElem?_take_of_lt (by omega), show n - 1 = half by omega, hmiddle]

end IsBoundary

/-- Halving stops at such a place, in whatever order the elements are. -/
theorem isBoundary_partitionPoint (p : α → Bool) (xs : List α) :
    IsBoundary p xs (partitionPoint p xs) := by
  suffices hsteps : ∀ steps (ys : List α), ys.length ≤ steps →
      IsBoundary p ys (partitionWithin p steps ys) from hsteps xs.length xs (Nat.le_refl _)
  -- on the number of steps allowed, which a half never exceeds
  intro steps
  induction steps with
  | zero =>
    intro ys hys
    obtain rfl := List.length_eq_zero_iff.1 (Nat.le_zero.1 hys)
    exact .of_length_le_one (Nat.le_succ 0)
  | succ steps ih =>
    intro ys hys
    rw [partitionWithin]
    split
    · next hhalf => exact .of_length_le_one (by omega)
    · next hhalf =>
      have hlt : ys.length / 2 < ys.length := by omega
      rw [List.head?_drop, List.getElem?_eq_getElem hlt, Option.any_some]
      split
      · next hp => exact .of_drop hlt hp (ih _ (by rw [List.length_drop]; omega))
      · next hp => exact .of_take hlt (by omega) hp (ih _ (by rw [List.length_take]; omega)) (by omega)

/-- What stands before a boundary is right before it, or is followed by what is; and likewise behind it. -/
theorem IsBoundary.sides {p : α → Bool} {xs : List α} {n : Nat} (h : IsBoundary p xs n)
    {R : α → α → Prop} (hR : xs.Pairwise R) :
    (∀ x ∈ xs.take n, ∃ y ∈ xs, p y ∧ (x = y ∨ R x y)) ∧
      ∀ x ∈ xs.drop n, ∃ y ∈ xs, ¬ p y ∧ (y = x ∨ R y x) := by
  have hle := h.le
  have hsorted := List.pairwise_iff_getElem.1 hR
  constructor
  · intro x hx
    obtain ⟨i, hi, rfl⟩ := List.mem_take_iff_getElem.1 hx
    have hlt : n - 1 < xs.length := by omega
    refine ⟨xs[n - 1], List.getElem_mem hlt, h.before _ (by omega) (List.getElem?_eq_getElem hlt), ?_⟩
    rcases Nat.lt_or_eq_of_le (show i ≤ n - 1 by omega) with hin | rfl
    · exact .inr (hsorted i (n - 1) _ _ hin)
    · exact .inl rfl
  · intro x hx
    obtain ⟨i, hi, rfl⟩ := List.mem_drop_iff_getElem.1 hx
    have hlt : n < xs.length := by omega
    refine ⟨xs[n], List.getElem_mem hlt, h.behind _ (List.getElem?_eq_getElem hlt), ?_⟩
    rcases Nat.eq_zero_or_pos i with rfl | hpos
    · exact .inl rfl
    · exact .inr (hsorted n (n + i) _ _ (by omega))

/-- Halving looks at elements only through the predicate. -/
theorem partitionPoint_map_congr {f : α → β} {p : β → Bool} {q : α → Bool} {xs : List α}
    (h : ∀ x ∈ xs, p (f x) = q x) : partitionPoint p (xs.map f) = partitionPoint q xs := by
  have head : ∀ ys : List α, (∀ x ∈ ys, p (f x) = q x) →
      (ys.map f).head?.any p = ys.head?.any q := by
    intro ys hys
    cases ys with
    | nil => rfl
    | cons y ys => exact hys y List.mem_cons_self
  have any : ∀ ys : List α, (∀ x ∈ ys, p (f x) = q x) → (ys.map f).any p = ys.any q := by
    intro ys hys
    induction ys with
    | nil => rfl
    | cons y ys ih =>
      rw [List.map_cons, List.any_cons, List.any_cons, hys y List.mem_cons_self,
        ih fun x hx => hys x (List.mem_cons_of_mem _ hx)]
  suffices hsteps : ∀ steps (ys : List α), (∀ x ∈ ys, p (f x) = q x) →
      partitionWithin p steps (ys.map f) = partitionWithin q steps ys by
    rw [partitionPoint, partitionPoint, List.length_map]
    exact hsteps _ _ h
  -- both go the same way at every step
  intro steps
  induction steps with
  | zero => intro ys _; rfl
  | succ steps ih =>
    intro ys hys
    have hdrop : ∀ n, ∀ x ∈ ys.drop n, p (f x) = q x := fun n x hx => hys x (List.mem_of_mem_drop hx)
    have htake : ∀ n, ∀ x ∈ ys.take n, p (f x) = q x := fun n x hx => hys x (List.mem_of_mem_take hx)
    rw [partitionWithin, partitionWithin, List.length_map, any ys hys, ← List.map_drop,
      head _ (hdrop _), ih _ (hdrop _), ← List.map_take, ih _ (htake _)]

end OrderedTable
