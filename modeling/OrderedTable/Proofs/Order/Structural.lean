import OrderedTable.Proofs.Datum.Rebuilding
import OrderedTable.Proofs.Order.Specimens

/-!
# Comparing lists and tables

Lists and tables are ordered as total preorders, whatever they hold: values that their kinds do not accept,
values in boxes, and floats that are no numbers (`Catalogue.Orders.total_on_structures`). What is asked is
that the bases among the kinds order their values and can be told apart, which bases without an index are by
their names.

Whether a kind owns or borrows never counts. `Kind.owned` has every kind in a value give way to the owning
one, and a comparison is the same before and after. So two values that come to the same when this is done
stand for each other in every comparison.
-/

namespace OrderedTable

/-! ## Total preorders -/

/-- `order` is a total preorder among some of its arguments: every argument equals itself, turning a
comparison around reverses it, and what is not greater in two steps is not greater in one, and is equal
only if it is so in both steps. -/
structure TotalPreorder {α : Type} (among : α → Prop) (order : α → α → Ordering) : Prop where
  self : ∀ a, among a → order a a = .eq
  swap : ∀ a b, among a → among b → order b a = (order a b).swap
  trans : ∀ a b c, among a → among b → among c → order a b ≠ .gt → order b c ≠ .gt →
    order a c ≠ .gt ∧ (order a c = .eq → order a b = .eq ∧ order b c = .eq)

/-- What composes is transitive, and equal at the ends only if it is equal all along. -/
theorem Composes.trans : ∀ {ab bc ac : Ordering}, Composes ab bc ac → ab ≠ .gt → bc ≠ .gt →
    ac ≠ .gt ∧ (ac = .eq → ab = .eq ∧ bc = .eq) := by
  decide

namespace TotalPreorder

variable {α : Type} {among : α → Prop} {order : α → α → Ordering}

/-- Comparisons that can be turned around and compose are a total preorder. -/
theorem of_composes (swap : ∀ a b, among a → among b → order b a = (order a b).swap)
    (composes : ∀ a b c, among a → among b → among c →
      Composes (order a b) (order b c) (order a c)) : TotalPreorder among order where
  self a ha := Ordering.eq_eq_of_eq_swap (swap a a ha ha)
  swap := swap
  trans a b c ha hb hc := (composes a b c ha hb hc).trans

/-- Where values are totally preordered they are so too if some of them may be missing. -/
theorem orderViews (h : TotalPreorder among order) :
    TotalPreorder (fun x => ∀ a, x = some a → among a) (orderViews order) where
  self x hx := by
    cases x with
    | none => rfl
    | some a => exact h.self a (hx a rfl)
  swap x y hx hy := by
    cases x with
    | none => cases y <;> rfl
    | some a =>
      cases y with
      | none => rfl
      | some b => exact h.swap a b (hx a rfl) (hy b rfl)
  trans x y z hx hy hz := by
    cases x with
    | none =>
      cases y with
      | none => exact fun _ hyz => ⟨hyz, fun hxz => ⟨rfl, hxz⟩⟩
      | some b =>
        cases z with
        | none => exact fun _ hyz => absurd rfl hyz
        | some c => exact fun _ _ => ⟨nofun, nofun⟩
    | some a =>
      cases y with
      | none => exact fun hxy => absurd rfl hxy
      | some b =>
        cases z with
        | none => exact fun _ hyz => absurd rfl hyz
        | some c => exact h.trans a b c (hx a rfl) (hy b rfl) (hz c rfl)

end TotalPreorder

/-! ## Lists and tables -/

namespace Catalogue.Orders

variable {C : Catalogue} {P : Base → Prop}

/-- Lists and tables can be told apart from everything, as they have an index. -/
theorem with_structures (h : C.Orders P) : C.Orders fun b => P b ∨ b = .list ∨ b = .table := by
  have known : ∀ b, b = .list ∨ b = .table → C.baseIndex? b ≠ none := by
    intro b hb
    have hmem : C.Registered b := List.mem_append_left _ (by rcases hb with rfl | rfl <;> decide)
    exact hmem.baseIndex?_ne_none
  refine ⟨fun a b ha hb hnone hnone' => ?_, fun id hid => ?_⟩
  · exact h.apart a b (ha.resolve_right fun ha => known a ha hnone)
      (hb.resolve_right fun hb => known b hb hnone') hnone hnone'
  · rcases hid with hid | hid | hid
    · exact h.extension id hid
    · cases hid
    · cases hid

/-- What is compared under a kind of lists or tables is totally preordered. -/
theorem total_on_parts (h : C.Orders P) {k : Kind} (hk : k.base = .list ∨ k.base = .table) {α : Type}
    {order : α → α → Ordering} (toDatum : α → Datum) {parts : α → Parts}
    (hparts : ∀ a, k.parts? (toDatum a) = some (parts a))
    (horder : ∀ a b, k.order C (toDatum a) (toDatum b) = order a b) :
    TotalPreorder (fun a => (parts a).Within P) order := by
  -- the kind of lists or tables itself is added to the bases in question
  have within : ∀ a, (parts a).Within P →
      k.Within (fun b => P b ∨ b = .list ∨ b = .table) (toDatum a) := by
    intro a ha
    refine .of_parts (hparts a) (.inr hk) (.inl ha.1) fun e he => ?_
    exact ⟨.inl (ha.2 e he).1, fun b hb => .inl ((ha.2 e he).2 b hb)⟩
  refine .of_composes (fun a b ha hb => ?_) fun a b c ha hb hc => ?_
  · rw [← horder, ← horder]
    exact Kind.order_swap h.with_structures k _ _ (within a ha) (within b hb)
  · rw [← horder, ← horder, ← horder]
    exact Kind.order_composes h.with_structures k _ _ _ (within a ha) (within b hb) (within c hc)

/-- Lists, tables, and tables of which some may be missing are totally preordered, as far as the bases
among their kinds order their values and can be told apart. Owning kinds may take the place of their
twins at every level, and the other way round, on both sides of a comparison. -/
theorem total_on_structures (h : C.Orders P) :
    TotalPreorder (fun l : Listing Datum => l.parts.Within P) (Listing.order C) ∧
      TotalPreorder (fun t : Table Datum => t.parts.Within P) (Table.order C) ∧
      TotalPreorder (fun x : Option (Table Datum) => ∀ t, x = some t → t.parts.Within P)
        (Table.orderOptional C) ∧
      (∀ l l' m m' : Listing Datum, Kind.list.owned (.list l) = Kind.list.owned (.list l') →
        Kind.list.owned (.list m) = Kind.list.owned (.list m') → l.order C m = l'.order C m') ∧
      ∀ t t' u u' : Table Datum, Kind.table.owned (.table t) = Kind.table.owned (.table t') →
        Kind.table.owned (.table u) = Kind.table.owned (.table u') → t.order C u = t'.order C u' := by
  have lists : TotalPreorder (fun l : Listing Datum => l.parts.Within P) (Listing.order C) :=
    h.total_on_parts (k := Kind.list) (.inl rfl) .list (fun _ => rfl) Kind.order_list
  have tables : TotalPreorder (fun t : Table Datum => t.parts.Within P) (Table.order C) :=
    h.total_on_parts (k := Kind.table) (.inr rfl) .table (fun _ => rfl) Kind.order_table
  have twins : ∀ (k : Kind) (a a' b b' : Datum), k.owned a = k.owned a' → k.owned b = k.owned b' →
      k.order C a b = k.order C a' b' := fun _ _ _ _ _ ha hb => rebuilds_ownership.order_eq ha hb
  refine ⟨lists, tables, tables.orderViews, fun l l' m m' hl hm => ?_, fun t t' u u' ht hu => ?_⟩
  · rw [← Kind.order_list, ← Kind.order_list]
    exact twins _ _ _ _ _ hl hm
  · rw [← Kind.order_table, ← Kind.order_table]
    exact twins _ _ _ _ _ ht hu

end Catalogue.Orders

/-- The registered specimens, and two that have no index but names of their own. -/
def Catalogue.Named (b : Base) : Prop := specimens.Registered b ∨ b = .extension 4 ∨ b = .extension 5

/-- A float that is no number, a number in a box, a value that is foreign to its kind, and one under a kind
without an index. -/
def Listing.motley (integers : Kind) : Listing Datum :=
  ⟨.text,
    [⟨.ofText "a", .scalar (.float .f64 0x7ff8000000000001), .f64⟩,
      ⟨.ofText "b", .boxed (.scalar (.int .i32 5)), integers⟩,
      ⟨.ofText "c", .unit, .bool⟩,
      ⟨.ofText "d", .scalar (.int .i32 7), .owning (.extension 5)⟩]⟩

/-- Such values in a list, once more under the twin of one of their kinds, and a table that is missing. -/
theorem Catalogue.total_on_structures_motley :
    let P := Catalogue.Named
    let l := Listing.motley .i32
    let m := Listing.motley Kind.i32.twin
    let t : Table Datum := .empty .text 0
    specimens.Orders P ∧ l.parts.Within P ∧ m.parts.Within P ∧ t.parts.Within P ∧
      l.order specimens l = .eq ∧ m.order specimens l = (l.order specimens m).swap ∧
      l.order specimens m = l.order specimens l ∧
      Table.orderOptional specimens none (some t) =
        (Table.orderOptional specimens (some t) none).swap := by
  intro P l m t
  -- the two without an index are told apart by their names
  have hP : specimens.Orders P := by
    have registered := specimens_lawful.toOrders
    have unnamed : ∀ b, P b → specimens.baseIndex? b = none → b = .extension 4 ∨ b = .extension 5 :=
      fun b hb hnone => hb.resolve_left fun hb => hb.baseIndex?_ne_none hnone
    refine ⟨fun a b ha hb hnone hnone' hname => ?_, fun id hid => ?_⟩
    · rcases unnamed a ha hnone with rfl | rfl <;> rcases unnamed b hb hnone' with rfl | rfl
      · rfl
      · exact absurd hname (by decide)
      · exact absurd hname (by decide)
      · rfl
    · rcases hid with hid | hid | hid
      · exact registered.extension id hid
      · cases hid
        exact Extension.ordered_of_i32 rfl
      · cases hid
        exact Extension.ordered_of_i32 rfl
  -- the same list under either twin
  have motley : ∀ k : Kind, k.base = Kind.i32.base → (Listing.motley k).parts.Within P := by
    intro k hk
    have hkeys : specimens.Registered Kind.text.base := by decide
    refine ⟨.inl hkeys, fun e he => ?_⟩
    have he : e ∈ (Listing.motley k).entries := he
    simp only [Listing.motley, List.mem_cons, List.not_mem_nil, or_false] at he
    rcases he with rfl | rfl | rfl | rfl
    · exact (Kind.within_leaf rfl).2 (.inl (by decide))
    · have hleaf : k.parts? (.boxed (.scalar (.int .i32 5))) = none :=
        Kind.parts?_eq_none_of_base (by rw [hk]; decide) (by rw [hk]; decide) _
      exact (Kind.within_leaf hleaf).2 (.inl (hk ▸ by decide))
    · exact (Kind.within_leaf rfl).2 (.inl (by decide))
    · exact (Kind.within_leaf rfl).2 (.inr (.inr rfl))
  have hl := motley .i32 rfl
  have hm := motley Kind.i32.twin rfl
  have ht : t.parts.Within P := ⟨.inl (by decide), by rintro e ⟨⟩⟩
  obtain ⟨lists, -, optional, twins, -⟩ := Orders.total_on_structures hP
  refine ⟨hP, hl, hm, ht, lists.self l hl, lists.swap l m hl hm, twins l l m l rfl rfl, ?_⟩
  exact optional.swap _ _ (by rintro u ⟨⟩; exact ht) (by rintro u ⟨⟩)

end OrderedTable
