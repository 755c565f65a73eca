import OrderedTable.Catalogue.Specimens
import OrderedTable.Proofs.Order.Agreement

/-!
# Registered bases, and the specimens

Registered bases have an index each, so they are told apart; what remains to be asked of a catalogue is
that its registered extensions are lawful (`Catalogue.lawful_registered`). The specimens are.
-/

namespace OrderedTable

namespace Catalogue

variable {C : Catalogue}

/-- The bases with an index: those built in, and the registered extensions. -/
def Registered (C : Catalogue) (b : Base) : Prop := b ∈ C.bases

instance (b : Base) : Decidable (C.Registered b) := inferInstanceAs (Decidable (b ∈ C.bases))

/-- A registered base has an index. -/
theorem Registered.baseIndex?_ne_none {b : Base} (h : C.Registered b) : C.baseIndex? b ≠ none := by
  intro hnone
  exact List.idxOf?_eq_none_iff.1 (Option.map_eq_none_iff.1 hnone) h

/-- A registered extension is one of those that the catalogue lists. -/
theorem Registered.of_extension {id : Nat} (h : C.Registered (.extension id)) : id ∈ C.registered := by
  rcases List.mem_append.1 h with h | h
  · simp [builtin] at h
  · obtain ⟨id', hid, heq⟩ := List.mem_map.1 h
    cases heq
    exact hid

/-- Where every registered extension is lawful, so are the registered bases. -/
theorem lawful_registered (h : ∀ id ∈ C.registered, (C.extension id).Ordered ∧ (C.extension id).Agrees) :
    C.Lawful C.Registered where
  apart _ _ ha _ hnone := absurd hnone ha.baseIndex?_ne_none
  extension id hid := (h id hid.of_extension).1
  agrees id hid := (h id hid.of_extension).2

end Catalogue

namespace Extension

/-- The kind `i32` orders values, whatever extensions there are. -/
private theorem orders_i32 : builtinOnly.Lawful fun b => b = Kind.i32.base where
  apart _ _ ha hb _ _ _ := ha.trans hb.symm
  extension _ hid := by cases hid
  agrees _ hid := by cases hid

/-- Every value keeps to `i32` under that kind, as it has no parts there. -/
private theorem within_i32 (d : Datum) : Kind.i32.Within (fun b => b = Kind.i32.base) d :=
  (Kind.within_leaf rfl).2 rfl

/-- What treats values as `i32` does orders them. -/
theorem ordered_of_i32 {x : Extension} (h : x.order = Kind.i32.order builtinOnly) : x.Ordered where
  swap a b := by
    rw [h]
    exact Kind.order_swap orders_i32.toOrders _ a b (within_i32 a) (within_i32 b)
  composes a b c := by
    rw [h]
    exact Kind.order_composes orders_i32.toOrders _ a b c (within_i32 a) (within_i32 b) (within_i32 c)

/-- An extension that treats values as `i32` does digests them alike, whatever its name is. -/
theorem digest_integer (name : String) (d : Datum) :
    (integer name).digest d = Kind.i32.digest builtinOnly d := by
  rw [Kind.digest_of_leaf rfl]
  show Bytes.digest ((Kind.i32.encode builtinOnly d).toOption.getD []) =
    Bytes.digest ((Kind.i32.encodeLeaf builtinOnly d).toOption.getD [])
  rw [Kind.encode, Kind.read_leaf rfl]
  rfl

/-- So its digest agrees with its order. -/
theorem agrees_integer (name : String) : (integer name).Agrees where
  digest_eq a b h := by
    rw [digest_integer, digest_integer]
    exact Kind.digest_eq_of_order orders_i32 _ a b (within_i32 a) (within_i32 b) h
  accepts_peel d h := Kind.accepts_peel orders_i32 rfl h
  digest_peel d h := by
    rw [digest_integer, digest_integer]
    exact Kind.digest_peel orders_i32 rfl h

/-- One digest for everything agrees with every order. -/
theorem agrees_colliding : colliding.Agrees where
  digest_eq _ _ _ := rfl
  accepts_peel _ h := (agrees_integer "colliding_i32").accepts_peel _ h
  digest_peel _ _ := rfl

/-- A kind of a single value has nothing to compare. -/
theorem lawful_unit : unit.Ordered ∧ unit.Agrees := by
  refine ⟨⟨fun _ _ => rfl, fun _ _ _ => ⟨fun _ => rfl, fun _ => rfl, fun _ => rfl⟩⟩, ?_⟩
  refine ⟨fun _ _ _ => rfl, fun d h => ?_, fun _ _ => rfl⟩
  cases d with
  | unit => rfl
  | _ => cases h

end Extension

/-- The registered specimens are lawful, the one whose hash never tells values apart among them. -/
theorem Catalogue.specimens_lawful : specimens.Lawful specimens.Registered := by
  refine lawful_registered fun id hid => ?_
  have hid : id = 0 ∨ id = 1 ∨ id = 2 := by simpa [specimens] using hid
  rcases hid with rfl | rfl | rfl
  · exact Extension.lawful_unit
  · exact ⟨Extension.ordered_of_i32 rfl, Extension.agrees_colliding⟩
  · refine ⟨Extension.ordered_of_i32 rfl, ?_⟩
    have h := Extension.agrees_integer "liar"
    exact ⟨h.digest_eq, h.accepts_peel, h.digest_peel⟩

end OrderedTable
