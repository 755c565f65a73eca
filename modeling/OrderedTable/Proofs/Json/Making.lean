import OrderedTable.Proofs.Table.History

/-!
# Making tables of JSON values

Making a table inserts entries that could be refused, but none that a JSON value is made into ever is: every
kind accepts the values that are made under it (`Json.accepts_of_make`), and names are texts. So whatever is
not null is made (`Json.exists_make`), and every object becomes a table (`Json.exists_toTable`).

What is left out are the nulls and nothing else. `Json.KeptItems` and `Json.KeptMembers` say which entry each
other item and member has become.
-/

namespace OrderedTable.Json

variable {C : Catalogue}

def isNull : Json → Bool
  | .null => true
  | _ => false

/-- The items that are not null, each with its place in the array and the entry made of it. -/
structure KeptItems (C : Catalogue) (place : Nat) (items : List Json)
    (kept : List ((Json × Nat) × Entry Datum)) : Prop where
  selected : kept.map (·.1) = (items.zipIdx place).filter (!·.1.isNull)
  keyed : ∀ p ∈ kept, p.2.key = .scalar (.int .u64 (BitVec.ofNat _ p.1.2))
  made : ∀ p ∈ kept, p.1.1.make C = .ok (some (p.2.value, p.2.kind))

/-- The members that are not null, each with the entry made of it. -/
structure KeptMembers (C : Catalogue) (members : List (String × Json))
    (kept : List ((String × Json) × Entry Datum)) : Prop where
  selected : kept.map (·.1) = members.filter (!·.2.isNull)
  keyed : ∀ p ∈ kept, p.2.key = .ofText p.1.1
  made : ∀ p ∈ kept, p.1.2.make C = .ok (some (p.2.value, p.2.kind))

/-- A null item is left out. -/
theorem KeptItems.cons_null {place : Nat} {items : List Json} {kept : List ((Json × Nat) × Entry Datum)}
    (h : KeptItems C (place + 1) items kept) : KeptItems C place (.null :: items) kept :=
  ⟨h.selected, h.keyed, h.made⟩

/-- Any other item becomes an entry under its place. -/
theorem KeptItems.cons {place : Nat} {items : List Json} {kept : List ((Json × Nat) × Entry Datum)}
    (h : KeptItems C (place + 1) items kept) {x : Json} (hx : x.isNull = false) {d : Datum} {k : Kind}
    (hmake : x.make C = .ok (some (d, k))) :
    KeptItems C place (x :: items)
      (((x, place), ⟨.scalar (.int .u64 (BitVec.ofNat _ place)), d, k⟩) :: kept) where
  selected := by
    rw [List.map_cons, h.selected, List.zipIdx_cons, List.filter_cons_of_pos (by simp [hx])]
  keyed := List.forall_mem_cons.2 ⟨rfl, h.keyed⟩
  made := List.forall_mem_cons.2 ⟨hmake, h.made⟩

/-- A null member is left out. -/
theorem KeptMembers.cons_null {members : List (String × Json)} {kept : List ((String × Json) × Entry Datum)}
    (h : KeptMembers C members kept) (name : String) : KeptMembers C ((name, .null) :: members) kept :=
  ⟨h.selected, h.keyed, h.made⟩

/-- Any other member becomes an entry under its name. -/
theorem KeptMembers.cons {members : List (String × Json)} {kept : List ((String × Json) × Entry Datum)}
    (h : KeptMembers C members kept) {x : Json} (hx : x.isNull = false) {d : Datum} {k : Kind}
    (hmake : x.make C = .ok (some (d, k))) (name : String) :
    KeptMembers C ((name, x) :: members) (((name, x), ⟨.ofText name, d, k⟩) :: kept) where
  selected := by
    rw [List.map_cons, h.selected, List.filter_cons_of_pos (by simp [hx])]
  keyed := List.forall_mem_cons.2 ⟨rfl, h.keyed⟩
  made := List.forall_mem_cons.2 ⟨hmake, h.made⟩

/-- Every kind accepts the values that are made under it. -/
theorem accepts_of_make {x : Json} {d : Datum} {k : Kind} (h : x.make C = .ok (some (d, k))) :
    k.accepts C d = true := by
  cases x with
  | null => cases h
  | bool | string => cases h; rfl
  | number n =>
    cases n with
    | int n held =>
      rw [make] at h
      split at h <;> cases h <;> rfl
    | float => cases h; rfl
  | array items =>
    obtain ⟨entries, -, h⟩ := ok_of_bind h
    cases h
    rfl
  | object members =>
    obtain ⟨t, -, h⟩ := ok_of_bind h
    cases h
    rfl

/-- A table with text keys takes what is made of a member. -/
theorem add_of_make {t : Table Datum} (ht : t.keyKind = .text) {x : Json} {d : Datum} {k : Kind}
    (h : x.make C = .ok (some (d, k))) (name : String) :
    t.add C ⟨.ofText name, d, k⟩ = .ok (t.insert C ⟨.ofText name, d, k⟩) := by
  have hkey : t.keyKind.accepts C (.ofText name) = true := by
    rw [ht]
    rfl
  rw [Table.add, hkey, accepts_of_make h]
  rfl

-- values, items and members are made of one another, so it is shown of the three at once
mutual

/-- A value that is not null is made. -/
theorem exists_make : ∀ x : Json, x.isNull = false → ∃ d k, x.make C = .ok (some (d, k))
  | .null, h => by cases h
  | .bool _, _ | .string _, _ | .number (.float _ _), _ => ⟨_, _, rfl⟩
  | .number (.int n _), _ => by
    by_cases hsigned : IntKind.i64.holds n
    · exact ⟨_, _, if_pos hsigned⟩
    · exact ⟨_, _, if_neg hsigned⟩
  | .array items, _ => by
    obtain ⟨kept, -, hmake⟩ := exists_makeItems 0 items
    rw [make, hmake]
    exact ⟨_, _, rfl⟩
  | .object members, _ => by
    obtain ⟨kept, -, hfill⟩ := exists_fill (.empty .text Table.minCapacity) rfl members
    rw [make, hfill]
    exact ⟨_, _, rfl⟩

/-- Items are made into the entries of those that are not null. -/
theorem exists_makeItems (place : Nat) : ∀ items : List Json,
    ∃ kept, KeptItems C place items kept ∧ makeItems C place items = .ok (kept.map (·.2))
  | [] => ⟨[], ⟨rfl, nofun, nofun⟩, rfl⟩
  | x :: items => by
    obtain ⟨kept, hkept, hitems⟩ := exists_makeItems (place + 1) items
    cases hx : x.isNull with
    | true =>
      cases x <;> cases hx
      exact ⟨kept, hkept.cons_null, hitems⟩
    | false =>
      obtain ⟨d, k, hmake⟩ := exists_make x hx
      refine ⟨_, hkept.cons hx hmake, ?_⟩
      rw [makeItems, hmake, ok_bind]
      show makeItems C (place + 1) items >>= _ = _
      rw [hitems]
      rfl

/-- A table with text keys is filled with the entries of the members that are not null. -/
theorem exists_fill (t : Table Datum) (ht : t.keyKind = .text) : ∀ members : List (String × Json),
    ∃ kept, KeptMembers C members kept ∧ fill C t members = .ok (t.addAll C (kept.map (·.2)))
  | [] => ⟨[], ⟨rfl, nofun, nofun⟩, rfl⟩
  | (name, x) :: members => by
    cases hx : x.isNull with
    | true =>
      obtain ⟨kept, hkept, hfill⟩ := exists_fill t ht members
      cases x <;> cases hx
      exact ⟨kept, hkept.cons_null name, hfill⟩
    | false =>
      obtain ⟨d, k, hmake⟩ := exists_make x hx
      have hadd := add_of_make ht hmake name
      obtain ⟨kept, hkept, hfill⟩ := exists_fill (t.insert C ⟨.ofText name, d, k⟩) ht members
      refine ⟨_, hkept.cons hx hmake name, ?_⟩
      rw [fill, hmake, ok_bind]
      show t.add C _ >>= _ = _
      rw [hadd, ok_bind, hfill, List.map_cons]
      show _ = Except.ok (((t.add C _).toOption.getD t).addAll C _)
      rw [hadd]
      rfl

end

/-- Every object becomes a table. -/
theorem exists_toTable (C : Catalogue) (members : List (String × Json)) : ∃ t, toTable C members = .ok t := by
  obtain ⟨kept, -, hfill⟩ := exists_fill (C := C) (.empty .text Table.minCapacity) rfl members
  exact ⟨_, hfill⟩

end OrderedTable.Json
