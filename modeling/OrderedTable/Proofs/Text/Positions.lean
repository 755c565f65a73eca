import OrderedTable.Json.Import

/-!
# Positions in a text

A position counts the bytes before it. A text can be cut at a position only if it does not lie inside a
character (`afterBytes?_eq_some_iff`). A slice of a text is a fault if one of its ends lies inside a character or
past the end of the text, or if they are the wrong way around.
-/

namespace OrderedTable.Text

@[simp] theorem byteLength_nil : byteLength [] = 0 := rfl

@[simp] theorem byteLength_cons (c : Char) (cs : List Char) :
    byteLength (c :: cs) = c.utf8Size + byteLength cs := rfl

@[simp] theorem byteLength_append (cs ds : List Char) :
    byteLength (cs ++ ds) = byteLength cs + byteLength ds := by
  induction cs with
  | nil => simp
  | cons c cs ih => rw [List.cons_append, byteLength_cons, byteLength_cons, ih, Nat.add_assoc]

/-- A text can be cut behind any part of it. -/
theorem afterBytes?_append (before after : List Char) :
    afterBytes? (byteLength before) (before ++ after) = some after := by
  induction before with
  | nil =>
    rw [byteLength_nil, List.nil_append]
    exact afterBytes?.eq_1 after
  | cons c before ih =>
    obtain ⟨n, hn⟩ : ∃ n, byteLength (c :: before) = n + 1 :=
      Nat.exists_eq_succ_of_ne_zero (Nat.pos_iff_ne_zero.1 (Nat.lt_of_lt_of_le c.utf8Size_pos (Nat.le_add_right _ _)))
    rw [byteLength_cons] at hn
    rw [byteLength_cons, hn, List.cons_append, afterBytes?, if_pos (by omega)]
    have hrest : n + 1 - c.utf8Size = byteLength before := by omega
    rw [hrest, ih]

/-- A text is cut at a position where some part of it ends. -/
theorem afterBytes?_eq_some_iff {n : Nat} {cs after : List Char} :
    afterBytes? n cs = some after ↔ ∃ before, cs = before ++ after ∧ byteLength before = n := by
  constructor
  · intro h
    induction cs generalizing n with
    | nil =>
      cases n with
      | zero => exact ⟨[], by simpa [afterBytes?] using h, rfl⟩
      | succ n => cases h
    | cons c cs ih =>
      cases n with
      | zero => exact ⟨[], by simpa [afterBytes?] using h, rfl⟩
      | succ n =>
        rw [afterBytes?] at h
        split at h
        · next hle =>
          obtain ⟨before, rfl, hlength⟩ := ih h
          refine ⟨c :: before, rfl, ?_⟩
          rw [byteLength_cons, hlength]
          omega
        · cases h
  · rintro ⟨before, rfl, rfl⟩
    exact afterBytes?_append before after

/-- A text can be cut at a position in one way only. -/
theorem append_inj_of_byteLength {before before' after after' : List Char} (h : before ++ after = before' ++ after')
    (hlength : byteLength before = byteLength before') : before = before' ∧ after = after' := by
  have hafter := afterBytes?_append before after
  rw [h, hlength, afterBytes?_append] at hafter
  cases hafter
  exact ⟨List.append_cancel_right h, rfl⟩

/-- The rest of a text at a position is what its length leaves. -/
theorem add_byteLength {n : Nat} {cs after : List Char} (h : afterBytes? n cs = some after) :
    n + byteLength after = byteLength cs := by
  obtain ⟨before, rfl, rfl⟩ := afterBytes?_eq_some_iff.1 h
  exact (byteLength_append before after).symm

/-- From a position on, positions go up by what is passed. -/
theorem afterBytes?_add {n : Nat} {cs front after : List Char} (h : afterBytes? n cs = some (front ++ after)) :
    afterBytes? (n + byteLength front) cs = some after := by
  obtain ⟨before, rfl, rfl⟩ := afterBytes?_eq_some_iff.1 h
  rw [← byteLength_append, ← List.append_assoc]
  exact afterBytes?_append (before ++ front) after

/-- Behind a character of one byte, the next position. -/
theorem afterBytes?_succ {n : Nat} {cs after : List Char} {c : Char} (h : afterBytes? n cs = some (c :: after))
    (hc : c.utf8Size = 1) : afterBytes? (n + 1) cs = some after := by
  have hnext := @afterBytes?_add n cs [c] after h
  rwa [byteLength_cons, byteLength_nil, hc] at hnext

/-- No text is cut inside a character. -/
theorem afterBytes?_inside {n : Nat} {front after : List Char} {c : Char} (hlow : byteLength front < n)
    (hhigh : n < byteLength front + c.utf8Size) : afterBytes? n (front ++ c :: after) = none := by
  refine Option.eq_none_iff_forall_ne_some.2 fun rest hrest => ?_
  obtain ⟨before, heq, rfl⟩ := afterBytes?_eq_some_iff.1 hrest
  rcases List.append_eq_append_iff.1 heq with ⟨more, rfl, hmore⟩ | ⟨more, rfl, hmore⟩
  · cases more with
    | nil => simp at hlow
    | cons d more =>
      obtain ⟨rfl, -⟩ := List.cons.inj hmore
      simp only [byteLength_append, byteLength_cons] at hhigh
      omega
  · simp only [byteLength_append] at hlow
    omega

/-! ## Slices -/

/-- Why a text cannot be cut, or has no byte, at a position. -/
inductive SliceFault where
  /-- The position lies past the end of the text or inside a character. -/
  | noBoundary (position : Nat)
  /-- The slice would end before it starts. -/
  | backwards (start stop : Nat)
  /-- The text has no such byte. -/
  | noByte (position : Nat)
  deriving DecidableEq, Repr

/-- The text from a position on. -/
def sliceFrom (start : Nat) (text : List Char) : Except SliceFault (List Char) :=
  match afterBytes? start text with
  | some rest => .ok rest
  | none => .error (.noBoundary start)

/-- The text before a position. -/
def sliceTo (stop : Nat) (text : List Char) : Except SliceFault (List Char) :=
  (sliceFrom stop text).map fun rest => text.take (text.length - rest.length)

/-- The text between two positions. -/
def slice (start stop : Nat) (text : List Char) : Except SliceFault (List Char) :=
  if start ≤ stop then sliceTo stop text >>= sliceFrom start else .error (.backwards start stop)

/-- The byte at a position. -/
def byteAt (position : Nat) (text : List Char) : Except SliceFault UInt8 :=
  match (Utf8.encode (String.ofList text))[position]? with
  | some byte => .ok byte
  | none => .error (.noByte position)

theorem sliceFrom_eq {start : Nat} {text rest : List Char} (h : afterBytes? start text = some rest) :
    sliceFrom start text = .ok rest := by
  rw [sliceFrom, h]

/-- The part of a text before a cut. -/
theorem sliceTo_append (before after : List Char) : sliceTo (byteLength before) (before ++ after) = .ok before := by
  rw [sliceTo, sliceFrom_eq (afterBytes?_append before after), Except.map, List.length_append, Nat.add_sub_cancel,
    List.take_left]

/-- A slice of what is ahead of a position. -/
theorem slice_eq {start : Nat} {text inside after : List Char} (h : afterBytes? start text = some (inside ++ after)) :
    slice start (start + byteLength inside) text = .ok inside := by
  obtain ⟨before, rfl, rfl⟩ := afterBytes?_eq_some_iff.1 h
  rw [slice, if_pos (Nat.le_add_right _ _), ← byteLength_append, ← List.append_assoc, sliceTo_append]
  exact sliceFrom_eq (afterBytes?_append before inside)

/-- A character takes as many bytes as its size says. -/
theorem length_encodeChar (c : Char) : (Utf8.encodeChar c).length = c.utf8Size := by
  unfold Utf8.encodeChar Char.utf8Size
  simp only [UInt32.le_iff_toNat_le]
  show _ = if c.toNat ≤ 127 then 1 else if c.toNat ≤ 2047 then 2 else if c.toNat ≤ 65535 then 3 else 4
  grind

/-- A text takes as many bytes as its length in bytes says. -/
theorem length_encode (text : List Char) : (Utf8.encode (String.ofList text)).length = byteLength text := by
  rw [Utf8.encode, String.toList_ofList]
  induction text with
  | nil => rfl
  | cons c text ih => rw [List.flatMap_cons, List.length_append, ih, length_encodeChar, byteLength_cons]

/-- An ASCII character is one byte. -/
theorem byteAt_eq {position : Nat} {text rest : List Char} {c : Char}
    (h : afterBytes? position text = some (c :: rest)) (hc : c.toNat < 0x80) :
    byteAt position text = .ok (UInt8.ofNat c.toNat) := by
  obtain ⟨before, rfl, rfl⟩ := afterBytes?_eq_some_iff.1 h
  have hbytes : Utf8.encode (String.ofList (before ++ c :: rest)) =
      Utf8.encode (String.ofList before) ++ UInt8.ofNat c.toNat :: Utf8.encode (String.ofList rest) := by
    simp [Utf8.encode, Utf8.encodeChar, hc]
  rw [byteAt, hbytes, ← length_encode before, List.getElem?_append_right (Nat.le_refl _), Nat.sub_self,
    List.getElem?_cons_zero]

end OrderedTable.Text
