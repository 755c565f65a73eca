import OrderedTable.Proofs.Datum.Keeping
import OrderedTable.Proofs.Table.Mapping
import OrderedTable.Proofs.Wire.Normal

/-!
# Portable values kept elsewhere

A built-in kind asks only for the bytes of a value and not where they are kept, so a portable value kept
elsewhere is alike (`Kind.Portable.alike_keptBy`). A table may then be filled with entries that are kept
elsewhere, or filled first and kept elsewhere afterwards (`Table.addAll_keptBy`).
-/

namespace OrderedTable

open Wire

variable {C : Catalogue} {levels : Nat} {f : Storage → Storage}

/-! ## Kinds and what is kept elsewhere -/

/-- A built-in kind does not ask where bytes are kept. -/
theorem Kind.accepts_keptBy (hf : ∀ s, (f s).bytes = s.bytes) {k : Kind} (hk : Builtin k.base) (d : Datum) :
    k.accepts C (d.keptBy f) = k.accepts C d := by
  have views := d.sameViews_keptBy hf
  rw [accepts, accepts]
  cases hb : k.base with
  | scalar s => simp only [views.scalar s]
  | text caseBlind => simp only [views.text]
  | bytes => simp only [views.bytes]
  | list => simp only [d.list?_keptBy, Option.isSome_map]
  | table => simp only [d.table?_keptBy, Option.isSome_map]
  | extension id => exact absurd (hb ▸ hk) (not_builtin_extension id)

/-- What differs in where it is kept. -/
def Likeness.keeping : Likeness where
  keeps := Builtin
  kind := id
  base_kind _ := rfl
  form _ _ := True

/-- Extensions have no say in it, as only built-in kinds keep. -/
theorem Catalogue.respects_keeping (C : Catalogue) : C.Respects Likeness.keeping :=
  fun id hid => absurd hid (not_builtin_extension id)

namespace Kind.Portable

variable {k : Kind} {d : Datum}

/-- Portable values are of built-in kinds. -/
theorem builtin (h : k.Portable C levels d) : Builtin k.base := by
  obtain ⟨bs, htravels⟩ := h.travels
  exact htravels.builtin

/-- A portable value kept elsewhere is alike. -/
theorem alike_keptBy (hf : ∀ s, (f s).bytes = s.bytes) (h : k.Portable C levels d) :
    Datum.Alike .keeping d (d.keptBy f) := by
  have parts : ∀ {k : Kind} {d : Datum} {p : Parts}, k.parts? d = some p → Builtin p.keyKind.base →
      (∀ e ∈ p.entries, Builtin e.kind.base) →
      (∀ e ∈ p.entries, Datum.Alike .keeping e.key (e.key.keptBy f)) →
      (∀ e ∈ p.entries, Datum.Alike .keeping e.value (e.value.keptBy f)) →
      Datum.Alike .keeping d (d.keptBy f) := by
    intro k d p hp hkeys hkinds hkey hvalue
    refine .of_entries k hp (parts?_keptBy hp) ⟨hkeys, rfl⟩ (List.forall₂_map_right_iff.2 ?_) trivial
    exact List.forall₂_same.2 fun e he => ⟨hkinds e he, rfl, hkey e he, hvalue e he⟩
  induction h with
  | leaf builtin list table accepted text =>
    have hleaf := isLeaf_of_accepts builtin list table accepted
    exact .leaf hleaf hleaf.keptBy (Datum.sameViews_keptBy hf _) trivial
  | @list _ _ _ l base seen keyKind key value ihkey ihvalue =>
    exact parts (k := Kind.list) (parts?_of_list rfl seen) keyKind (fun e he => (value e he).builtin) ihkey
      ihvalue
  | @table _ _ _ t base seen steady capacity keyKind key value ihkey ihvalue =>
    exact parts (k := Kind.table) (parts?_of_table rfl seen) keyKind (fun e he => (value e he).builtin) ihkey
      ihvalue

end Kind.Portable

/-! ## Tables of what is kept elsewhere -/

/-- A table filled with entries that are kept elsewhere is the table filled with the entries, kept elsewhere. -/
theorem Table.addAll_keptBy (hf : ∀ s, (f s).bytes = s.bytes) {K : Kind} (hK : Builtin K.base) (wanted : Nat)
    {entries : List (Entry Datum)} (hkey : ∀ e ∈ entries, K.Portable C levels e.key)
    (hvalue : ∀ e ∈ entries, e.kind.Portable C levels e.value) :
    (Table.empty K wanted).addAll C (entries.map (Entry.keptBy f)) =
      ((Table.empty K wanted).addAll C entries).keptBy f := by
  have hC := C.respects_keeping
  have hunseen : Table.Unseen C K (Datum.keptBy f) fun d => K.Portable C levels d := by
    refine ⟨fun d hd => ⟨hd.accepted, ?_⟩, fun d hd => ?_, fun a b ha hb => ?_⟩
    · rw [Kind.accepts_keptBy hf hK, hd.accepted]
    · exact ((hd.alike_keptBy hf).digest_eq hC rfl hK).symm
    · rw [← (ha.alike_keptBy hf).order_left hC hK, (hb.alike_keptBy hf).order_right hC hK]
  have hvalues : ∀ e ∈ entries, e.kind.accepts C e.value = true ∧
      e.kind.accepts C (e.value.keptBy f) = true := fun e he =>
    ⟨(hvalue e he).accepted, by rw [Kind.accepts_keptBy hf (hvalue e he).builtin, (hvalue e he).accepted]⟩
  rw [Table.keptBy_eq_map]
  exact Table.addAll_map (t := Table.empty K wanted) (g := fun _ => Datum.keptBy f) C.lawful_builtin
    (.empty K wanted) hK hunseen (by rintro r ⟨⟩) hkey hvalues

end OrderedTable
