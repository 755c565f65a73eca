import OrderedTable.Proofs.Order.Agreement
import OrderedTable.Proofs.Table.History

/-!
# What copies are made of

The copy of a list or a table is a list or a table again, with keys of the same kind, and each of its
entries is the copy of an entry. So a copy mentions no base that the original does not.
-/

namespace OrderedTable

variable {C : Catalogue}

/-- An entry is whole if its key and its value were both copied. -/
theorem Entry.whole?_eq_some {e : Entry (Option Datum)} {e' : Entry Datum} (h : e.whole? = some e') :
    e.key = some e'.key ∧ e.value = some e'.value ∧ e.kind = e'.kind := by
  obtain ⟨key, value, kind⟩ := e
  cases key with
  | none => cases h
  | some key =>
    cases value with
    | none => cases h
    | some value =>
      cases h
      exact ⟨rfl, rfl, rfl⟩

namespace Kind

variable {k : Kind} {d d' : Datum}

/-- An entry is the copy of another. -/
def CopiesEntry (C : Catalogue) (keyKind : Kind) (e e' : Entry Datum) : Prop :=
  keyKind.copy C e.key = some e'.key ∧ e.kind.copy C e.value = some e'.value ∧ e.kind = e'.kind

/-- Each entry of a copy is the copy of one that was there. -/
private theorem exists_of_whole {keyKind : Kind} {entries : List (Entry Datum)} {e' : Entry Datum}
    (h : e' ∈ (entries.map (Entry.map (keyKind.copy C) (Kind.copy C))).filterMap Entry.whole?) :
    ∃ e ∈ entries, CopiesEntry C keyKind e e' := by
  obtain ⟨whole, hmem, hwhole⟩ := List.mem_filterMap.1 h
  obtain ⟨e, he, rfl⟩ := List.mem_map.1 hmem
  exact ⟨e, he, Entry.whole?_eq_some hwhole⟩

/-- The copy of what has parts has parts, and each of its entries is a copy. -/
theorem copy_parts {p : Parts} (hp : k.parts? d = some p) (h : k.copy C d = some d') :
    ∃ p', k.parts? d' = some p' ∧ p'.keyKind = p.keyKind ∧
      ∀ e' ∈ p'.entries, ∃ e ∈ p.entries, CopiesEntry C p.keyKind e e' := by
  rcases parts?_eq_some hp with ⟨hk, l, hl, rfl⟩ | ⟨hk, t, ht, rfl⟩
  · rw [copy, read_list (copying C) hk hl] at h
    cases h
    refine ⟨_, parts?_of_list hk rfl, rfl, fun e' he' => ?_⟩
    exact exists_of_whole he'
  · rw [copy, read_table (copying C) hk ht] at h
    cases h
    have hempty : (Table.empty t.keyKind t.capacity : Table Datum).Shaped := .empty _ _
    refine ⟨_, parts?_of_table hk rfl, ?_, fun e' he' => ?_⟩
    · exact (Table.addAll_fields _ _).1
    · obtain ⟨r, hr, rfl⟩ := List.mem_map.1 he'
      rcases Table.mem_addAll hempty hr with hnone | hmem
      · cases hnone
      · rw [show (t.map (Kind.read (copying C))).entries = _ from entries_map _ t] at hmem
        exact exists_of_whole hmem

/-- What a leaf is copied to is a leaf. -/
theorem copy_leaf (hp : k.parts? d = none) (h : k.copy C d = some d') : k.parts? d' = none := by
  rw [copy, read_leaf hp] at h
  cases hk : k.base with
  | list => simp [copying, copyLeaf, hk] at h
  | table => simp [copying, copyLeaf, hk] at h
  | scalar | text | bytes | extension => simp [parts?, hk]

/-- A copy mentions no other bases. -/
theorem mentions_copy (k : Kind) (d : Datum) {d' : Datum} (h : k.copy C d = some d') {b : Base}
    (hb : b ∈ k.mentions d') : b ∈ k.mentions d := by
  induction k, d using walk_induction generalizing d' with
  | leaf k d hp =>
    rw [mentions_leaf (copy_leaf hp h)] at hb
    cases hb
  | parts k d p hp ih =>
    obtain ⟨p', hp', hkeyKind, hentries⟩ := copy_parts hp h
    rw [mentions_parts hp', hkeyKind] at hb
    rw [mentions_parts hp]
    rcases List.mem_cons.1 hb with rfl | hb
    · exact List.mem_cons_self
    · obtain ⟨e', he', hb⟩ := List.mem_flatMap.1 hb
      obtain ⟨e, he, -, hvalue, hkind⟩ := hentries e' he'
      rw [← hkind] at hb
      refine List.mem_cons_of_mem _ (List.mem_flatMap.2 ⟨e, he, ?_⟩)
      rcases List.mem_cons.1 hb with rfl | hb
      · exact List.mem_cons_self
      · exact List.mem_cons_of_mem _ ((ih e he).2 hvalue hb)

/-- Out of its box a value mentions the same bases, or more. -/
theorem mentions_peel {b : Base} (hb : b ∈ k.mentions d) : b ∈ k.mentions d.peel := by
  cases hp : k.parts? d with
  | none =>
    rw [mentions_leaf hp] at hb
    cases hb
  | some p =>
    have hpeel : k.parts? d.peel = some p := by
      rcases parts?_eq_some hp with ⟨hk, l, hl, rfl⟩ | ⟨hk, t, ht, rfl⟩
      · exact parts?_of_list hk ((Datum.list?_peel (Option.isSome_of_eq_some hl)).trans hl)
      · exact parts?_of_table hk ((Datum.table?_peel (Option.isSome_of_eq_some ht)).trans ht)
    rw [mentions_parts hp] at hb
    rw [mentions_parts hpeel]
    exact hb

/-- What a kind accepts has the same parts out of its box. -/
theorem parts?_peel (h : k.accepts C d = true) : k.parts? d.peel = k.parts? d := by
  unfold accepts at h
  unfold parts?
  cases hb : k.base with
  | list =>
    simp only [hb] at h ⊢
    rw [Datum.list?_peel h]
  | table =>
    simp only [hb] at h ⊢
    rw [Datum.table?_peel h]
  | scalar | text | bytes | extension => rfl

/-- What a kind accepts stays within bounds out of its box. -/
theorem Within.peel {P : Base → Prop} (h : k.Within P d) (haccepts : k.accepts C d = true) :
    k.Within P d.peel := by
  have hpeel := parts?_peel haccepts
  cases hp : k.parts? d with
  | none => exact (within_leaf (hpeel.trans hp)).2 h.1
  | some p => exact .of_parts (hpeel.trans hp) h.1 (h.keyKind hp) fun e he => h.value hp he

/-- What is within bounds out of its box is so in it. -/
theorem Within.of_peel {P : Base → Prop} (h : k.Within P d.peel) : k.Within P d :=
  ⟨h.1, fun b hb => h.2 b (mentions_peel hb)⟩

/-- A copy mentions no bases but those of the original. -/
theorem Within.copy {P : Base → Prop} (h : k.Within P d) (hcopy : k.copy C d = some d') :
    k.Within P d' :=
  ⟨h.1, fun b hb => h.2 b (mentions_copy k d hcopy hb)⟩

end Kind

end OrderedTable
