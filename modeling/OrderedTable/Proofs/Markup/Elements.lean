import OrderedTable.Markup.Export
import OrderedTable.Proofs.Markup.Searching
import OrderedTable.Proofs.Table.Gathering
import OrderedTable.Proofs.Wire.Written

/-!
# The elements that are written

What a value is written as, kind by kind: a scalar, text or bytes as an element with its escaped text
(`Kind.toXml_flat`), a list or table as one with the elements of its values, each named by the text of its key
(`Kind.toXml_parts`).
-/

namespace OrderedTable

/-! ## Reading twice -/

section
variable {δ ε ζ : Type} {f : Kind → δ → ε} {g : Kind → ε → ζ} {h : Kind → δ → ζ}

/-- Reading a list twice is reading it once if that is so of its keys and values. -/
theorem Listing.map_map_congr {l : Listing δ} (hentries : ∀ e ∈ l.entries,
    g l.keyKind (f l.keyKind e.key) = h l.keyKind e.key ∧ g e.kind (f e.kind e.value) = h e.kind e.value) :
    (l.map f).map g = l.map h := by
  rw [map, map, map, List.map_map]
  refine congrArg (Listing.mk l.keyKind) (List.map_congr_left fun e he => ?_)
  obtain ⟨hkey, hvalue⟩ := hentries e he
  exact congrArg₂ (Entry.mk · · e.kind) hkey hvalue

/-- The same of a table. -/
theorem Table.map_map_congr {t : Table δ} (hentries : ∀ e ∈ t.entries,
    g t.keyKind (f t.keyKind e.key) = h t.keyKind e.key ∧ g e.kind (f e.kind e.value) = h e.kind e.value) :
    (t.map f).map g = t.map h := by
  rw [map, map, map, List.map_map]
  refine congrArg (Table.mk t.keyKind t.capacity t.lastAdded t.nextSerial) (List.map_congr_left fun r hr => ?_)
  obtain ⟨hkey, hvalue⟩ := hentries r.toEntry (List.mem_map_of_mem hr)
  exact congrArg (Row.mk · r.bucket r.handle) (congrArg₂ (Entry.mk · · r.kind) hkey hvalue)

end

open Markup

variable {C : Catalogue} {k : Kind} {d : Datum}

/-- An element is its start tag, its content and its closing tag. -/
theorem Markup.toList_element (name content : String) :
    (element name content).toList = '<' :: (name.toList ++ '>' :: (content.toList ++ closingTag name.toList)) := by
  simp [element, closingTag, closingWord]

namespace Kind

/-- The text that an exported value has as a key is its text. -/
theorem text_exporting (k : Kind) (d : Datum) : (k.read (exporting C) d).text = k.format C d := by
  induction k, d using walk_induction with
  | leaf k d hleaf =>
    rw [read_leaf hleaf, format, read_leaf hleaf]
    rfl
  | parts k d p hp ih =>
    rcases parts?_eq_some hp with ⟨hk, l, hd, rfl⟩ | ⟨hk, t, hd, rfl⟩
    · rw [read_list _ hk hd, format, read_list _ hk hd]
      exact congrArg Listing.render (Listing.map_map_congr ih)
    · rw [read_table _ hk hd, format, read_table _ hk hd]
      exact congrArg Table.render (Table.map_map_congr ih)

/-- The element of a list or a table holds those of its values. -/
theorem toXml_parts {p : Parts} (hp : k.parts? d = some p) (name : String) : k.toXml C d name =
    element name (String.join (p.entries.map fun e => e.kind.toXml C e.value (p.keyKind.format C e.key))) := by
  have helement : (k.read (exporting C) d).element name =
      element name (contentOf (p.entries.map (Entry.map (p.keyKind.read (exporting C)) (Kind.read (exporting C))))) := by
    rcases parts?_eq_some hp with ⟨hk, l, hd, rfl⟩ | ⟨hk, t, hd, rfl⟩
    · rw [read_list _ hk hd]
      rfl
    · rw [read_table _ hk hd]
      exact congrArg (fun es => element name (contentOf es)) (entries_map _ t)
  rw [toXml, helement, contentOf, List.map_map]
  refine congrArg (fun texts => element name (String.join texts)) (List.map_congr_left fun e _ => ?_)
  show e.kind.toXml C e.value (p.keyKind.read (exporting C) e.key).text = _
  rw [text_exporting]

/-- That of a scalar, of text or of bytes holds its text, escaped. -/
theorem toXml_flat (hbuiltin : Builtin k.base) (hflat : k.base.Flat) (d : Datum) (name : String) :
    k.toXml C d name = element name (escape (k.format C d)) := by
  have hleaf := parts?_eq_none_of_base hflat.1 hflat.2 d
  rw [toXml, format, read_leaf hleaf, read_leaf hleaf]
  show k.toXmlLeaf C d name = element name (escape (k.formatLeaf C d))
  unfold toXmlLeaf
  split
  · rfl
  · rfl
  · rfl
  · next hb => exact absurd hb hflat.1
  · next hb => exact absurd hb hflat.2
  · next id hb => exact absurd (hb ▸ hbuiltin) (not_builtin_extension id)

/-- A table under the kind of tables is written as it is. -/
theorem toXml_table {t : Table Datum} (hk : k.base = .table) (hd : d.table? = some t) (name : String) :
    k.toXml C d name = t.toXml C name := by
  rw [toXml, read_table _ hk hd]
  rfl

end Kind

end OrderedTable
