import OrderedTable.Catalogue.Specimens
import OrderedTable.Proofs.Datum.Whole
import OrderedTable.Proofs.Markup.Elements
import OrderedTable.Proofs.Table.History

/-!
# Values are no markup

What a table is written as has tags, which come from its keys, and text between them, which comes from its values. No
value can add to the tags or take from them. Escaped text has no `<` and no `>` in it, and is the text itself once the
names of the three characters of markup are replaced again (`unescape_escape`). So if two tables have the same key
texts, none of them with markup in it, and lists and tables in the same places, then they are written with the same tags
(`Table.toXml_tags`), whatever their scalars, texts and bytes are.

The texts of keys count, not the keys. A key that is foreign to its kind, as any key can be after `setKeyKind`, has the
empty text, and then the tags differ though the keys are the same (`Table.toXml_foreign_keys`).
-/

namespace OrderedTable

namespace Markup

/-! ## Escaped text -/

/-- The text with each `&amp;`, `&lt;` and `&gt;` in it, from left to right, replaced by the character that it names. -/
def unescape : List Char → List Char
  | '&' :: 'a' :: 'm' :: 'p' :: ';' :: cs => '&' :: unescape cs
  | '&' :: 'l' :: 't' :: ';' :: cs => '<' :: unescape cs
  | '&' :: 'g' :: 't' :: ';' :: cs => '>' :: unescape cs
  | c :: cs => c :: unescape cs
  | [] => []

/-- No character in a text opens or ends a tag. -/
def Unmarked (text : String) : Prop := '<' ∉ text.toList ∧ '>' ∉ text.toList

instance (text : String) : Decidable (Unmarked text) := inferInstanceAs (Decidable (_ ∧ _))

/-- Only at an `&` is anything replaced. -/
theorem unescape_cons {c : Char} (hc : c ≠ '&') (cs : List Char) : unescape (c :: cs) = c :: unescape cs := by
  rw [unescape]
  · rintro cs rfl
    exact absurd rfl hc
  · rintro cs rfl
    exact absurd rfl hc
  · rintro cs rfl
    exact absurd rfl hc

/-- What a character was escaped to is read as that character, whatever follows. -/
theorem unescape_escapeChar (c : Char) (more : List Char) : unescape (escapeChar c ++ more) = c :: unescape more := by
  unfold escapeChar
  split
  · rfl
  · rfl
  · rfl
  · next hamp _ _ => exact unescape_cons hamp more

/-- Nothing is lost by escaping. -/
theorem unescape_escape (text : String) : unescape (escape text).toList = text.toList := by
  rw [escape, String.toList_ofList]
  induction text.toList with
  | nil => rfl
  | cons c cs ih => rw [List.flatMap_cons, unescape_escapeChar, ih]

/-- Escaped text opens and ends no tag. -/
theorem unmarked_escape (text : String) : Unmarked (escape text) := by
  have hchar : ∀ c, '<' ∉ escapeChar c ∧ '>' ∉ escapeChar c := by
    intro c
    unfold escapeChar
    split
    · decide
    · decide
    · decide
    · next _ hlt hgt => simp [Ne.symm hlt, Ne.symm hgt]
  rw [Unmarked, escape, String.toList_ofList, List.mem_flatMap, List.mem_flatMap]
  exact ⟨fun ⟨c, _, hmem⟩ => (hchar c).1 hmem, fun ⟨c, _, hmem⟩ => (hchar c).2 hmem⟩

/-! ## Tags -/

/-- A text without all that stands between a `>` and the next `<`, if there is one. The flag tells whether the text
starts between these. -/
def skeleton : (between : Bool) → List Char → List Char
  | _, [] => []
  | false, c :: cs => c :: skeleton (c = '>') cs
  | true, c :: cs =>
    if c = '<' then c :: skeleton false cs
    else if '<' ∈ cs then skeleton true cs
    else c :: skeleton true cs

/-- The tags of a text. -/
def tags (xml : String) : List Char := skeleton false xml.toList

/-- Text before a tag is left out. -/
theorem skeleton_text {text : List Char} (h : '<' ∉ text) (more : List Char) :
    skeleton true (text ++ '<' :: more) = skeleton true ('<' :: more) := by
  induction text with
  | nil => rfl
  | cons c text ih =>
    rw [List.mem_cons, not_or] at h
    rw [List.cons_append, skeleton, if_neg (Ne.symm h.1), if_pos (by simp), ih h.2]

/-- A tag is kept. -/
theorem skeleton_tag {inside : List Char} (h : '>' ∉ inside) (more : List Char) :
    skeleton true ('<' :: (inside ++ '>' :: more)) = '<' :: (inside ++ '>' :: skeleton true more) := by
  have hinside : ∀ inside : List Char, '>' ∉ inside →
      skeleton false (inside ++ '>' :: more) = inside ++ '>' :: skeleton true more := by
    intro inside h
    induction inside with
    | nil => rfl
    | cons c inside ih =>
      rw [List.mem_cons, not_or] at h
      rw [List.cons_append, skeleton, decide_eq_false (Ne.symm h.1), ih h.2, List.cons_append]
  rw [skeleton, if_pos rfl, hinside inside h]

/-- Whatever follows, this is what is left of a piece between two texts. -/
def Tagged (ts piece : List Char) : Prop := ∀ more, skeleton true (piece ++ more) = ts ++ skeleton true more

namespace Tagged

variable {ts us piece piece' : List Char}

theorem nil : Tagged [] [] := fun _ => rfl

/-- Pieces in a row have their tags in a row. -/
theorem append (h : Tagged ts piece) (h' : Tagged us piece') : Tagged (ts ++ us) (piece ++ piece') := by
  intro more
  rw [List.append_assoc, h, h', List.append_assoc]

/-- A tag is what is left of it. -/
theorem tag {inside : List Char} (h : '>' ∉ inside) : Tagged ('<' :: (inside ++ ['>'])) ('<' :: (inside ++ ['>'])) := by
  intro more
  have hskeleton := skeleton_tag h more
  simpa using hskeleton

/-- Two runs of pieces have the same tags if their pieces have, one by one. -/
theorem flatMap_pair {α : Type} {zs : List α} {f g : α → List Char}
    (h : ∀ z ∈ zs, ∃ ts, Tagged ts (f z) ∧ Tagged ts (g z)) :
    ∃ ts, Tagged ts (zs.flatMap f) ∧ Tagged ts (zs.flatMap g) := by
  induction zs with
  | nil => exact ⟨[], nil, nil⟩
  | cons z zs ih =>
    obtain ⟨⟨ts, hleft, hright⟩, hrest⟩ := List.forall_mem_cons.1 h
    obtain ⟨us, hlefts, hrights⟩ := ih hrest
    exact ⟨ts ++ us, hleft.append hlefts, hright.append hrights⟩

/-- Text counts for nothing if a tag follows it. -/
theorem text_append {text : List Char} (h : '<' ∉ text) (htag : Tagged ts ('<' :: piece)) :
    Tagged ts (text ++ '<' :: piece) := by
  intro more
  rw [List.append_assoc, List.cons_append, skeleton_text h]
  exact htag more

variable {name : String} (hname : Unmarked name)
include hname

/-- A closing tag is a tag. -/
theorem closing : Tagged (closingTag name.toList) (closingTag name.toList) := by
  have hslash : '>' ∉ '/' :: name.toList := by simp [hname.2]
  exact tag hslash

/-- An element has its own tags and those of its content. -/
theorem element {content : String} (h : Tagged ts content.toList) :
    Tagged ('<' :: (name.toList ++ ['>']) ++ (ts ++ closingTag name.toList)) (element name content).toList := by
  have hpieces := (tag hname.2).append (h.append (closing hname))
  rw [toList_element]
  simpa using hpieces

/-- Unless this is text. -/
theorem element_text {content : String} (h : Unmarked content) :
    Tagged ('<' :: (name.toList ++ ['>']) ++ closingTag name.toList) (Markup.element name content).toList := by
  have hpieces := (tag hname.2).append (text_append h.1 (closing hname))
  rw [toList_element]
  simpa [closingTag, closingWord] using hpieces

end Tagged

/-- The tags of a text that is such a piece, and starts with a tag, are what is left of it. -/
theorem tags_eq {ts rest : List Char} {xml : String} (hxml : xml.toList = '<' :: rest) (h : Tagged ts xml.toList) :
    tags xml = ts := by
  have hstart : skeleton false ('<' :: rest) = skeleton true ('<' :: rest) := by
    rw [skeleton, skeleton, if_pos rfl, decide_eq_false (by decide)]
  have hall := h []
  rwa [List.append_nil, skeleton, List.append_nil, hxml, ← hstart, ← hxml] at hall

end Markup

open Markup

variable {C : Catalogue} {k k' : Kind} {d d' : Datum}

/-! ## Values that are written with the same tags -/

/-- Two values, both no list or table, or both lists or tables of as many entries: with the same key texts, in which
there is no markup, and with values that are such values in their turn. -/
inductive Kind.SameTags (C : Catalogue) : Kind → Datum → Kind → Datum → Prop
  | flat {k k' : Kind} {d d' : Datum} (left : Builtin k.base ∧ k.base.Flat) (right : Builtin k'.base ∧ k'.base.Flat) :
      SameTags C k d k' d'
  | parts {k k' : Kind} {d d' : Datum} {p p' : Parts} (left : k.parts? d = some p) (right : k'.parts? d' = some p')
      (pairs : List (Entry Datum × Entry Datum)) (firsts : p.entries = pairs.map Prod.fst)
      (seconds : p'.entries = pairs.map Prod.snd)
      (key : ∀ z ∈ pairs, p'.keyKind.format C z.2.key = p.keyKind.format C z.1.key)
      (unmarked : ∀ z ∈ pairs, Unmarked (p.keyKind.format C z.1.key))
      (value : ∀ z ∈ pairs, SameTags C z.1.kind z.1.value z.2.kind z.2.value) : SameTags C k d k' d'

/-- The element of a value: that of a scalar, of text or of bytes holds a text without markup that spells the value's
own; that of a list or a table holds the elements of its values, named by the texts of their keys. -/
inductive Kind.ElementOf (C : Catalogue) : Kind → Datum → (name xml : String) → Prop
  | flat {k : Kind} {d : Datum} {name text : String} (flat : k.base.Flat) (unmarked : Unmarked text)
      (spells : unescape text.toList = (k.format C d).toList) : ElementOf C k d name (element name text)
  | parts {k : Kind} {d : Datum} {p : Parts} {name : String} (parts : k.parts? d = some p)
      (pieces : List (Entry Datum × String)) (firsts : p.entries = pieces.map Prod.fst)
      (piece : ∀ z ∈ pieces, ElementOf C z.1.kind z.1.value (p.keyKind.format C z.1.key) z.2) :
      ElementOf C k d name (element name (String.join (pieces.map Prod.snd)))

namespace Kind

/-- A scalar, text or bytes are written as they should be, by escaping. -/
theorem elementOf_flat (h : Builtin k.base ∧ k.base.Flat) (d : Datum) (name : String) :
    k.ElementOf C d name (k.toXml C d name) := by
  have hspells : unescape (escape (k.format C d)).toList = (k.format C d).toList := unescape_escape _
  rw [toXml_flat h.1 h.2]
  exact .flat h.2 (unmarked_escape _) hspells

/-- A list or table is written as it should be if its values are. -/
theorem elementOf_parts {p : Parts} (hp : k.parts? d = some p)
    (hentries : ∀ e ∈ p.entries, ∀ name, e.kind.ElementOf C e.value name (e.kind.toXml C e.value name))
    (name : String) : k.ElementOf C d name (k.toXml C d name) := by
  -- each entry with the element that it is written as
  obtain ⟨pieces, hpieces⟩ :
    ∃ pieces, pieces = p.entries.map fun e => (e, e.kind.toXml C e.value (p.keyKind.format C e.key)) := ⟨_, rfl⟩
  have hfirsts : p.entries = pieces.map Prod.fst := by
    rw [hpieces, List.map_map]
    exact (List.map_id _).symm
  have hseconds : p.entries.map (fun e => e.kind.toXml C e.value (p.keyKind.format C e.key)) =
      pieces.map Prod.snd := by
    rw [hpieces, List.map_map]
    rfl
  rw [toXml_parts hp, hseconds]
  refine .parts hp pieces hfirsts fun z hz => ?_
  obtain ⟨e, he, rfl⟩ := List.mem_map.1 (hpieces ▸ hz)
  exact hentries e he _

namespace SameTags

/-- Both values are written as they should be. -/
theorem elementOf (h : k.SameTags C d k' d') :
    (∀ name, k.ElementOf C d name (k.toXml C d name)) ∧ ∀ name, k'.ElementOf C d' name (k'.toXml C d' name) := by
  induction h with
  | @flat k k' d d' left right => exact ⟨elementOf_flat left d, elementOf_flat right d'⟩
  | parts left right pairs firsts seconds key unmarked value ih =>
    constructor
    · refine elementOf_parts left ?_
      rw [firsts]
      exact List.forall_mem_map.2 fun z hz => (ih z hz).1
    · refine elementOf_parts right ?_
      rw [seconds]
      exact List.forall_mem_map.2 fun z hz => (ih z hz).2

/-- Both have the same tags, whatever follows. -/
theorem exists_tagged (h : k.SameTags C d k' d') {name : String} (hname : Unmarked name) :
    ∃ ts, Tagged ts (k.toXml C d name).toList ∧ Tagged ts (k'.toXml C d' name).toList := by
  -- the two values in step, under names that the values around them give
  induction h generalizing name with
  | @flat k k' d d' left right =>
    rw [toXml_flat left.1 left.2, toXml_flat right.1 right.2]
    exact ⟨_, .element_text hname (unmarked_escape _), .element_text hname (unmarked_escape _)⟩
  | @parts k k' d d' p p' left right pairs firsts seconds key unmarked value ih =>
    -- the elements of the values, pair by pair: their names are the same
    obtain ⟨ts, hleft, hright⟩ : ∃ ts,
        Tagged ts (String.join (p.entries.map fun e => e.kind.toXml C e.value (p.keyKind.format C e.key))).toList ∧
        Tagged ts (String.join (p'.entries.map fun e => e.kind.toXml C e.value (p'.keyKind.format C e.key))).toList := by
      rw [firsts, seconds, List.map_map, List.map_map, String.toList_join, String.toList_join, List.flatMap_map,
        List.flatMap_map]
      refine Tagged.flatMap_pair fun z hz => ?_
      obtain ⟨ts, hfirst, hsecond⟩ := ih z hz (unmarked z hz)
      rw [← key z hz] at hsecond
      exact ⟨ts, hfirst, hsecond⟩
    rw [toXml_parts left, toXml_parts right]
    exact ⟨_, hleft.element hname, hright.element hname⟩

end SameTags

end Kind

/-! ## The same keys -/

/-- The base of the built-in kind that accepts the datum. Of the two for text it is the one that minds case. -/
def Datum.base? (d : Datum) : Option Base :=
  match d.peel with
  | .scalar x => some (.scalar x.kind)
  | .text _ | .plainText .. => some (.text false)
  | .bytes _ | .plainBytes .. => some .bytes
  | .list _ => some .list
  | .table _ => some .table
  | .unit | .boxed _ => none

/-- A built-in kind shows what it accepts as the kind of this base does. -/
theorem Kind.format_owning (hk : Builtin k.base) (h : k.accepts C d = true) :
    ∃ b, d.base? = some b ∧ k.format C d = (owning b).format C d := by
  -- case by case, what the kind accepts tells the kind of datum
  rw [accepts] at h
  split at h
  · next s hb =>
    obtain ⟨x, hx⟩ := Option.isSome_iff_exists.1 h
    obtain ⟨hpeel, rfl⟩ := Datum.only_scalar hx
    exact ⟨_, by rw [Datum.base?, hpeel], format_congr hb d⟩
  · next blind hb =>
    have hbase : d.base? = some (.text false) := by
      unfold Datum.textBytes? at h
      split at h
      · next hpeel => rw [Datum.base?, hpeel]
      · next hpeel => rw [Datum.base?, hpeel]
      · cases h
    have hshown (k : Kind) (b : Bool) (hb : k.base = .text b) : k.format C d = d.text?.getD "" := by
      rw [format, read_leaf (parts?_eq_none_of_base (by simp [hb]) (by simp [hb]) d)]
      show k.formatLeaf C d = _
      rw [formatLeaf, hb]
    exact ⟨_, hbase, (hshown k blind hb).trans (hshown (owning (.text false)) false rfl).symm⟩
  · next hb =>
    refine ⟨.bytes, ?_, format_congr hb d⟩
    unfold Datum.bytes? at h
    split at h
    · next hpeel => rw [Datum.base?, hpeel]
    · next hpeel => rw [Datum.base?, hpeel]
    · cases h
  · next hb =>
    refine ⟨.list, ?_, format_congr hb d⟩
    unfold Datum.list? at h
    split at h
    · next hpeel => rw [Datum.base?, hpeel]
    · cases h
  · next hb =>
    refine ⟨.table, ?_, format_congr hb d⟩
    unfold Datum.table? at h
    split at h
    · next hpeel => rw [Datum.base?, hpeel]
    · cases h
  · next id hb => exact absurd (hb ▸ hk) (not_builtin_extension id)

/-- So a key has one text under all built-in kinds that accept it. -/
theorem Kind.format_eq_of_accepts (hk : Builtin k.base) (hk' : Builtin k'.base) (h : k.accepts C d = true)
    (h' : k'.accepts C d = true) : k.format C d = k'.format C d := by
  obtain ⟨b, hb, hformat⟩ := format_owning hk h
  obtain ⟨b', hb', hformat'⟩ := format_owning hk' h'
  obtain rfl : b = b' := Option.some.inj (hb.symm.trans hb')
  exact hformat.trans hformat'.symm

/-! ## Tables -/

/-- Two tables with the same key texts, none of them with markup in it, and with lists and tables in the same places,
are written with the same tags in a root element without markup in its name. Both are written as they should be: no text
of theirs has markup in it, and each spells the scalar, text or bytes that it stands for. -/
theorem Table.toXml_tags (C : Catalogue) {t u : Table Datum} (h : Kind.table.SameTags C (.table t) .table (.table u))
    {name : String} (hname : Unmarked name) :
    tags (t.toXml C name) = tags (u.toXml C name) ∧
      Kind.table.ElementOf C (.table t) name (t.toXml C name) ∧ Kind.table.ElementOf C (.table u) name (u.toXml C name) := by
  have hxml (t : Table Datum) : Kind.table.toXml C (.table t) name = t.toXml C name := Kind.toXml_table rfl rfl name
  obtain ⟨ts, hleft, hright⟩ := h.exists_tagged hname
  obtain ⟨hleftElement, hrightElement⟩ := h.elementOf
  rw [hxml] at hleft hright
  have htags {t : Table Datum} (htagged : Tagged ts (t.toXml C name).toList) : tags (t.toXml C name) = ts :=
    tags_eq (toList_element name _) htagged
  exact ⟨(htags hleft).trans (htags hright).symm, hxml t ▸ hleftElement name, hxml u ▸ hrightElement name⟩

/-- A table with text under a number. -/
def Table.sevens : Table Datum :=
  (Table.empty .i32 Table.minCapacity).addAll .specimens [⟨.scalar (.int .i32 7), .ofText "</k>&lt;", .text⟩]

/-- A list with a truth value under the text of that number. -/
def Listing.sevens : Listing Datum := ⟨.text, [⟨.ofText "7", .scalar (.bool true), .bool⟩]⟩

/-- A table with markup in its values. -/
def Table.markedUp : Table Datum :=
  (Table.empty .text Table.minCapacity).addAll .specimens
    [⟨.ofText "k", .table .sevens, .table⟩, ⟨.ofText "x", .ofBytes (Utf8.encode "<b>&"), .bytes⟩]

/-- One with the same keys, as text that does not mind case, and without any. -/
def Table.plainlyKept : Table Datum :=
  (Table.empty .textCaseBlind Table.minCapacity).addAll .specimens
    [⟨.ofText "k", .list .sevens, .list⟩, ⟨.ofText "x", .scalar (.int .i32 5), .i32⟩]

/-- They have the same tags: in place of text with markup in it there are a truth value and a number. -/
theorem Table.toXml_tags_motley :
    let C := Catalogue.specimens
    Kind.table.SameTags C (.table .markedUp) .table (.table .plainlyKept) ∧ Unmarked "r" ∧
      tags (Table.markedUp.toXml C "r") = tags (Table.plainlyKept.toXml C "r") ∧
      Kind.table.ElementOf C (.table .markedUp) "r" (Table.markedUp.toXml C "r") := by
  intro C
  have hkey (name : String) : Kind.textCaseBlind.format C (.ofText name) = Kind.text.format C (.ofText name) :=
    Kind.format_eq_of_accepts (by decide) (by decide) rfl rfl
  have hinner : Kind.table.SameTags C (.table .sevens) .list (.list .sevens) := by
    refine .parts rfl rfl [(⟨.scalar (.int .i32 7), .ofText "</k>&lt;", .text⟩, ⟨.ofText "7", .scalar (.bool true), .bool⟩)]
      rfl rfl ?_ ?_ ?_
    · exact List.forall_mem_singleton.2 (by decide)
    · exact List.forall_mem_singleton.2 (by decide)
    · exact List.forall_mem_singleton.2 (.flat (by decide) (by decide))
  have hmotley : Kind.table.SameTags C (.table .markedUp) .table (.table .plainlyKept) := by
    refine .parts rfl rfl
      [(⟨.ofText "k", .table .sevens, .table⟩, ⟨.ofText "k", .list .sevens, .list⟩),
        (⟨.ofText "x", .ofBytes (Utf8.encode "<b>&"), .bytes⟩, ⟨.ofText "x", .scalar (.int .i32 5), .i32⟩)]
      rfl rfl ?_ ?_ ?_
    · exact List.forall_mem_cons.2 ⟨hkey "k", List.forall_mem_singleton.2 (hkey "x")⟩
    · exact List.forall_mem_cons.2 ⟨by decide, List.forall_mem_singleton.2 (by decide)⟩
    · exact List.forall_mem_cons.2 ⟨hinner, List.forall_mem_singleton.2 (.flat (by decide) (by decide))⟩
  have hname : Unmarked "r" := by decide
  obtain ⟨htags, helement, -⟩ := toXml_tags C hmotley hname
  exact ⟨hmotley, hname, htags, helement⟩

/-- A table whose keys of text came under the kind `i32`. The keys and values are as before, but not the tags. -/
theorem Table.toXml_foreign_keys :
    let C := Catalogue.specimens
    let t := (Table.empty .text Table.minCapacity).addAll C [⟨.ofText "a", .scalar (.int .i32 1), .i32⟩]
    let u := t.setKeyKind .i32
    u.entries = t.entries ∧
      (∀ e ∈ t.entries, e.kind.base.Flat ∧ e.kind.accepts C e.value = true ∧
        Unmarked (t.keyKind.format C e.key) ∧ Unmarked (u.keyKind.format C e.key)) ∧
      tags (t.toXml C "r") ≠ tags (u.toXml C "r") := by
  refine ⟨rfl, ?_, by decide⟩
  exact List.forall_mem_singleton.2 ⟨by decide, rfl, by decide, by decide⟩

end OrderedTable
