import Mathlib.Data.List.Infix
import OrderedTable.Proofs.Markup.Flat
import OrderedTable.Proofs.Markup.Openings

/-!
# The name of the wrapper

What is in the wrapper element is read in the same way whatever the wrapper is called, as far as its closing tag is not
taken for that of an element inside. That is so if none of the names behind a `<` in its content is the start of the
wrapper's (`children_append_closingTag`).

But where the content begins is found by the byte before the first `>`, so a name that ends in a character of several
bytes hides it all (`children_enclosed`). Two wrappers around the same content give tables with the same entries just
if both names end in a character of one byte, or neither does, or there is no tag in the content
(`Table.ofXml?_enclosed`).
-/

namespace OrderedTable

open Text

namespace Markup

variable {cs name w : List Char} {c : Char}

/-! ## Children before a closing tag -/

namespace Tag

variable {t : Tag}

/-- A closing tag behind a text is not looked at for what is closed in the text. -/
theorem close?_append_of_some {content rest : List Char} (h : t.close? = some (content, rest)) (w : List Char) :
    close? ⟨t.name, t.after.map (· ++ closingTag w)⟩ = some (content, rest ++ closingTag w) := by
  obtain ⟨after, hafter, hcut⟩ := Option.bind_eq_some_iff.1 h
  rw [close?, hafter]
  exact cutAt?_append_of_some hcut _

/-- It closes what is open in the text if it starts with its name. -/
theorem close?_append_of_none (hcs : TagsEnd cs) (hread : read? cs = some t) (h : t.close? = none) (hw : '<' ∉ w) :
    close? ⟨t.name, t.after.map (· ++ closingTag w)⟩ =
      if t.name <+: w then t.after.map (·, closingTag w) else none := by
  have hbracket := not_mem_name hread
  -- an element that is closed by its slash is not looked behind
  cases hafter : t.after with
  | none =>
    rw [Option.map_none, Option.map_none, ite_self]
    rfl
  | some after =>
    obtain ⟨before, rfl⟩ := read?_eq_append hread hafter
    have hends : TagsEnd after := hcs.suffix ⟨before ++ ['>'], by simp⟩
    rw [close?, hafter] at h
    have hpasses := hends.passes hbracket (cutAt?_eq_none_iff.1 h)
    show cutAt? (closingWord t.name) (after ++ closingTag w) = _
    split
    · next hstart => exact hpasses.cutAt?_append (by simpa using closingWord_starts hstart [])
    · next hstart =>
      have hclosing := Passes.closing_of_not_mem hbracket hw hstart
      rw [hpasses, cutAt?_eq_none_iff.2 (hclosing.not_infix nofun)]
      rfl

end Tag

/-- A child that starts in a text starts there whatever comes behind. -/
theorem children_tag_append (hends : '>' ∈ cs) (hslash : cs.head? ≠ some '/') {t : Tag}
    (hread : Tag.read? cs = some t) (more : List Char) : children ('<' :: cs ++ more) =
      match Tag.close? ⟨t.name, t.after.map (· ++ more)⟩ with
      | none => ⟨t.name, []⟩ :: children (cs ++ more)
      | some (content, rest) => ⟨t.name, content⟩ :: children rest.tail := by
  obtain ⟨t', hread', hmore⟩ := Tag.read?_append hends more
  obtain rfl := Option.some.inj (hread'.symm.trans hread)
  rw [← List.head?_append_of_ne_nil _ (List.ne_nil_of_mem hends)] at hslash
  exact children_tag hslash hmore

/-- Where a start tag ends there is a child. -/
theorem children_ne_nil (hends : '>' ∈ cs) (hslash : cs.head? ≠ some '/') (more : List Char) :
    children ('<' :: cs ++ more) ≠ [] := by
  obtain ⟨t, hread, -⟩ := Tag.read?_append hends []
  rw [children_tag_append hends hslash hread]
  split
  · exact List.cons_ne_nil _ _
  · exact List.cons_ne_nil _ _

/-- Behind the `<` of a closing tag there is none. -/
theorem children_tail_closingTag (hw : '<' ∉ w) : children (closingTag w).tail = [] :=
  children_plain (by simpa [closingTag, closingWord] using hw)

/-- A name may be that of the wrapper of a content with these names in it. -/
structure Wraps (names : List (List Char)) (w : List Char) : Prop where
  plain : ∀ c ∈ w, inName c = true ∧ c ≠ '<'
  apart : ∀ n ∈ names, n ≠ [] → ¬ n <+: w
  bare : ∀ word ∈ wrapperWords, ¬ word <:+: w

instance (names : List (List Char)) (w : List Char) : Decidable (Wraps names w) :=
  decidable_of_iff (w.all (fun c => inName c && c ≠ '<') ∧ (∀ n ∈ names, n ≠ [] → ¬ n <+: w) ∧
      ∀ word ∈ wrapperWords, ¬ word <:+: w) <| by
    rw [List.all_eq_true]
    simp only [Bool.and_eq_true, decide_eq_true_eq]
    exact ⟨fun ⟨plain, apart, bare⟩ => ⟨plain, apart, bare⟩, fun h => ⟨h.plain, h.apart, h.bare⟩⟩

namespace Wraps

variable {names more : List (List Char)}

/-- Of fewer names there is less to ask. -/
theorem mono (h : Wraps names w) (hsub : more ⊆ names) : Wraps more w :=
  ⟨h.plain, fun n hn => h.apart n (hsub hn), h.bare⟩

/-- A wrapper's name has no markup in it. -/
theorem not_mem (h : Wraps names w) : '<' ∉ w ∧ '>' ∉ w :=
  ⟨fun hmem => (h.plain _ hmem).2 rfl, fun hmem => (endsName_of_inName (h.plain _ hmem).1).2.1 rfl⟩

/-- Such a name does not start with that of a start tag, but for the empty one. -/
theorem prefix_iff (h : Wraps (nameAhead cs :: names) w) (hends : '>' ∈ cs) (hslash : cs.head? ≠ some '/') {t : Tag}
    (hread : Tag.read? cs = some t) : t.name <+: w ↔ t.name = [] := by
  -- the name ahead is the start of the tag's name, and is not the start of the wrapper's
  refine ⟨fun hstart => ?_, fun hnil => hnil ▸ List.nil_prefix⟩
  exact Tag.name_eq_nil hends hslash hread (fun c hc => (h.plain c hc).1) (h.apart _ List.mem_cons_self) hstart

end Wraps

/-- So the children in a text are the same whichever closing tag comes behind it. By induction on how the text is cut:
what is closed in it is not changed by what comes behind, and what is not closed in it is not closed behind either. -/
theorem children_append_closingTag {v : List Char} (hcs : TagsEnd cs) (hv : Wraps (openings cs) v)
    (hw : Wraps (openings cs) w) : children (cs ++ closingTag v) = children (cs ++ closingTag w) := by
  fun_induction children cs with
  | case1 => exact (children_closing _).trans (children_closing _).symm
  | case2 c cs hc ih =>
    rw [openings_of_ne hc] at hv hw
    rw [List.cons_append, List.cons_append, children, if_pos hc, children, if_pos hc, ih hcs.2 hv hw]
  | case3 c cs hc hslash =>
    obtain rfl := not_not.1 hc
    obtain ⟨rest, rfl⟩ := List.head?_eq_some_iff.1 hslash
    exact (children_closing _).trans (children_closing _).symm
  | case4 c cs hc hslash hread ih =>
    obtain ⟨t, hsome, -⟩ := Tag.read?_append (hcs.1 (not_not.1 hc)) []
    cases hread.symm.trans hsome
  | case5 c cs hc hslash t hread hclose ih =>
    obtain rfl := not_not.1 hc
    have hends := hcs.1 rfl
    rw [openings_cons hslash] at hv hw
    have hrest : children (cs ++ closingTag v) = children (cs ++ closingTag w) :=
      ih hcs.2 (hv.mono (List.subset_cons_self _ _)) (hw.mono (List.subset_cons_self _ _))
    rw [children_tag_append hends hslash hread, children_tag_append hends hslash hread, hrest,
      Tag.close?_append_of_none hcs.2 hread hclose hv.not_mem.1, Tag.close?_append_of_none hcs.2 hread hclose
        hw.not_mem.1]
    simp only [hv.prefix_iff hends hslash hread, hw.prefix_iff hends hslash hread]
    split_ifs with hnil
    · -- without a name the child is closed by any tag, and then nothing comes
      cases t.after with
      | none => rfl
      | some after =>
        simp only [Option.map_some, children_tail_closingTag hv.not_mem.1, children_tail_closingTag hw.not_mem.1]
    · rfl
  | case6 c cs hc hslash t hread content rest hclose ih =>
    obtain rfl := not_not.1 hc
    have hends := hcs.1 rfl
    rw [openings_cons hslash] at hv hw
    obtain ⟨before, hsplit, ⟨closing, rfl⟩⟩ := Tag.close?_eq_append hread hclose
    have hsuffix : '/' :: t.name ++ closing <:+ cs :=
      ⟨before ++ '>' :: (content ++ ['<']), by rw [hsplit]; simp⟩
    have hsub : openings ('/' :: t.name ++ closing) ⊆ nameAhead cs :: openings cs := fun n hn =>
      List.mem_cons_of_mem _ ((openings_suffix hsuffix).subset hn)
    rw [children_tag_append hends hslash hread, children_tag_append hends hslash hread,
      Tag.close?_append_of_some hclose, Tag.close?_append_of_some hclose]
    exact congrArg (_ :: ·) (ih (hcs.2.suffix hsuffix) (hv.mono hsub) (hw.mono hsub))

/-! ## Content -/

/-- A start tag's name, and what is behind it up to the tag's end, attributes as it were. -/
structure IsTag (name inside : List Char) : Prop where
  nonempty : name ≠ []
  plain : ∀ c ∈ name, inName c = true ∧ c ≠ '<'
  spaced : ∀ c ∈ inside.head?, isBlank c = true
  unmarked : '<' ∉ inside

instance (name inside : List Char) : Decidable (IsTag name inside) :=
  decidable_of_iff (name ≠ [] ∧ name.all (fun c => inName c && c ≠ '<') ∧ inside.head?.all isBlank ∧ '<' ∉ inside) <| by
    rw [List.all_eq_true, Option.all_eq_true]
    simp only [Bool.and_eq_true, decide_eq_true_eq]
    exact ⟨fun ⟨nonempty, plain, spaced, unmarked⟩ => ⟨nonempty, plain, spaced, unmarked⟩,
      fun h => ⟨h.nonempty, h.plain, h.spaced, h.unmarked⟩⟩

/-- The content of an element, with the names behind a `<` in it: text, elements, and what stands between `<!` or `<?`
and a `>`, which are comments, sections of plain text and instructions. -/
inductive Content : List (List Char) → List Char → Prop
  | nil : Content [] []
  | text {c : Char} {names : List (List Char)} {more : List Char} (hc : c ≠ '<') (hmore : Content names more) :
    Content names (c :: more)
  | empty {name inside more : List Char} {names : List (List Char)} (htag : IsTag name inside)
    (hmore : Content names more) : Content (name :: names) ('<' :: (name ++ (inside ++ '/' :: '>' :: more)))
  | element {name inside content blanks more : List Char} {inner names : List (List Char)} (htag : IsTag name inside)
    (hcontent : Content inner content) (hblanks : ∀ c ∈ blanks, isBlank c = true) (hmore : Content names more) :
    Content (name :: (inner ++ names))
      ('<' :: (name ++ (inside ++ '>' :: (content ++ ('<' :: '/' :: (name ++ (blanks ++ '>' :: more)))))))
  | aside {mark : Char} {inside more : List Char} {names : List (List Char)} (hmark : mark = '!' ∨ mark = '?')
    (hmore : Content names more) :
    Content (openings ('<' :: mark :: (inside ++ ['>'])) ++ names) ('<' :: mark :: (inside ++ '>' :: more))

namespace IsTag

variable {inside : List Char} (h : IsTag name inside)
include h

/-- A start tag has one `<`. -/
theorem not_mem : '<' ∉ name ++ inside := by
  rw [List.mem_append, not_or]
  exact ⟨fun hmem => (h.plain _ hmem).2 rfl, h.unmarked⟩

/-- Nor is there a `<` in its closing tag behind the first. -/
theorem not_mem_closing {blanks : List Char} (hblanks : ∀ c ∈ blanks, isBlank c = true) : '<' ∉ name ++ blanks := by
  rw [List.mem_append, not_or]
  exact ⟨fun hmem => (h.plain _ hmem).2 rfl, fun hmem => absurd (hblanks _ hmem) (by decide)⟩

/-- A start tag is no closing tag. -/
theorem head?_append (more : List Char) : (name ++ more).head? ≠ some '/' := by
  obtain ⟨c, rest, rfl⟩ := List.exists_cons_of_ne_nil h.nonempty
  intro heq
  have hc : c = '/' := Option.some.inj heq
  exact (endsName_of_inName (h.plain c List.mem_cons_self).1).2.2 hc

/-- The name ahead of a start tag is its own. -/
theorem nameAhead_append (hc : inName c = false) (more : List Char) :
    nameAhead (name ++ (inside ++ c :: more)) = name := by
  -- behind the name is a blank or the end of the tag
  have hend : (inside ++ c :: more).takeWhile inName = [] := by
    cases hinside : inside with
    | nil => exact List.takeWhile_cons_of_neg (by simp [hc])
    | cons d rest =>
      have hblank : isBlank d = true := h.spaced d (hinside ▸ List.head?_cons)
      exact List.takeWhile_cons_of_neg (by simp [inName, hblank])
  rw [nameAhead, List.takeWhile_append_of_pos fun d hd => (h.plain d hd).1, hend, List.append_nil]

/-- A start tag adds its name. -/
theorem openings_append (hc : inName c = false) (hopens : c ≠ '<') (more : List Char) :
    openings ('<' :: (name ++ (inside ++ c :: more))) = name :: openings more := by
  rw [openings_cons (h.head?_append _), h.nameAhead_append hc, ← List.append_assoc, openings_text h.not_mem,
    openings_of_ne hopens]

/-- A start tag with its end adds nothing that does not end. -/
theorem tagsEnd (hopens : c ≠ '<') (hmem : '>' ∈ c :: more) (hmore : TagsEnd more) :
    TagsEnd ('<' :: (name ++ (inside ++ c :: more))) := by
  refine ⟨fun _ => List.mem_append_right _ (List.mem_append_right _ hmem), ?_⟩
  rw [← List.append_assoc]
  exact (TagsEnd.of_not_mem h.not_mem).append ⟨fun hc => absurd hc hopens, hmore⟩

end IsTag

namespace Content

variable {names : List (List Char)} {text : List Char}

/-- In a content every tag ends. -/
theorem tagsEnd (h : Content names text) : TagsEnd text := by
  induction h with
  | nil => trivial
  | text hc _ ih => exact ⟨fun heq => absurd heq hc, ih⟩
  | empty htag _ ih => exact htag.tagsEnd (by decide) (by simp) ⟨nofun, ih⟩
  | @element name inside content blanks more _ _ htag _ hblanks _ ihcontent ihmore =>
    have hclosing : TagsEnd ('<' :: '/' :: (name ++ (blanks ++ '>' :: more))) := by
      have hname : '<' ∉ '/' :: (name ++ (blanks ++ ['>'])) := by simpa using htag.not_mem_closing hblanks
      refine ⟨fun _ => by simp, ?_⟩
      simpa using (TagsEnd.of_not_mem hname).append ihmore
    exact htag.tagsEnd (by decide) (by simp) (ihcontent.append hclosing)
  | @aside mark inside _ _ _ _ ih => simpa using (TagsEnd.concat ('<' :: mark :: inside)).append ih

/-- The names in a content are those that it was built with. -/
theorem openings_eq (h : Content names text) : openings text = names := by
  induction h with
  | nil => rfl
  | text hc _ ih => rw [openings_of_ne hc, ih]
  | empty htag _ ih => rw [htag.openings_append (by decide) (by decide), openings_of_ne (by decide), ih]
  | @element name inside content blanks more _ _ htag hcontent hblanks _ ihcontent ihmore =>
    rw [htag.openings_append (by decide) (by decide), hcontent.tagsEnd.openings_append, ihcontent, openings_closing,
      ← List.append_assoc, openings_text (htag.not_mem_closing hblanks), openings_of_ne (by decide), ihmore]
  | @aside mark inside more _ _ _ ih =>
    have hsplit : '<' :: mark :: (inside ++ '>' :: more) = ('<' :: mark :: inside ++ ['>']) ++ more := by simp
    rw [hsplit, (TagsEnd.concat _).openings_append, ih]
    rfl

/-- There are children in a content just if there are names. -/
theorem children_eq_nil_iff (h : Content names text) (w : List Char) :
    children (text ++ closingTag w) = [] ↔ names = [] := by
  induction h with
  | nil => exact iff_of_true (children_closing _) rfl
  | text hc _ ih =>
    rw [List.cons_append, children, if_pos hc]
    exact ih
  | empty htag _ _ => exact iff_of_false (children_ne_nil (by simp) (htag.head?_append _) _) (List.cons_ne_nil _ _)
  | element htag _ _ _ _ _ =>
    exact iff_of_false (children_ne_nil (by simp) (htag.head?_append _) _) (List.cons_ne_nil _ _)
  | @aside mark _ _ _ hmark _ _ =>
    have hslash : mark ≠ '/' := by rcases hmark with rfl | rfl <;> decide
    refine iff_of_false (children_ne_nil (by simp) (by simpa using hslash) _) ?_
    rw [openings_cons (by simpa using hslash)]
    exact List.cons_ne_nil _ _

end Content

/-! ## Wrapping -/

/-- An element with this name and content. -/
def enclosed (w text : List Char) : List Char := '<' :: (w ++ '>' :: (text ++ closingTag w))

/-- Whether a name ends in a character of one byte. -/
def endsInByte (w : List Char) : Bool := w.getLast?.all (·.utf8Size = 1)

variable {names : List (List Char)} {text v : List Char}

/-- The children of an element are those in its content, if its name ends in a character of one byte, and none else. -/
theorem children_enclosed (hw : Wraps names w) (hbare : ∀ word ∈ wrapperWords, ¬ word <:+: text) :
    children (body (enclosed w text)) = if endsInByte w then children (text ++ closingTag w) else [] := by
  have hbracket : '>' ∉ '<' :: w := by simp [hw.not_mem.2]
  have hwords : ∀ word ∈ wrapperWords, ¬ word <:+: enclosed w text := by
    intro word hword
    obtain ⟨hopen, hclose⟩ := passes_tags hword (hw.bare word hword) (hbare word hword)
    have hpasses : Passes word ('<' :: (w ++ ['>']) ++ (text ++ closingTag w)) := hopen.append hclose
    simpa [enclosed] using hpasses.not_infix fun hnil => not_infix_nil hword (hnil ▸ List.infix_rfl)
  -- the character before the `>` is the last of the name, or the `<` if the name is empty
  have hlast : (beforeTagEnd (enclosed w text)).getLast?.all (·.utf8Size = 1) = endsInByte w := by
    have htag : beforeTagEnd (enclosed w text) = '<' :: w := takeWhile_append hbracket _
    rw [htag, endsInByte]
    cases w with
    | nil => rfl
    | cons c w => rw [List.getLast?_cons_cons]
  rw [body, children_seek, wrapper_of_bare hwords, hlast]
  split_ifs
  · have hseek : seek '>' (enclosed w text) = '>' :: (text ++ closingTag w) := seek_append hbracket _
    rw [hseek, children, if_pos (by decide)]
  · exact children_plain (List.not_mem_nil)

end Markup

open Markup

/-- A table has an entry for each child. -/
theorem Table.length_scan (C : Catalogue) (cs : List Char) :
    (Table.scan C cs).entries.length = (children (body cs)).length := by
  rw [Table.scan_eq, (Table.addAll_children_perm C _).length_eq, List.length_map]

/-- Two elements have the same content. Neither in it nor in their names is there a word that makes another element the
wrapper, and no name in the content is the start of theirs. Then they give tables with the same entries just if the
last characters of both names are of one byte, or of neither, or if there are no tags in the content. -/
theorem Table.ofXml?_enclosed (C : Catalogue) {names : List (List Char)} {text : List Char} (h : Content names text)
    (hbare : ∀ word ∈ wrapperWords, ¬ word <:+: text) {v w : List Char} (hv : Wraps names v) (hw : Wraps names w) :
    ∃ t u, Table.ofXml? C (String.ofList (enclosed v text)) = some t ∧
      Table.ofXml? C (String.ofList (enclosed w text)) = some u ∧
      (t.entries = u.entries ↔ endsInByte v = endsInByte w ∨ names = []) := by
  have hv' := children_enclosed hv hbare
  have hw' := children_enclosed hw hbare
  refine ⟨_, _, Table.ofXml?_tag C _, Table.ofXml?_tag C _, fun heq => ?_, fun hsame => ?_⟩
  · -- tables with the same entries have as many children
    have hlength : (children (body (enclosed v text))).length = (children (body (enclosed w text))).length :=
      (Table.length_scan C _).symm.trans ((congrArg List.length heq).trans (Table.length_scan C _))
    by_contra hnot
    obtain ⟨hends, hnames⟩ := not_or.1 hnot
    have hchildren : ∀ w, (children (text ++ closingTag w)).length ≠ 0 := fun w hzero =>
      hnames ((h.children_eq_nil_iff w).1 (List.length_eq_zero_iff.1 hzero))
    rw [hv', hw'] at hlength
    split_ifs at hlength with hvends hwends hwends
    · exact hends (hvends.trans hwends.symm)
    · exact hchildren v hlength
    · exact hchildren w hlength.symm
    · exact hends ((Bool.eq_false_iff.2 hvends).trans (Bool.eq_false_iff.2 hwends).symm)
  · have hchildren : children (body (enclosed v text)) = children (body (enclosed w text)) := by
      rw [hv', hw']
      rcases hsame with hends | rfl
      · rw [hends, children_append_closingTag h.tagsEnd (h.openings_eq.symm ▸ hv) (h.openings_eq.symm ▸ hw)]
      · rw [(h.children_eq_nil_iff v).2 rfl, (h.children_eq_nil_iff w).2 rfl, ite_self, ite_self]
    change (Table.scan C (enclosed v text)).entries = (Table.scan C (enclosed w text)).entries
    rw [Table.scan_eq, Table.scan_eq, hchildren]

/-- It does not matter in which characters a name begins. The content has an attribute, an element in another, and a
comment with a tag in it. -/
theorem Table.ofXml?_enclosed_umlaut :
    let text := ['<', 'a', ' ', 'x', '=', '"', '1', '"', '/', '>', '<', 'b', '>', '<', 'a', '>', '1', '<', '/', 'a',
      '>', '<', '!', '-', '-', ' ', '<', 'c', '>', ' ', '-', '-', '>', '<', '/', 'b', '>']
    let names := [['a'], ['b'], ['a'], ['!', '-', '-'], ['c']]
    String.ofList text = "<a x=\"1\"/><b><a>1</a><!-- <c> --></b>" ∧
      Content names text ∧ (∀ word ∈ wrapperWords, ¬ word <:+: text) ∧ Wraps names ['r'] ∧ Wraps names ['ö', 'r'] ∧
      ∃ t u, Table.ofXml? .specimens (String.ofList (enclosed ['r'] text)) = some t ∧
        Table.ofXml? .specimens (String.ofList (enclosed ['ö', 'r'] text)) = some u ∧ t.entries = u.entries := by
  intro text names
  have hcomment : Content [['!', '-', '-'], ['c']] ['<', '!', '-', '-', ' ', '<', 'c', '>', ' ', '-', '-', '>'] :=
    @Content.aside '!' ['-', '-', ' ', '<', 'c', '>', ' ', '-', '-'] [] [] (.inl rfl) .nil
  have hleaf : Content [['a'], ['!', '-', '-'], ['c']] ('<' :: 'a' :: '>' :: '1' :: '<' :: '/' :: 'a' :: '>' :: _) :=
    @Content.element ['a'] [] ['1'] [] _ _ _ (by decide) (.text (by decide) .nil) nofun hcomment
  have hcontent : Content names text :=
    @Content.empty ['a'] [' ', 'x', '=', '"', '1', '"'] _ _ (by decide)
      (@Content.element ['b'] [] _ [] [] _ _ (by decide) hleaf nofun .nil)
  have hbare : ∀ word ∈ wrapperWords, ¬ word <:+: text := by decide
  have hv : Wraps names ['r'] := by decide
  have hw : Wraps names ['ö', 'r'] := by decide
  obtain ⟨t, u, ht, hu, hentries⟩ := ofXml?_enclosed .specimens hcontent hbare hv hw
  exact ⟨by decide, hcontent, hbare, hv, hw, t, u, ht, hu, hentries.2 (.inl rfl)⟩

/-- A name that ends in a character of two bytes hides the content. -/
theorem Table.ofXml?_enclosed_hidden :
    let text := ['<', 'a', '>', '1', '<', '/', 'a', '>']
    Content [['a']] text ∧ (∀ word ∈ wrapperWords, ¬ word <:+: text) ∧ Wraps [['a']] ['e'] ∧ Wraps [['a']] ['é'] ∧
      String.ofList (enclosed ['e'] text) = "<e><a>1</a></e>" ∧
      String.ofList (enclosed ['é'] text) = "<é><a>1</a></é>" ∧
      ∃ t u, Table.ofXml? .specimens (String.ofList (enclosed ['e'] text)) = some t ∧
        Table.ofXml? .specimens (String.ofList (enclosed ['é'] text)) = some u ∧
        t.entries = [⟨.ofText "a", .ofBytes [0x31], .bytes⟩] ∧ u.entries = [] := by
  intro text
  have hcontent : Content [['a']] text :=
    @Content.element ['a'] [] ['1'] [] [] _ _ (by decide) (.text (by decide) .nil) nofun .nil
  have hbare : ∀ word ∈ wrapperWords, ¬ word <:+: text := by decide
  have hv : Wraps [['a']] ['e'] := by decide
  have hw : Wraps [['a']] ['é'] := by decide
  have hchildren : children (text ++ closingTag ['e']) = [⟨['a'], ['1']⟩] := by
    have hname : IsName ['a'] := by decide
    have htag := hname.read?_plain ('1' :: (closingTag ['a'] ++ closingTag ['e']))
    have hplain : Passes (closingWord ['a']) ['1'] := Passes.plain (by decide)
    exact (children_element hname List.prefix_rfl hname htag hplain).trans (congrArg _ (children_closing _))
  refine ⟨hcontent, hbare, hv, hw, by decide, by decide, _, _, ofXml?_tag _ _, ofXml?_tag _ _, ?_, ?_⟩
  · have hperm := addAll_children_perm .specimens [⟨['a'], ['1']⟩]
    have hbody : children (body (enclosed ['e'] text)) = [⟨['a'], ['1']⟩] :=
      (children_enclosed hv hbare).trans ((if_pos (by decide)).trans hchildren)
    change (Table.scan _ (enclosed ['e'] text)).entries = _
    rw [Table.scan_eq, hbody, List.perm_singleton.1 hperm]
    exact congrArg (fun x => [x]) (Child.entry_of_plain (by decide))
  · have hbody : children (body (enclosed ['é'] text)) = [] := (children_enclosed hw hbare).trans (if_neg (by decide))
    have hzero := Table.length_scan .specimens (enclosed ['é'] text)
    rw [hbody] at hzero
    exact List.length_eq_zero_iff.1 hzero

end OrderedTable
