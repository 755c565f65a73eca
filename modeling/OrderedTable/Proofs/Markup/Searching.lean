import OrderedTable.Markup.Scan

/-!
# Where the searches of the scanner end

The scanner looks for every delimiter in all the text that is left. In a text that is put together from tags and plain
text a search ends at the delimiter that it is meant for, if it finds nothing in the pieces before. A search for a word
*passes* a piece of text (`Passes`) if no occurrence starts in it, whatever follows. Of a sequence of pieces it passes
all if it passes each (`Passes.append`), so this is asked of one tag or text at a time.

From this it follows how a start tag is read (`Tag.read?_plain`, `Tag.read?_spaced`, `Tag.read?_closed`), that an
element is one child (`children_element`), and where the children of an element begin (`body_element`).
-/

namespace OrderedTable

namespace Markup

variable {word piece more name text : List Char} {c : Char}

/-! ## Words -/

/-- A text that starts with the word is cut at its start. -/
theorem cutAt?_of_starts (h : word <+: more) : cutAt? word more = some ([], more) := by
  cases more with
  | nil => rw [cutAt?, if_pos (List.isPrefixOf_iff_prefix.2 h)]
  | cons c more => rw [cutAt?, if_pos (List.isPrefixOf_iff_prefix.2 h)]

/-- Nothing is found just if the word does not occur. -/
theorem cutAt?_eq_none_iff : cutAt? word text = none ↔ ¬ word <:+: text := by
  induction text with
  | nil =>
    rw [cutAt?, List.infix_nil]
    cases word <;> simp
  | cons c text ih =>
    rw [cutAt?, List.infix_cons_iff, not_or, ← ih]
    -- the word starts here, or else the search goes on
    by_cases hstart : word <+: c :: text
    · simp [List.isPrefixOf_iff_prefix.2 hstart, hstart]
    · rw [if_neg (by simpa using hstart), Option.map_eq_none_iff]
      exact (and_iff_right hstart).symm

/-- A search for the word finds nothing that starts in the piece, whatever follows. -/
def Passes (word piece : List Char) : Prop :=
  ∀ more, cutAt? word (piece ++ more) = (cutAt? word more).map fun (before, rest) => (piece ++ before, rest)

namespace Passes

theorem nil : Passes word [] := by
  intro more
  rw [List.nil_append]
  cases cutAt? word more <;> rfl

/-- A character is passed if the word never starts at it. -/
theorem cons (h : ∀ more, ¬ word <+: c :: (piece ++ more)) (hpiece : Passes word piece) :
    Passes word (c :: piece) := by
  intro more
  rw [List.cons_append, cutAt?, if_neg (by simpa using h more), hpiece more]
  cases cutAt? word more <;> rfl

/-- Pieces are passed one after the other. -/
theorem append {piece' : List Char} (h : Passes word piece) (h' : Passes word piece') :
    Passes word (piece ++ piece') := by
  intro more
  rw [List.append_assoc, h, h', Option.map_map]
  refine congrArg (Option.map · (cutAt? word more)) (funext fun found => ?_)
  exact congrArg (·, found.2) (List.append_assoc piece piece' found.1).symm

/-- And so are many of them. -/
theorem flatMap {α : Type} {pieces : List α} {f : α → List Char} (h : ∀ a ∈ pieces, Passes word (f a)) :
    Passes word (pieces.flatMap f) := by
  induction pieces with
  | nil => exact nil
  | cons a pieces ih =>
    obtain ⟨ha, hpieces⟩ := List.forall_mem_cons.1 h
    exact ha.append (ih hpieces)

/-- A word that starts with a character cannot start where there is none. -/
theorem of_not_mem (h : c ∉ piece) : Passes (c :: word) piece := by
  induction piece with
  | nil => exact nil
  | cons d piece ih =>
    rw [List.mem_cons, not_or] at h
    exact cons (fun more hstart => h.1 (List.cons_prefix_cons.1 hstart).1) (ih h.2)

/-- A word does not go on behind a character that is not in it. -/
theorem prefix_of_not_mem {xs ys : List Char} (hc : c ∉ word) (h : word <+: xs ++ c :: ys) : word <+: xs := by
  -- a longer word would have the character in it
  rcases Nat.le_total word.length xs.length with hle | hle
  · exact List.prefix_of_prefix_length_le h (List.prefix_append _ _) hle
  · rcases Nat.eq_or_lt_of_le hle with heq | hlt
    · exact List.prefix_of_prefix_length_le h (List.prefix_append _ _) (Nat.le_of_eq heq.symm)
    · have hends : xs ++ [c] <+: xs ++ c :: ys := ⟨ys, by simp⟩
      have hmem : xs ++ [c] <+: word := List.prefix_of_prefix_length_le hends h (by simpa using Nat.succ_le_of_lt hlt)
      exact absurd (hmem.mem (List.mem_append_right _ List.mem_cons_self)) hc

/-- So it is found nowhere in a piece that ends in such a character if it does not occur before that. -/
theorem ended (hc : c ∉ word) (h : ¬ word <:+: piece) : Passes word (piece ++ [c]) := by
  -- at every character of the piece, a word that starts there would have to end before the last one
  induction piece with
  | nil =>
    refine cons (fun more hstart => h ?_) nil
    exact (@prefix_of_not_mem word c [] more hc hstart).isInfix
  | cons d piece ih =>
    rw [List.infix_cons_iff, not_or] at h
    refine cons (fun more hstart => h.1 ?_) (ih h.2)
    refine @prefix_of_not_mem word c (d :: piece) more hc ?_
    simpa using hstart

/-- A search finds what follows a piece that it passes. -/
theorem cutAt?_append (h : Passes word piece) (hmore : word <+: more) :
    cutAt? word (piece ++ more) = some (piece, more) := by
  rw [h, cutAt?_of_starts hmore]
  exact congrArg (fun before => some (before, more)) (List.append_nil piece)

/-- Nor is there any occurrence in a piece that is passed. -/
theorem not_infix (h : Passes word piece) (hne : word ≠ []) : ¬ word <:+: piece := by
  have hempty : cutAt? word [] = none := cutAt?_eq_none_iff.2 fun hinfix => hne (List.infix_nil.1 hinfix)
  have hnone := h []
  rw [List.append_nil, hempty, Option.map_none] at hnone
  exact cutAt?_eq_none_iff.1 hnone

end Passes

/-! ## Names and tags -/

/-- The name of an element: ASCII letters and digits, at least one. -/
structure IsName (name : List Char) : Prop where
  nonempty : name ≠ []
  plain : ∀ c ∈ name, c.isAlphanum

instance (name : List Char) : Decidable (IsName name) :=
  decidable_of_iff (name ≠ [] ∧ name.all Char.isAlphanum) <| by
    rw [List.all_eq_true]
    exact ⟨fun h => ⟨h.1, h.2⟩, fun h => ⟨h.1, h.2⟩⟩

/-- What is no letter or digit is in no name. -/
theorem IsName.not_mem (h : IsName name) (hc : c.isAlphanum = false) : c ∉ name := fun hmem =>
  Bool.false_ne_true (hc.symm.trans (h.plain c hmem))

/-- A search for the start of a name's closing tag. -/
def closingWord (name : List Char) : List Char := '<' :: '/' :: name

/-- The closing tag of an element. -/
def closingTag (name : List Char) : List Char := closingWord name ++ ['>']

/-- A closing tag is found by its name, and by every start of its name. -/
theorem closingWord_starts {outer : List Char} (h : outer <+: name) (more : List Char) :
    closingWord outer <+: closingTag name ++ more := by
  rw [closingTag, List.append_assoc]
  exact (List.prefix_append_right_inj ['<', '/']).2 (h.trans (List.prefix_append _ _))

/-- A search for a closing tag passes a text without tags. -/
theorem Passes.plain (h : '<' ∉ text) : Passes (closingWord name) text := of_not_mem h

/-- A search for a closing tag passes whatever else starts with a name. -/
theorem Passes.opening {outer inside : List Char} (hname : IsName name) (h : '<' ∉ inside) :
    Passes (closingWord outer) ('<' :: (name ++ inside)) := by
  -- behind the `<` of the word is a slash, behind that of the tag a name
  refine cons (fun more hstart => ?_) (of_not_mem ?_)
  · obtain ⟨c, rest, hcons⟩ := List.exists_cons_of_ne_nil hname.nonempty
    rw [hcons] at hstart
    have hslash : '/' = c := (List.cons_prefix_cons.1 (List.cons_prefix_cons.1 hstart).2).1
    exact hname.not_mem (c := '/') (by decide) (hslash ▸ hcons ▸ List.mem_cons_self)
  · simp [hname.not_mem (c := '<') (by decide), h]

/-- A search for a closing tag passes those of texts that do not start like that. -/
theorem Passes.closing_of_not_mem {outer : List Char} (houter : '>' ∉ outer) (hname : '<' ∉ name)
    (h : ¬ outer <+: name) : Passes (closingWord outer) (closingTag name) := by
  -- the tag ends in a `>`, which the word has not; before it is only one `<`
  refine ended (by simp [closingWord, houter]) fun hinfix => ?_
  rcases List.infix_cons_iff.1 hinfix with hstart | hinfix
  · exact h (List.cons_prefix_cons.1 (List.cons_prefix_cons.1 hstart).2).2
  · have hmem : '<' ∈ '/' :: name := hinfix.mem List.mem_cons_self
    exact hname (by simpa using hmem)

/-- For names it is enough to compare them. -/
theorem Passes.closing {outer : List Char} (houter : IsName outer) (hname : IsName name) (h : ¬ outer <+: name) :
    Passes (closingWord outer) (closingTag name) :=
  closing_of_not_mem (houter.not_mem (by decide)) (hname.not_mem (by decide)) h

/-! ## Start tags -/

/-- A character is sought up to its first occurrence. -/
theorem seek_append (h : c ∉ text) (more : List Char) : seek c (text ++ c :: more) = c :: more := by
  rw [seek, List.dropWhile_append_of_pos, List.dropWhile_cons_of_neg (by simp)]
  intro d hd
  simpa using fun heq : d = c => h (heq ▸ hd)

/-- Where it does not occur nothing is left. -/
theorem seek_eq_nil (h : c ∉ text) : seek c text = [] := by
  rw [seek, ← List.append_nil text, List.dropWhile_append_of_pos, List.dropWhile_nil]
  intro d hd
  simpa using fun heq : d = c => h (heq ▸ hd)

/-- What comes before its first occurrence is the text in front of it. -/
theorem takeWhile_append (h : c ∉ text) (more : List Char) : (text ++ c :: more).takeWhile (· ≠ c) = text := by
  rw [List.takeWhile_append_of_pos (by intro d hd; simpa using fun heq : d = c => h (heq ▸ hd)),
    List.takeWhile_cons_of_neg (by simp), List.append_nil]

/-- Text without tags is not read again. -/
theorem not_looksNested (h : '<' ∉ text) : ¬ looksNested text := by
  rw [looksNested, seek_eq_nil h]
  exact Bool.false_ne_true

/-- A tag ends at its first `>`. -/
theorem afterTag_append (h : '>' ∉ text) (more : List Char) : afterTag (text ++ '>' :: more) = some more := by
  rw [afterTag, seek_append h]

/-- A slash at the end of a name is trimmed away. -/
theorem trimSlashes_slash (name : List Char) : trimSlashes (name ++ ['/']) = trimSlashes name := by
  rw [trimSlashes, trimSlashes, List.reverse_append, List.reverse_singleton, List.singleton_append,
    List.dropWhile_cons_of_pos (by rfl)]

namespace IsName

variable (h : IsName name)
include h

/-- A name has no slash to trim. -/
theorem trimSlashes_eq : trimSlashes name = name := by
  obtain ⟨front, last, rfl⟩ : ∃ front last, name = front ++ [last] :=
    ⟨_, _, (List.dropLast_concat_getLast h.nonempty).symm⟩
  have hlast : last ≠ '/' := fun hslash =>
    h.not_mem (c := '/') (by decide) (hslash ▸ List.mem_append_right _ List.mem_cons_self)
  rw [trimSlashes, List.reverse_append, List.reverse_singleton, List.singleton_append,
    List.dropWhile_cons_of_neg (by simpa using hlast), List.reverse_cons, List.reverse_reverse]

/-- No character of a name ends it. -/
theorem goesOn : ∀ c ∈ name, (!endsName c) = true := by
  intro c hc
  have hplain := h.plain c hc
  rw [Bool.not_eq_true']
  refine Bool.eq_false_iff.2 fun hends => ?_
  simp only [endsName, Bool.or_eq_true, decide_eq_true_eq] at hends
  rcases hends with (rfl | rfl) | rfl <;> exact absurd hplain (by decide)

/-- A tag that is a name and nothing else. -/
theorem read?_plain (after : List Char) : Tag.read? (name ++ '>' :: after) = some ⟨name, some after⟩ := by
  have hgt : '>' ∉ name := h.not_mem (by decide)
  have hlast : name.getLast? ≠ some '/' := fun hlast => h.not_mem (c := '/') (by decide) (List.mem_of_getLast? hlast)
  -- the name ends at the `>`, which is no space
  rw [Tag.read?, List.dropWhile_append_of_pos h.goesOn, List.dropWhile_cons_of_neg (by decide)]
  simp only [afterTag_append hgt, takeWhile_append hgt, h.trimSlashes_eq, hlast, if_false]
  rfl

/-- A tag that a slash closes right behind the name. -/
theorem read?_closed (after : List Char) : Tag.read? (name ++ '/' :: '>' :: after) = some ⟨name, none⟩ := by
  have hgt : '>' ∉ name ++ ['/'] := by simp [h.not_mem (c := '>') (by decide)]
  have htake := takeWhile_append hgt after
  have hafter := afterTag_append hgt after
  have hsplit : name ++ '/' :: '>' :: after = (name ++ ['/']) ++ '>' :: after := by simp
  -- here too, but the last character before it is the slash
  rw [Tag.read?, List.dropWhile_append_of_pos h.goesOn, List.dropWhile_cons_of_pos (by decide),
    List.dropWhile_cons_of_neg (by decide)]
  rw [← hsplit] at hafter htake
  simp only [hafter, htake, trimSlashes_slash, h.trimSlashes_eq, List.getLast?_concat, if_true]
  rfl

/-- In a tag with a space behind the name no slash closes the element. -/
theorem read?_spaced {inside : List Char} (hinside : '>' ∉ inside) (after : List Char) :
    Tag.read? (name ++ ' ' :: (inside ++ '>' :: after)) = some ⟨name, some after⟩ := by
  have hgt : '>' ∉ name ++ ' ' :: inside := by simp [h.not_mem (c := '>') (by decide), hinside]
  have htake : (name ++ ' ' :: (inside ++ '>' :: after)).takeWhile (!endsName ·) = name := by
    rw [List.takeWhile_append_of_pos h.goesOn, List.takeWhile_cons_of_neg (by decide), List.append_nil]
  have hafter := afterTag_append hgt after
  rw [List.append_assoc, List.cons_append] at hafter
  rw [Tag.read?, List.dropWhile_append_of_pos h.goesOn, List.dropWhile_cons_of_neg (by decide)]
  simp only [htake, hafter, h.trimSlashes_eq]

end IsName

/-! ## Children -/

/-- Text without a `<` before the children makes no difference. -/
theorem children_text (h : '<' ∉ text) (more : List Char) : children (text ++ more) = children more := by
  induction text with
  | nil => rfl
  | cons c text ih =>
    rw [List.mem_cons, not_or] at h
    rw [List.cons_append, children, if_pos (Ne.symm h.1), ih h.2]

/-- In text without a `<` there are no children. -/
theorem children_plain (h : '<' ∉ text) : children text = [] := by
  rw [← List.append_nil text, children_text h, children]

/-- What is before the first tag has no children. -/
theorem children_seek (cs : List Char) : children (seek '<' cs) = children cs := by
  have hsplit : cs = cs.takeWhile (· ≠ '<') ++ seek '<' cs := List.takeWhile_append_dropWhile.symm
  have htext : '<' ∉ cs.takeWhile (· ≠ '<') := fun hmem => by simpa using List.all_eq_true.1 List.all_takeWhile _ hmem
  rw [← children_text htext (seek '<' cs), ← hsplit]

/-- A closing tag ends the children. -/
theorem children_closing (more : List Char) : children ('<' :: '/' :: more) = [] := by
  rw [children, if_neg (not_not_intro rfl), if_pos List.head?_cons]

/-- What starts with a tag is a child. -/
theorem children_tag {cs : List Char} {t : Tag} (hslash : cs.head? ≠ some '/') (ht : Tag.read? cs = some t) :
    children ('<' :: cs) =
      match t.close? with
      | none => ⟨t.name, []⟩ :: children cs
      | some (content, rest) => ⟨t.name, content⟩ :: children rest.tail := by
  rw [children, if_neg (not_not_intro rfl), if_neg hslash]
  -- what the loop reads is this tag
  split
  · next hnone => cases hnone.symm.trans ht
  · next t' ht' =>
    cases ht'.symm.trans ht
    split
    · next hclose => rw [hclose]
    · next hclose => rw [hclose]

/-- A tag that does not end is passed over. -/
theorem children_untagged {cs : List Char} (hslash : cs.head? ≠ some '/') (ht : Tag.read? cs = none) :
    children ('<' :: cs) = children cs := by
  rw [children, if_neg (not_not_intro rfl), if_neg hslash]
  split
  · rfl
  · next hsome => cases hsome.symm.trans ht

/-- What starts with a name is a child. -/
theorem children_name (h : IsName name) {cs : List Char} {t : Tag} (ht : Tag.read? (name ++ cs) = some t) :
    children ('<' :: (name ++ cs)) =
      match t.close? with
      | none => ⟨t.name, []⟩ :: children cs
      | some (content, rest) => ⟨t.name, content⟩ :: children rest.tail := by
  obtain ⟨c, rest, hcons⟩ := List.exists_cons_of_ne_nil h.nonempty
  have hslash : (name ++ cs).head? ≠ some '/' := by
    rw [hcons]
    exact fun heq => h.not_mem (c := '/') (by decide) (Option.some.inj heq ▸ hcons ▸ List.mem_cons_self)
  rw [children_tag hslash ht, children_text (h.not_mem (by decide))]

/-- An element that nothing closes is an empty child. -/
theorem children_unclosed (h : IsName name) {cs : List Char} {t : Tag} (ht : Tag.read? (name ++ cs) = some t)
    (hclose : t.close? = none) : children ('<' :: (name ++ cs)) = ⟨t.name, []⟩ :: children cs := by
  rw [children_name h ht, hclose]

/-- An element is one child, with all that is before the first closing tag that starts with its name. -/
theorem children_element (h : IsName name) {tag content ending : List Char} (hstart : name <+: ending)
    (hending : IsName ending)
    (ht : Tag.read? (name ++ tag) = some ⟨name, some (content ++ (closingTag ending ++ more))⟩)
    (hcontent : Passes (closingWord name) content) :
    children ('<' :: (name ++ tag)) = ⟨name, content⟩ :: children more := by
  have hclose : Tag.close? ⟨name, some (content ++ (closingTag ending ++ more))⟩ =
      some (content, closingTag ending ++ more) :=
    hcontent.cutAt?_append (closingWord_starts hstart more)
  -- behind the `<` of the closing tag the rest of that tag is text
  have htext : '<' ∉ '/' :: (ending ++ ['>']) := by simp [hending.not_mem (c := '<') (by decide)]
  rw [children_name h ht, hclose]
  have hrest : (closingTag ending ++ more).tail = '/' :: (ending ++ ['>']) ++ more := rfl
  simp only [hrest, children_text htext]

/-! ## The body of an element -/

/-- The words that make an element the wrapper wherever they stand. -/
def wrapperWords : List (List Char) := ["Request".toList, "Response".toList]

/-- No such word is empty. -/
theorem not_infix_nil {w : List Char} (hw : w ∈ wrapperWords) : ¬ w <:+: [] := by
  rw [List.infix_nil]
  rintro rfl
  exact absurd hw (by decide)

/-- No such word has a character of markup in it. -/
theorem passes_ended {w : List Char} (hw : w ∈ wrapperWords) (htext : ¬ w <:+: text) (hc : c ∈ ['<', '>', '/', '\n']) :
    Passes w (text ++ [c]) := by
  -- these are two words
  have hmarkup : ∀ w ∈ wrapperWords, '<' ∉ w ∧ '>' ∉ w ∧ '/' ∉ w ∧ '\n' ∉ w := by decide
  refine .ended (fun hmem => ?_) htext
  obtain ⟨hlt, hgt, hslash, hline⟩ := hmarkup w hw
  simp only [List.mem_cons, List.not_mem_nil, or_false] at hc
  rcases hc with rfl | rfl | rfl | rfl
  · exact hlt hmem
  · exact hgt hmem
  · exact hslash hmem
  · exact hline hmem

/-- A name that holds no such word does not come to hold one by its tags. -/
theorem passes_tags {w : List Char} (hw : w ∈ wrapperWords) (hname : ¬ w <:+: name) (htext : ¬ w <:+: text) :
    Passes w ('<' :: (name ++ ['>'])) ∧ Passes w (text ++ closingTag name) := by
  have hgt : Passes w (name ++ ['>']) := passes_ended hw hname (by simp)
  constructor
  · exact (passes_ended hw (not_infix_nil hw) (by simp)).append hgt
  · have hslash : Passes w ['/'] := passes_ended hw (not_infix_nil hw) (by simp)
    have hsplit : text ++ closingTag name = text ++ ['<'] ++ (['/'] ++ (name ++ ['>'])) := by
      simp [closingTag, closingWord]
    rw [hsplit]
    exact (passes_ended hw htext (by simp)).append (hslash.append hgt)

/-- The characters of names are of one byte. -/
theorem utf8Size_of_isAlphanum (h : c.isAlphanum) : c.utf8Size = 1 := by
  change (decide (65 ≤ c.val ∧ c.val ≤ 90) || (decide (97 ≤ c.val) && decide (c.val ≤ 122)) ||
    (decide (48 ≤ c.val) && decide (c.val ≤ 57))) = true at h
  simp only [Bool.or_eq_true, Bool.and_eq_true, decide_eq_true_eq, UInt32.le_iff_toNat_le] at h
  change ((65 ≤ c.val.toNat ∧ c.val.toNat ≤ 90) ∨ (97 ≤ c.val.toNat ∧ c.val.toNat ≤ 122)) ∨
    (48 ≤ c.val.toNat ∧ c.val.toNat ≤ 57) at h
  refine Char.utf8Size_eq_one_iff.2 (UInt32.le_iff_toNat_le.2 ?_)
  show c.val.toNat ≤ 127
  omega

/-- Without these words, the wrapper is the first element, if its name ends in a character of one byte. -/
theorem wrapper_of_bare (hwords : ∀ w ∈ wrapperWords, ¬ w <:+: text) :
    wrapper text = if (beforeTagEnd text).getLast?.all (·.utf8Size = 1) then text else [] := by
  obtain ⟨hrequest, hresponse⟩ := List.forall_mem_cons.1 hwords
  have hresponse := List.forall_mem_singleton.1 hresponse
  rw [wrapper, cutAt?_eq_none_iff.2 hrequest, cutAt?_eq_none_iff.2 hresponse]

/-- Without these words, the children of an element begin with the first tag behind its own. -/
theorem body_element {root gap rest : List Char} (h : IsName root) (hgap : '<' ∉ gap)
    (hwords : ∀ w ∈ wrapperWords, ¬ w <:+: '<' :: (root ++ '>' :: (gap ++ '<' :: rest))) :
    body ('<' :: (root ++ '>' :: (gap ++ '<' :: rest))) = '<' :: rest := by
  have hgt : '>' ∉ '<' :: root := by simp [h.not_mem (c := '>') (by decide)]
  have htag : beforeTagEnd ('<' :: root ++ '>' :: (gap ++ '<' :: rest)) = '<' :: root := takeWhile_append hgt _
  -- the tag ends in a character of the name, or in the `<` if that is empty
  have hlast : ('<' :: root).getLast?.all (·.utf8Size = 1) = true := by
    rw [List.getLast?_eq_some_getLast (List.cons_ne_nil _ _), Option.all_some, decide_eq_true_eq]
    rcases List.mem_cons.1 (List.getLast_mem (List.cons_ne_nil '<' root)) with hlt | hroot
    · rw [hlt]
      rfl
    · exact utf8Size_of_isAlphanum (h.plain _ hroot)
  have hwrapper := wrapper_of_bare hwords
  rw [← List.cons_append] at hwrapper ⊢
  rw [htag, hlast, if_pos rfl] at hwrapper
  rw [body, hwrapper, seek_append hgt, ← List.cons_append, seek_append (by simp [hgap])]

end Markup

/-! ## Entries -/

open Markup

variable (C : Catalogue)

/-- The entry that a child becomes. -/
def Markup.Child.entry (child : Child) : Entry Datum :=
  let key := Datum.ofText (String.ofList child.name)
  if looksNested child.content then ⟨key, .table (Table.scan C child.wrapped), .table⟩
  else ⟨key, .ofBytes (Utf8.encode (String.ofList child.content)), .bytes⟩

variable {C} in
/-- A child with tags in it becomes a table. -/
theorem Markup.Child.entry_of_nested {child : Child} (h : looksNested child.content) :
    child.entry C = ⟨.ofText (String.ofList child.name), .table (Table.scan C child.wrapped), .table⟩ := if_pos h

variable {C} in
/-- One without becomes a byte string. -/
theorem Markup.Child.entry_of_plain {child : Child} (h : '<' ∉ child.content) : child.entry C =
    ⟨.ofText (String.ofList child.name), .ofBytes (Utf8.encode (String.ofList child.content)), .bytes⟩ :=
  if_neg (not_looksNested h)

/-- Either way its name is its key. -/
theorem Markup.Child.key_entry (child : Child) : (child.entry C).key = .ofText (String.ofList child.name) := by
  unfold entry
  dsimp only
  split
  · rfl
  · rfl

/-- A table is filled with the entries of the children in the text, one after another. -/
theorem Table.scan_eq (cs : List Char) :
    Table.scan C cs = (Table.empty .text Table.minCapacity).addAll C ((children (body cs)).map (Child.entry C)) := by
  rw [Table.scan]
  exact congrArg _ (List.attach_map_val (f := Child.entry C))

/-- A text that starts with a tag is scanned as it is. -/
theorem Table.ofXml?_tag (cs : List Char) :
    Table.ofXml? C (String.ofList ('<' :: cs)) = some (Table.scan C ('<' :: cs)) := by
  rw [Table.ofXml?, String.toList_ofList, Text.dropBlanks, List.dropWhile_cons_of_neg (by decide)]
  rfl

/-- What the scanner makes of a child no table refuses. -/
theorem Markup.Child.accepts_entry (child : Child) : Kind.text.accepts C (child.entry C).key = true ∧
    (child.entry C).kind.accepts C (child.entry C).value = true := by
  unfold entry
  dsimp only
  split
  · exact ⟨rfl, rfl⟩
  · exact ⟨rfl, rfl⟩

end OrderedTable
