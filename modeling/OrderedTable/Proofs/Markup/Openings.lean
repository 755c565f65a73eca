import Mathlib.Data.List.Basic
import Mathlib.Data.List.TakeWhile
import OrderedTable.Proofs.Markup.Searching

/-!
# Names in a text

Which names stand behind a `<` (`openings`) can be told from a piece of text alone, and start tags in it are read in the
same way whatever comes behind it (`Tag.read?_append`, `cutAt?_append_of_some`), if every `<` in it has a `>` behind it
(`TagsEnd`). The name that the scanner reads in a start tag starts with the one ahead (`nameAhead_starts`), but may go
on over tabs and line ends.
-/

namespace OrderedTable.Markup

open Text

variable {cs more xs ys name w : List Char} {c : Char}

/-! ## Texts in which all tags end -/

/-- Every `<` in the text has a `>` behind it. -/
def TagsEnd : List Char → Prop
  | [] => True
  | c :: cs => (c = '<' → '>' ∈ cs) ∧ TagsEnd cs

namespace TagsEnd

/-- Two such texts in a row are one. -/
theorem append (h : TagsEnd xs) (h' : TagsEnd ys) : TagsEnd (xs ++ ys) := by
  induction xs with
  | nil => exact h'
  | cons c xs ih => exact ⟨fun hc => List.mem_append_left _ (h.1 hc), ih h.2⟩

/-- And so is what is left of one. -/
theorem right (h : TagsEnd (xs ++ ys)) : TagsEnd ys := by
  induction xs with
  | nil => exact h
  | cons c xs ih => exact ih h.2

theorem suffix (h : TagsEnd ys) (hsuffix : xs <:+ ys) : TagsEnd xs := by
  obtain ⟨front, rfl⟩ := hsuffix
  exact h.right

/-- Where nothing opens, nothing has to end. -/
theorem of_not_mem (h : '<' ∉ xs) : TagsEnd xs := by
  induction xs with
  | nil => trivial
  | cons c xs ih =>
    rw [List.mem_cons, not_or] at h
    exact ⟨fun hc => absurd hc (Ne.symm h.1), ih h.2⟩

/-- A `>` at the very end ends every tag. -/
theorem concat (xs : List Char) : TagsEnd (xs ++ ['>']) := by
  induction xs with
  | nil => exact ⟨nofun, trivial⟩
  | cons c xs ih => exact ⟨fun _ => by simp, ih⟩

/-- In such a text no closing tag begins that ends behind it. -/
theorem passes (h : TagsEnd cs) (hname : '>' ∉ name) (hnone : ¬ closingWord name <:+: cs) :
    Passes (closingWord name) cs := by
  -- a closing tag that begins here would go on past the `>` that is behind it
  induction cs with
  | nil => exact .nil
  | cons c cs ih =>
    rw [List.infix_cons_iff, not_or] at hnone
    refine .cons (fun more hstart => hnone.1 ?_) (ih h.2 hnone.2)
    obtain ⟨before, after, rfl⟩ := List.append_of_mem (h.1 (List.cons_prefix_cons.1 hstart).1.symm)
    have hbracket : '>' ∉ closingWord name := by simp [closingWord, hname]
    have hstart' : closingWord name <+: c :: before ++ '>' :: (after ++ more) := by simpa using hstart
    exact (Passes.prefix_of_not_mem hbracket hstart').trans ⟨'>' :: after, rfl⟩

end TagsEnd

/-! ## More text behind -/

/-- What is found in a text is found there with more text behind it. -/
theorem cutAt?_append_of_some {word before rest : List Char} (h : cutAt? word cs = some (before, rest))
    (more : List Char) : cutAt? word (cs ++ more) = some (before, rest ++ more) := by
  induction cs generalizing before with
  | nil =>
    obtain ⟨hsplit, hword⟩ := cutAt?_eq_append h
    obtain ⟨rfl, rfl⟩ := List.append_eq_nil_iff.1 hsplit.symm
    exact cutAt?_of_starts (hword.trans (List.nil_prefix))
  | cons c cs ih =>
    by_cases hstart : word <+: c :: cs
    · cases (cutAt?_of_starts hstart).symm.trans h
      exact cutAt?_of_starts (hstart.trans (List.prefix_append _ _))
    · rw [cutAt?, if_neg (by simpa using hstart)] at h
      obtain ⟨⟨front, rest'⟩, hcut, heq⟩ := Option.map_eq_some_iff.1 h
      obtain ⟨rfl, rfl⟩ := Prod.mk.inj heq
      -- the word would start in the text and end behind it, but it stands in the rest of the text
      have hmore : ¬ word <+: c :: (cs ++ more) := by
        intro hstart'
        obtain ⟨rfl, hrest⟩ := cutAt?_eq_append hcut
        refine hstart (List.prefix_of_prefix_length_le hstart' (List.prefix_append (c :: (front ++ rest')) more) ?_)
        have := hrest.length_le
        simp only [List.length_cons, List.length_append]
        omega
      rw [List.cons_append, cutAt?, if_neg (by simpa using hmore), ih hcut]
      rfl

/-- A tag that ends in the text ends there with more behind it. -/
theorem afterTag_append_more (h : '>' ∈ cs) (more : List Char) :
    ∃ after, afterTag cs = some after ∧ afterTag (cs ++ more) = some (after ++ more) := by
  obtain ⟨front, after, rfl, hfront⟩ := List.eq_append_cons_of_mem h
  refine ⟨after, afterTag_append hfront after, ?_⟩
  rw [List.append_assoc, List.cons_append]
  exact afterTag_append hfront (after ++ more)

/-- What is taken from a text up to a character in it is taken whatever comes behind. -/
theorem takeWhile_append_more {p : Char → Bool} (hc : c ∈ cs) (hp : p c = false) (more : List Char) :
    (cs ++ more).takeWhile p = cs.takeWhile p := by
  rw [List.takeWhile_append, if_neg]
  intro hlength
  have hself := (List.takeWhile_prefix p).eq_of_length hlength
  exact Bool.false_ne_true (hp.symm.trans (List.takeWhile_eq_self_iff.1 hself c hc))

/-- What is left behind it gets longer by what comes behind. -/
theorem dropWhile_append_more {p : Char → Bool} (hc : c ∈ cs) (hp : p c = false) (more : List Char) :
    (cs ++ more).dropWhile p = cs.dropWhile p ++ more := by
  rw [List.dropWhile_append, if_neg]
  rw [List.isEmpty_iff, List.dropWhile_eq_nil_iff]
  exact fun hall => Bool.false_ne_true (hp.symm.trans (hall c hc))

namespace Tag

/-- A start tag whose name a space ends. -/
theorem read?_of_space (h : (cs.dropWhile (!endsName ·)).head? = some ' ') :
    read? cs = some ⟨trimSlashes (cs.takeWhile (!endsName ·)), afterTag cs⟩ := by
  obtain ⟨rest, hrest⟩ := List.head?_eq_some_iff.1 h
  rw [read?, hrest]
  rfl

/-- A start tag whose name a `>` ends. -/
theorem read?_of_bracket (h : (cs.dropWhile (!endsName ·)).head? ≠ some ' ') {after : List Char}
    (hafter : afterTag cs = some after) : read? cs = some ⟨trimSlashes (cs.takeWhile (· ≠ '>')),
      if (cs.takeWhile (· ≠ '>')).getLast? = some '/' then none else some after⟩ := by
  rw [read?, hafter]
  split
  · next hrest => exact absurd (hrest ▸ List.head?_cons) h
  · rfl

/-- A start tag that ends in the text is read there, whatever comes behind. -/
theorem read?_append (h : '>' ∈ cs) (more : List Char) :
    ∃ t, read? cs = some t ∧ read? (cs ++ more) = some ⟨t.name, t.after.map (· ++ more)⟩ := by
  obtain ⟨after, hafter, hmore⟩ := afterTag_append_more h more
  have hname := takeWhile_append_more (p := (!endsName ·)) h rfl more
  have htag := takeWhile_append_more (p := (· ≠ '>')) h (by simp) more
  -- whichever character ends the name, it is in the text
  have hhead : ((cs ++ more).dropWhile (!endsName ·)).head? = (cs.dropWhile (!endsName ·)).head? := by
    obtain ⟨d, rest, hrest⟩ := List.exists_cons_of_ne_nil (l := cs.dropWhile (!endsName ·))
      fun hnil => Bool.false_ne_true (List.dropWhile_eq_nil_iff.1 hnil '>' h)
    rw [dropWhile_append_more h rfl, hrest]
    rfl
  by_cases hspace : (cs.dropWhile (!endsName ·)).head? = some ' '
  · refine ⟨_, read?_of_space hspace, ?_⟩
    rw [read?_of_space (hhead.trans hspace), hname, hmore, hafter, Option.map_some]
  · refine ⟨_, read?_of_bracket hspace hafter, ?_⟩
    rw [read?_of_bracket (fun h => hspace (hhead.symm.trans h)) hmore, htag]
    split
    · rfl
    · rfl

end Tag

/-! ## Names behind a `<` -/

/-- Whether a character goes on a name. -/
def inName (c : Char) : Bool := !(isBlank c || c = '/' || c = '>')

/-- The name that a text starts with. -/
def nameAhead (cs : List Char) : List Char := cs.takeWhile inName

/-- The names behind each `<` in a text, but for those of closing tags. -/
def openings : List Char → List (List Char)
  | [] => []
  | c :: cs => if c = '<' ∧ cs.head? ≠ some '/' then nameAhead cs :: openings cs else openings cs

theorem inName_of_mem (h : c ∈ nameAhead cs) : inName c = true :=
  List.all_eq_true.1 List.all_takeWhile c h

/-- What goes on a name is no end of one, as the scanner sees ends of names. -/
theorem endsName_of_inName (h : inName c = true) : (!endsName c) = true ∧ c ≠ '>' ∧ c ≠ '/' := by
  simp only [inName, Bool.not_eq_true', Bool.or_eq_false_iff, decide_eq_false_iff_not] at h
  obtain ⟨⟨hblank, hslash⟩, hbracket⟩ := h
  refine ⟨?_, hbracket, hslash⟩
  rw [Bool.not_eq_true']
  refine Bool.eq_false_iff.2 fun hends => ?_
  simp only [endsName, Bool.or_eq_true, decide_eq_true_eq] at hends
  rcases hends with (rfl | rfl) | rfl
  · exact absurd hblank (by decide)
  · exact hbracket rfl
  · exact absurd hblank (by decide)

/-- The name ahead comes before the end of every name that it goes on in. -/
theorem nameAhead_takeWhile {p : Char → Bool} (h : ∀ c, inName c = true → p c = true) (cs : List Char) :
    nameAhead cs <+: cs.takeWhile p := by
  rw [nameAhead]
  induction cs with
  | nil => exact List.prefix_rfl
  | cons c cs ih =>
    rw [List.takeWhile_cons, List.takeWhile_cons]
    split
    · next hc =>
      rw [if_pos (h c hc)]
      exact List.cons_prefix_cons.2 ⟨rfl, ih⟩
    · exact List.nil_prefix

/-- Trimming slashes takes nothing off a front without slashes. -/
theorem prefix_trimSlashes {front : List Char} (h : front <+: name) (hslash : '/' ∉ front) :
    front <+: trimSlashes name := by
  obtain ⟨rest, rfl⟩ := h
  -- read from behind, the front starts with no slash
  have hfront : front.reverse.dropWhile (· = '/') = front.reverse := by
    cases hreverse : front.reverse with
    | nil => rfl
    | cons c cs =>
      have hc : c ≠ '/' := fun heq => hslash (List.mem_reverse.1 (hreverse ▸ heq ▸ List.mem_cons_self))
      exact List.dropWhile_cons_of_neg (by simpa using hc)
  rw [trimSlashes, List.reverse_append, List.dropWhile_append, hfront]
  split
  · exact (List.reverse_reverse front).symm ▸ List.prefix_rfl
  · rw [List.reverse_append, List.reverse_reverse]
    exact List.prefix_append _ _

/-- The name of a start tag is what comes before its end, whichever end is meant, without slashes. -/
theorem Tag.read?_name (hends : '>' ∈ cs) {t : Tag} (h : Tag.read? cs = some t) : ∃ p : Char → Bool,
    (∀ c, inName c = true → p c = true) ∧ t.name = trimSlashes (cs.takeWhile p) := by
  obtain ⟨after, hafter, -⟩ := afterTag_append_more hends []
  by_cases hspace : (cs.dropWhile (!endsName ·)).head? = some ' '
  · obtain rfl := Option.some.inj ((Tag.read?_of_space hspace).symm.trans h)
    exact ⟨_, fun c hc => (endsName_of_inName hc).1, rfl⟩
  · obtain rfl := Option.some.inj ((Tag.read?_of_bracket hspace hafter).symm.trans h)
    exact ⟨_, fun c hc => by simpa using (endsName_of_inName hc).2.1, rfl⟩

/-- The name of a start tag starts like this. -/
theorem nameAhead_starts (hends : '>' ∈ cs) {t : Tag} (h : Tag.read? cs = some t) : nameAhead cs <+: t.name := by
  have hslash : '/' ∉ nameAhead cs := fun hmem => (endsName_of_inName (inName_of_mem hmem)).2.2 rfl
  obtain ⟨p, hp, hname⟩ := Tag.read?_name hends h
  exact hname ▸ prefix_trimSlashes (nameAhead_takeWhile hp cs) hslash

/-- If a wrapper's name starts with the name of a start tag, but not with the one ahead, then there is none. -/
theorem Tag.name_eq_nil (hends : '>' ∈ cs) (hslash : cs.head? ≠ some '/') {t : Tag} (h : Tag.read? cs = some t)
    (hw : ∀ c ∈ w, inName c = true) (hahead : nameAhead cs ≠ [] → ¬ nameAhead cs <+: w) (hstart : t.name <+: w) :
    t.name = [] := by
  obtain ⟨p, -, hname⟩ := Tag.read?_name hends h
  have hnone : nameAhead cs = [] := by_contra fun hne => hahead hne ((nameAhead_starts hends h).trans hstart)
  obtain ⟨d, rest, rfl⟩ := List.exists_cons_of_ne_nil (List.ne_nil_of_mem hends)
  cases hd : p d with
  | false =>
    rw [hname, List.takeWhile_cons_of_neg (by simp [hd])]
    rfl
  | true =>
    -- the name starts with what no name goes on with, and so would that of the wrapper
    have hfirst : [d] <+: t.name := by
      rw [hname, List.takeWhile_cons_of_pos hd]
      refine prefix_trimSlashes (List.cons_prefix_cons.2 ⟨rfl, List.nil_prefix⟩) fun hmem => hslash ?_
      rw [← List.mem_singleton.1 hmem, List.head?_cons]
    have hmem : d ∈ w := (hfirst.trans hstart).mem List.mem_cons_self
    rw [nameAhead, List.takeWhile_cons_of_pos (hw d hmem)] at hnone
    cases hnone

/-- A `<` with no slash behind it has a name behind it. -/
theorem openings_cons (h : cs.head? ≠ some '/') : openings ('<' :: cs) = nameAhead cs :: openings cs :=
  if_pos ⟨rfl, h⟩

/-- Other characters have none. -/
theorem openings_of_ne (h : c ≠ '<') : openings (c :: cs) = openings cs := if_neg fun hand => h hand.1

/-- Nor has text without a `<`. -/
theorem openings_text (h : '<' ∉ xs) (more : List Char) : openings (xs ++ more) = openings more := by
  induction xs with
  | nil => rfl
  | cons c xs ih =>
    rw [List.mem_cons, not_or] at h
    rw [List.cons_append, openings_of_ne (Ne.symm h.1), ih h.2]

/-- A closing tag adds no name. -/
theorem openings_closing (more : List Char) : openings ('<' :: '/' :: more) = openings more := by
  rw [openings, if_neg (fun hand => hand.2 rfl), openings_of_ne (by decide)]

/-- The names in what is left of a text are among those in the text. -/
theorem openings_suffix (h : xs <:+ ys) : openings xs <:+ openings ys := by
  obtain ⟨front, rfl⟩ := h
  induction front with
  | nil => exact List.suffix_rfl
  | cons c front ih =>
    rw [List.cons_append, openings]
    split
    · exact ih.trans (List.suffix_cons _ _)
    · exact ih

/-- All names in a text in which tags end are found there, whatever comes behind. -/
theorem TagsEnd.openings_append (h : TagsEnd xs) (more : List Char) :
    openings (xs ++ more) = openings xs ++ openings more := by
  induction xs with
  | nil => rfl
  | cons c xs ih =>
    -- the name behind a `<` ends before the `>` that is in the text
    by_cases hopens : c = '<' ∧ xs.head? ≠ some '/'
    · obtain ⟨rfl, hslash⟩ := hopens
      have hends := h.1 rfl
      have hhead : (xs ++ more).head? = xs.head? := List.head?_append_of_ne_nil _ (List.ne_nil_of_mem hends)
      have hname : nameAhead (xs ++ more) = nameAhead xs := takeWhile_append_more hends rfl more
      rw [List.cons_append, openings_cons (hhead ▸ hslash), openings_cons hslash, hname, ih h.2, List.cons_append]
    · have hopens' : ¬ (c = '<' ∧ (xs ++ more).head? ≠ some '/') := by
        rintro ⟨rfl, hslash⟩
        rw [List.head?_append_of_ne_nil _ (List.ne_nil_of_mem (h.1 rfl))] at hslash
        exact hopens ⟨rfl, hslash⟩
      rw [List.cons_append, openings, if_neg hopens', openings, if_neg hopens, ih h.2]

end OrderedTable.Markup
