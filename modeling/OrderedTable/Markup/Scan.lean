import OrderedTable.Table.Placement
import OrderedTable.Text.Blank

/-!
# Reading XML, permissively

This is no XML parser. It looks for the start tag of a wrapper element: the one whose name holds
`Request`, or else `Response`, or else the first of all. What follows is read as a run of children
until a closing tag is met where a child could start. The name of a child is its key; its content
runs to the first closing tag that *starts* with this name, and is empty where there is none. Content
with a `<` and a `>` somewhere after it is read again, as a table; all other content is a byte string.

* `Markup.children` cuts a text into children, `Markup.body` finds where they begin.
* `Table.scan` builds the table. It recurses on contents, and `bound_wrapped_lt` says why that ends:
  the `>` of the wrapper's and of the child's start tag come before the content, and only one `>` is
  put before it when it is read again.
-/

namespace OrderedTable

namespace Markup

/-- The text from its first `c` on. -/
def seek (c : Char) (cs : List Char) : List Char := cs.dropWhile (· ≠ c)

/-- The text before the first occurrence of a word, and the text from there on. -/
def cutAt? (word : List Char) : List Char → Option (List Char × List Char)
  | [] => if word.isPrefixOf [] then some ([], []) else none
  | c :: cs =>
    if word.isPrefixOf (c :: cs) then some ([], c :: cs)
    else (cutAt? word cs).map fun (before, rest) => (c :: before, rest)

/-- A start tag: the name in it, and the text after it, unless the element is closed already. -/
structure Tag where
  name : List Char
  after : Option (List Char)
  deriving DecidableEq, Repr

/-- The text after the first `>`. -/
def afterTag (cs : List Char) : Option (List Char) :=
  match seek '>' cs with
  | _ :: rest => some rest
  | [] => none

/-- A name without the slashes at its end. -/
def trimSlashes (name : List Char) : List Char := (name.reverse.dropWhile (· = '/')).reverse

/-- Whether a character ends a name, or the line it stands on. -/
def endsName (c : Char) : Bool := c = ' ' || c = '>' || c = '\n'

/-- The start tag whose `<` has been read. Its name ends at the first space, if that comes on the
same line and before the first `>`, and else at the first `>`. Only a tag without a space can close
its element by a slash. -/
def Tag.read? (cs : List Char) : Option Tag :=
  match cs.dropWhile (!endsName ·) with
  | ' ' :: _ => some ⟨trimSlashes (cs.takeWhile (!endsName ·)), afterTag cs⟩
  | _ =>
    match afterTag cs with
    | none => none
    | some after =>
      let name := cs.takeWhile (· ≠ '>')
      some ⟨trimSlashes name, if name.getLast? = some '/' then none else some after⟩

/-- What a start tag's element holds, and the text from its closing tag on, if there is one. -/
def Tag.close? (t : Tag) : Option (List Char × List Char) :=
  t.after.bind (cutAt? ('<' :: '/' :: t.name))

/-- A child of an element. -/
structure Child where
  name : List Char
  content : List Char
  deriving DecidableEq, Repr

/-! ## Nothing is made up -/

/-- Seeking a character only drops what comes before it. -/
theorem seek_suffix (c : Char) (cs : List Char) : seek c cs <:+ cs := List.dropWhile_suffix _

/-- What was sought comes first, if anything is left. -/
theorem seek_eq_cons {c d : Char} {cs rest : List Char} (h : seek c cs = d :: rest) : d = c := by
  induction cs with
  | nil => cases h
  | cons e cs ih =>
    by_cases he : e = c
    · rw [seek, List.dropWhile_cons_of_neg (by simp [he])] at h
      exact (List.cons.inj h).1 ▸ he
    · rw [seek, List.dropWhile_cons_of_pos (by simp [he])] at h
      exact ih h

/-- A text is cut right before the word. -/
theorem cutAt?_eq_append {word cs before rest : List Char} (h : cutAt? word cs = some (before, rest)) :
    cs = before ++ rest ∧ word <+: rest := by
  -- along the text: the word starts here, or it is found further on
  induction cs generalizing before with
  | nil =>
    simp only [cutAt?] at h
    split at h
    · next hw =>
      obtain ⟨rfl, rfl⟩ := Prod.mk.inj (Option.some.inj h)
      exact ⟨rfl, List.isPrefixOf_iff_prefix.1 hw⟩
    · cases h
  | cons c cs ih =>
    simp only [cutAt?] at h
    split at h
    · next hw =>
      obtain ⟨rfl, rfl⟩ := Prod.mk.inj (Option.some.inj h)
      exact ⟨rfl, List.isPrefixOf_iff_prefix.1 hw⟩
    · obtain ⟨⟨b, r⟩, hcut, heq⟩ := Option.map_eq_some_iff.1 h
      obtain ⟨rfl, rfl⟩ := Prod.mk.inj heq
      obtain ⟨rfl, hw⟩ := ih hcut
      exact ⟨rfl, hw⟩

/-- What follows a tag follows its closing bracket. -/
theorem afterTag_eq_append {cs after : List Char} (h : afterTag cs = some after) :
    ∃ before, cs = before ++ '>' :: after := by
  unfold afterTag at h
  split at h
  · next c rest hseek =>
    obtain ⟨before, hcs⟩ := seek_suffix '>' cs
    exact ⟨before, by rw [← hcs, hseek, seek_eq_cons hseek, Option.some.inj h]⟩
  · cases h

/-- The same of a tag that was read: the rest starts behind a closing bracket. -/
theorem Tag.read?_eq_append {cs after : List Char} {t : Tag} (h : Tag.read? cs = some t)
    (ht : t.after = some after) : ∃ before, cs = before ++ '>' :: after := by
  -- the name ends at a space, or else at the `>`
  unfold Tag.read? at h
  split at h
  · obtain rfl := Option.some.inj h
    exact afterTag_eq_append ht
  · split at h
    · cases h
    · next hafter =>
      obtain rfl := Option.some.inj h
      dsimp only at ht
      split at ht
      · cases ht
      · obtain rfl := Option.some.inj ht
        exact afterTag_eq_append hafter

/-- The text from a closing tag on is what is left of the text behind the start tag. -/
theorem Tag.close?_eq_append {cs content rest : List Char} {t : Tag} (h : Tag.read? cs = some t)
    (hclose : t.close? = some (content, rest)) :
    ∃ before, cs = before ++ '>' :: (content ++ rest) ∧ '<' :: '/' :: t.name <+: rest := by
  obtain ⟨after, hafter, hcut⟩ := Option.bind_eq_some_iff.1 hclose
  obtain ⟨before, rfl⟩ := Tag.read?_eq_append h hafter
  obtain ⟨rfl, hword⟩ := cutAt?_eq_append hcut
  exact ⟨before, rfl, hword⟩

/-- The children in a text, up to a closing tag that stands where a child could start. After a child
the text is read on behind the `<` of its closing tag or, where it has none, of its start tag. -/
def children : List Char → List Child
  | [] => []
  | c :: cs =>
    if c ≠ '<' then children cs
    else if cs.head? = some '/' then []
    else
      match _h : Tag.read? cs with
      | none => children cs
      | some t =>
        match _hclose : t.close? with
        | none => ⟨t.name, []⟩ :: children cs
        | some (content, rest) => ⟨t.name, content⟩ :: children rest.tail
termination_by cs => cs.length
decreasing_by
  · simp
  · simp
  · simp
  · obtain ⟨before, rfl, -⟩ := Tag.close?_eq_append _h _hclose
    simp
    omega

/-- Whether a `<` has a `>` somewhere after it. -/
def looksNested (content : List Char) : Bool := (seek '<' content).contains '>'

/-- The text before the first `>`. -/
def beforeTagEnd (cs : List Char) : List Char := cs.takeWhile (· ≠ '>')

/-- The text from the place on at which the wrapper's start tag is known to be open. A wrapper found
by its place alone must end in a character of one byte. -/
def wrapper (cs : List Char) : List Char :=
  match cutAt? "Request".toList cs with
  | some (_, rest) => rest
  | none =>
    match cutAt? "Response".toList cs with
    | some (_, rest) => rest
    | none => if (beforeTagEnd cs).getLast?.all (·.utf8Size = 1) then cs else []

/-- The text from the first start tag behind the wrapper's. -/
def body (cs : List Char) : List Char := seek '<' (seek '>' (wrapper cs))

/-- A child's content made a text of its own, to be read again. -/
def Child.wrapped (child : Child) : List Char :=
  '<' :: child.name ++ '>' :: '\n' :: child.content ++ '<' :: '/' :: child.name ++ ['>', '\n']

/-! ## Reading contents again comes to an end -/

/-- How many `>` a text has before its last `<`. -/
def bound (cs : List Char) : Nat := (cs.reverse.dropWhile (· ≠ '<')).count '>'

/-- Trimming adds nothing to a name. -/
theorem trimSlashes_subset (name : List Char) : trimSlashes name ⊆ name := by
  intro c hc
  rw [trimSlashes, List.mem_reverse] at hc
  exact List.mem_reverse.1 ((List.dropWhile_suffix _).subset hc)

/-- The name of a child holds no `>`. -/
theorem Tag.not_mem_name {cs : List Char} {t : Tag} (h : Tag.read? cs = some t) : '>' ∉ t.name := by
  -- either way the name was taken up to a character before the first `>`
  unfold Tag.read? at h
  split at h
  · obtain rfl := Option.some.inj h
    intro hmem
    have := List.all_eq_true.1 List.all_takeWhile _ (trimSlashes_subset _ hmem)
    simp [endsName] at this
  · split at h
    · cases h
    · obtain rfl := Option.some.inj h
      intro hmem
      have := List.all_eq_true.1 List.all_takeWhile _ (trimSlashes_subset _ hmem)
      simp at this

/-- No name of a child holds a closing bracket, since tags end at the first one. -/
theorem not_mem_name {cs : List Char} {child : Child} (h : child ∈ children cs) :
    '>' ∉ child.name := by
  fun_induction children cs with
  | case1 => cases h
  | case2 c cs hc ih => exact ih h
  | case3 => cases h
  | case4 c cs hc hs hread ih => exact ih h
  | case5 c cs hc hs t hread hclose ih =>
    rcases List.mem_cons.1 h with rfl | h
    · exact Tag.not_mem_name hread
    · exact ih h
  | case6 c cs hc hs t hread content rest hclose ih =>
    rcases List.mem_cons.1 h with rfl | h
    · exact Tag.not_mem_name hread
    · exact ih h

/-- A child's content, if it has any, stands in the text behind a `>` and before a `<`. -/
theorem content_eq_nil_or {cs : List Char} {child : Child} (h : child ∈ children cs) :
    child.content = [] ∨
      ∃ before after, cs = before ++ child.content ++ '<' :: after ∧ '>' ∈ before := by
  -- wherever the loop goes on, what it has passed is put before what was found
  fun_induction children cs with
  | case1 => cases h
  | case2 c cs hc ih =>
    refine (ih h).imp_right ?_
    rintro ⟨before, after, rfl, hmem⟩
    exact ⟨c :: before, after, by simp, List.mem_cons_of_mem _ hmem⟩
  | case3 => cases h
  | case4 c cs hc hs hread ih =>
    refine (ih h).imp_right ?_
    rintro ⟨before, after, rfl, hmem⟩
    exact ⟨c :: before, after, by simp, List.mem_cons_of_mem _ hmem⟩
  | case5 c cs hc hs t hread hclose ih =>
    rcases List.mem_cons.1 h with rfl | h
    · exact .inl rfl
    · refine (ih h).imp_right ?_
      rintro ⟨before, after, rfl, hmem⟩
      exact ⟨c :: before, after, by simp, List.mem_cons_of_mem _ hmem⟩
  -- between the `>` of the start tag and the `<` of the closing tag stands the content
  | case6 c cs hc hs t hread content rest hclose ih =>
    obtain ⟨before, rfl, ⟨closing, rfl⟩⟩ := Tag.close?_eq_append hread hclose
    rcases List.mem_cons.1 h with rfl | h
    · exact .inr ⟨c :: before ++ ['>'], '/' :: t.name ++ closing, by simp, by simp⟩
    · refine (ih h).imp_right ?_
      rintro ⟨inner, after, heq, hmem⟩
      refine ⟨c :: before ++ '>' :: content ++ '<' :: inner, after, ?_, by simp [hmem]⟩
      simp only [List.cons_append, List.tail_cons] at heq
      simp [heq]

/-- The outermost tag starts somewhere in the text. -/
theorem wrapper_suffix (cs : List Char) : wrapper cs <:+ cs := by
  unfold wrapper
  split
  · next h => exact (cutAt?_eq_append h).1 ▸ List.suffix_append _ _
  · split
    · next h => exact (cutAt?_eq_append h).1 ▸ List.suffix_append _ _
    · split
      · exact List.suffix_refl _
      · exact List.nil_suffix

/-- Before the body there is a `>`. -/
theorem body_eq_append {cs : List Char} (h : body cs ≠ []) :
    ∃ before, cs = before ++ body cs ∧ '>' ∈ before := by
  obtain ⟨a, ha⟩ := wrapper_suffix cs
  obtain ⟨b, hb⟩ := seek_suffix '>' (wrapper cs)
  obtain ⟨d, hd⟩ := seek_suffix '<' (seek '>' (wrapper cs))
  -- the second search starts at a `>`, so it cannot have ended where it started
  cases d with
  | cons c d =>
    have hc : c = '>' := @seek_eq_cons '>' c (wrapper cs) _ (by rw [← hd]; rfl)
    refine ⟨a ++ b ++ c :: d, ?_, by simp [hc]⟩
    rw [body, List.append_assoc, List.append_assoc, hd, hb, ha]
  | nil =>
    exfalso
    cases hbody : body cs with
    | nil => exact h hbody
    | cons c rest =>
      have lt : c = '<' := seek_eq_cons hbody
      have gt : c = '>' := @seek_eq_cons '>' c (wrapper cs) _ (hd.symm.trans hbody)
      exact absurd (lt.symm.trans gt) (by decide)

/-- The bound counts each `>` before the last `<`, so it counts those before any `<`. -/
theorem count_le_bound (before after : List Char) :
    before.count '>' ≤ bound (before ++ '<' :: after) := by
  -- dropping up to a `<` stops at this one, if not before
  have drop : ∀ xs ys : List Char, '<' :: ys <:+ (xs ++ '<' :: ys).dropWhile (· ≠ '<') := by
    intro xs ys
    induction xs with
    | nil => simp
    | cons x xs ih =>
      rw [List.cons_append, List.dropWhile_cons]
      split
      · exact ih
      · exact (List.suffix_append _ _).trans (List.suffix_cons _ _)
  have h := (drop after.reverse before.reverse).sublist.count_le '>'
  simpa [bound] using h

/-- In its tag, content has at most one `>` more before its last `<` than it has itself. -/
theorem bound_wrapped_le {child : Child} (h : '>' ∉ child.name) :
    bound child.wrapped ≤ child.content.count '>' + 1 := by
  -- the last `<` is that of the closing tag; before it is one `>` besides those of the content
  have hname : child.name.count '>' = 0 := List.count_eq_zero.2 h
  have hle := (List.dropWhile_sublist (· ≠ '<') (l :=
    child.name.reverse ++ '/' :: '<' :: (child.content.reverse ++
      '\n' :: '>' :: (child.name.reverse ++ ['<'])))).count_le '>'
  refine Nat.le_trans (Nat.le_of_eq ?_) (Nat.le_trans hle (Nat.le_of_eq ?_))
  · simp [bound, Child.wrapped]
  · simp [hname]

/-- Before a child's content stand the `>` of its own start tag and of the wrapper's. -/
theorem content_le_bound {cs : List Char} {child : Child} (h : child ∈ children (body cs))
    (hnested : looksNested child.content) : child.content.count '>' + 2 ≤ bound cs := by
  -- a content to be read again is one that was found in the text
  have hne : child.content ≠ [] := by
    intro hnil
    simp [looksNested, hnil, seek] at hnested
  obtain ⟨before, after, heq, hmem⟩ := (content_eq_nil_or h).resolve_left hne
  obtain ⟨front, hcs, hfront⟩ := @body_eq_append cs (by rw [heq]; simp)
  have hle := count_le_bound (front ++ before ++ child.content) after
  rw [heq] at hcs
  have hcs' : cs = front ++ before ++ child.content ++ '<' :: after := by
    rw [hcs]; simp
  rw [← hcs', List.count_append, List.count_append] at hle
  have h1 := List.count_pos_iff.2 hfront
  have h2 := List.count_pos_iff.2 hmem
  omega

/-- A text made of a child's content has fewer `>` before its last `<` than the text in which the
child was found, so reading contents again comes to an end. -/
theorem bound_wrapped_lt {cs : List Char} {child : Child} (h : child ∈ children (body cs))
    (hnested : looksNested child.content) : bound child.wrapped < bound cs :=
  Nat.lt_of_lt_of_le (Nat.lt_succ_of_le (bound_wrapped_le (not_mem_name h))) (content_le_bound h hnested)

end Markup

open Markup

variable (C : Catalogue)

/-- The table of the children in a text, under text keys. -/
def Table.scan (cs : List Char) : Table Datum :=
  (Table.empty .text Table.minCapacity).addAll C <|
    (children (body cs)).attach.map fun ⟨child, _hchild⟩ =>
      let key := Datum.ofText (String.ofList child.name)
      if _hnested : looksNested child.content then
        ⟨key, .table (Table.scan child.wrapped), .table⟩
      else ⟨key, .ofBytes (Utf8.encode (String.ofList child.content)), .bytes⟩
termination_by bound cs
decreasing_by exact bound_wrapped_lt _hchild _hnested

/-- The table of a text that starts, after blanks, with `<`. -/
def Table.ofXml? (text : String) : Option (Table Datum) :=
  let cs := Text.dropBlanks text.toList
  if cs.head? = some '<' then some (Table.scan C cs) else none

end OrderedTable
