import OrderedTable.Proofs.Markup.Searching
import OrderedTable.Proofs.Table.Gathering
import OrderedTable.Proofs.Wire.Written

/-!
# Flat documents

The children of a root element may be leaves: elements with text in them, or self-closing ones, each with attributes or
without. The scanner reads them one by one (`Document.children_flat`), but for one case. Whether a start tag closes its
element is asked of tags without a space only, so a self-closing leaf with attributes is taken to be open. If a closing
tag behind it starts with its name, all that is before this becomes its content (`Leaf.Overruns`), and its siblings are
lost in a table. Just where that does not happen the table lists the leaves (`Table.ofXml?_flat`).
-/

namespace OrderedTable

namespace Markup

/-! ## Leaves -/

/-- A child of the root with no children of its own. One without content closes itself. -/
structure Leaf where
  name : List Char
  attributes : List (List Char × List Char)
  content : Option (List Char)

namespace Leaf

/-- The attributes of a start tag, each behind a space. -/
def attributesText (l : Leaf) : List Char :=
  l.attributes.flatMap fun (name, value) => ' ' :: (name ++ '=' :: '"' :: (value ++ ['"']))

def text (l : Leaf) : List Char :=
  match l.content with
  | some content => '<' :: (l.name ++ (l.attributesText ++ '>' :: (content ++ closingTag l.name)))
  | none => '<' :: (l.name ++ (l.attributesText ++ ['/', '>']))

/-- The child that the leaf should be. -/
def child (l : Leaf) : Child := ⟨l.name, l.content.getD []⟩

/-- The entry that the leaf should be. -/
def entry (l : Leaf) : Entry Datum :=
  ⟨.ofText (String.ofList l.name), .ofBytes (Utf8.encode (String.ofList (l.content.getD []))), .bytes⟩

/-- A leaf with a name, and no markup in its attributes and its content. -/
structure Fit (l : Leaf) : Prop where
  name : IsName l.name
  attributes : ∀ a ∈ l.attributes, '<' ∉ a.1 ++ a.2 ∧ '>' ∉ a.1 ++ a.2
  content : ∀ content ∈ l.content, '<' ∉ content ∧ '>' ∉ content

instance (l : Leaf) : Decidable l.Fit :=
  decidable_of_iff (IsName l.name ∧ (∀ a ∈ l.attributes, '<' ∉ a.1 ++ a.2 ∧ '>' ∉ a.1 ++ a.2) ∧
      ∀ content ∈ l.content, '<' ∉ content ∧ '>' ∉ content)
    ⟨fun ⟨name, attributes, content⟩ => ⟨name, attributes, content⟩, fun h => ⟨h.name, h.attributes, h.content⟩⟩

/-- The leaf closes itself, has attributes, and other leaves come after it; and the name of one of these with content,
or that of the root, starts with its name. -/
structure Overruns (l : Leaf) (root : List Char) (after : List Leaf) : Prop where
  selfClosing : l.content = none
  attributes : l.attributes ≠ []
  followed : after ≠ []
  closed : (∃ m ∈ after, m.content ≠ none ∧ l.name <+: m.name) ∨ l.name <+: root

instance (l : Leaf) (root : List Char) (after : List Leaf) : Decidable (l.Overruns root after) :=
  decidable_of_iff (l.content = none ∧ l.attributes ≠ [] ∧ after ≠ [] ∧
      ((∃ m ∈ after, m.content ≠ none ∧ l.name <+: m.name) ∨ l.name <+: root))
    ⟨fun ⟨selfClosing, attributes, followed, closed⟩ => ⟨selfClosing, attributes, followed, closed⟩,
      fun h => ⟨h.selfClosing, h.attributes, h.followed, h.closed⟩⟩

variable {l : Leaf}

/-- There is no markup between the name and the end of a start tag. -/
theorem Fit.not_mem_attributesText (h : l.Fit) : '<' ∉ l.attributesText ∧ '>' ∉ l.attributesText := by
  rw [attributesText, List.mem_flatMap, List.mem_flatMap]
  constructor
  · rintro ⟨a, ha, hmem⟩
    exact (h.attributes a ha).1 (by simpa using hmem)
  · rintro ⟨a, ha, hmem⟩
    exact (h.attributes a ha).2 (by simpa using hmem)

/-- Attributes begin with a space. -/
theorem exists_attributesText (h : l.attributes ≠ []) : ∃ inside, l.attributesText = ' ' :: inside := by
  obtain ⟨a, attributes, hcons⟩ := List.exists_cons_of_ne_nil h
  rw [attributesText, hcons]
  exact ⟨_, rfl⟩

/-- A leaf with content has a closing tag. -/
theorem text_of_some {content : List Char} (h : l.content = some content) :
    l.text = '<' :: (l.name ++ (l.attributesText ++ '>' :: (content ++ closingTag l.name))) := by
  rw [text, h]

/-- One without closes itself. -/
theorem text_of_none (h : l.content = none) : l.text = '<' :: (l.name ++ (l.attributesText ++ ['/', '>'])) := by
  rw [text, h]

/-- A leaf starts with a tag. -/
theorem Fit.exists_tag (h : l.Fit) :
    ∃ inside rest, l.text = '<' :: (l.name ++ (inside ++ ['>'])) ++ rest ∧ '<' ∉ inside := by
  have hlt := h.not_mem_attributesText.1
  cases hcontent : l.content with
  | some content =>
    exact ⟨l.attributesText, content ++ closingTag l.name, by rw [text_of_some hcontent]; simp, hlt⟩
  | none => exact ⟨l.attributesText ++ ['/'], [], by rw [text_of_none hcontent]; simp, by simpa using hlt⟩

/-- With attributes or without, a start tag ends at its `>`. -/
theorem Fit.read?_tag (h : l.Fit) (more : List Char) :
    Tag.read? (l.name ++ (l.attributesText ++ '>' :: more)) = some ⟨l.name, some more⟩ := by
  by_cases hattributes : l.attributes = []
  · rw [attributesText, hattributes]
    exact h.name.read?_plain more
  · obtain ⟨inside, hinside⟩ := exists_attributesText hattributes
    have hgt := h.not_mem_attributesText.2
    rw [hinside] at hgt ⊢
    exact h.name.read?_spaced (fun hmem => hgt (List.mem_cons_of_mem _ hmem)) more

/-- With attributes, a slash before the `>` makes no difference. -/
theorem Fit.read?_spacedSlash (h : l.Fit) (hattributes : l.attributes ≠ []) (more : List Char) :
    Tag.read? (l.name ++ (l.attributesText ++ '/' :: '>' :: more)) = some ⟨l.name, some more⟩ := by
  obtain ⟨inside, hinside⟩ := exists_attributesText hattributes
  have hgt := h.not_mem_attributesText.2
  rw [hinside] at hgt ⊢
  have hslash : '>' ∉ inside ++ ['/'] := by simpa using fun hmem => hgt (List.mem_cons_of_mem _ hmem)
  simpa using h.name.read?_spaced hslash more

/-- A search for a closing tag passes a leaf that closes itself, or has another name. -/
theorem Fit.passes {outer : List Char} (h : l.Fit) (houter : IsName outer)
    (hname : l.content ≠ none → ¬ outer <+: l.name) : Passes (closingWord outer) l.text := by
  have hlt := h.not_mem_attributesText.1
  cases hcontent : l.content with
  | some content =>
    have hsplit : l.text = '<' :: (l.name ++ (l.attributesText ++ ['>'])) ++ (content ++ closingTag l.name) := by
      rw [text_of_some hcontent]
      simp
    rw [hsplit]
    refine (Passes.opening h.name (by simpa using hlt)).append ((Passes.plain (h.content content hcontent).1).append ?_)
    exact .closing houter h.name (hname (by rw [hcontent]; exact nofun))
  | none =>
    rw [text_of_none hcontent]
    exact .opening h.name (by simpa using hlt)

end Leaf

/-! ## Documents -/

/-- A root element with leaves. -/
structure Document where
  root : List Char
  leaves : List Leaf

namespace Document

/-- Leaves, one after another, and the end of the root. -/
def bodyText (root : List Char) (leaves : List Leaf) : List Char := leaves.flatMap Leaf.text ++ closingTag root

def text (d : Document) : List Char := '<' :: (d.root ++ '>' :: bodyText d.root d.leaves)

/-- A document in which nothing but its tags is markup, and nothing makes an element a wrapper by its name. -/
structure Fit (d : Document) : Prop where
  root : IsName d.root
  leaves : ∀ l ∈ d.leaves, l.Fit
  bare : ∀ w ∈ wrapperWords, ¬ w <:+: d.text

variable {l : Leaf} {root : List Char} {leaves : List Leaf}

theorem bodyText_cons (root : List Char) (l : Leaf) (leaves : List Leaf) :
    bodyText root (l :: leaves) = l.text ++ bodyText root leaves := by
  rw [bodyText, List.flatMap_cons, List.append_assoc, bodyText]

/-- What is behind the root's start tag starts with a tag. -/
theorem exists_bodyText (root : List Char) (leaves : List Leaf) : ∃ rest, bodyText root leaves = '<' :: rest := by
  cases leaves with
  | nil => exact ⟨_, rfl⟩
  | cons l leaves =>
    rw [bodyText_cons, Leaf.text]
    split
    · exact ⟨_, rfl⟩
    · exact ⟨_, rfl⟩

/-- A closing tag with a certain start is met just if there is one of a leaf with content or of the root. -/
theorem cutAt?_bodyText_eq_none {outer : List Char} (houter : IsName outer) (hroot : IsName root)
    (hleaves : ∀ l ∈ leaves, l.Fit) :
    cutAt? (closingWord outer) (bodyText root leaves) = none ↔
      (∀ m ∈ leaves, m.content ≠ none → ¬ outer <+: m.name) ∧ ¬ outer <+: root := by
  constructor
  · intro hnone
    rw [cutAt?_eq_none_iff] at hnone
    refine ⟨fun m hm hcontent hstart => hnone ?_, fun hstart => hnone ?_⟩
    · obtain ⟨before, after, rfl⟩ := List.append_of_mem hm
      obtain ⟨content, hcontent⟩ := Option.ne_none_iff_exists'.1 hcontent
      have hword := (closingWord_starts hstart []).isInfix
      rw [List.append_nil] at hword
      refine hword.trans ⟨before.flatMap Leaf.text ++ '<' :: (m.name ++ (m.attributesText ++ '>' :: content)),
        bodyText root after, ?_⟩
      simp [bodyText, Leaf.text_of_some hcontent]
    · have hword := (closingWord_starts hstart []).isInfix
      rw [List.append_nil] at hword
      exact hword.trans List.infix_append_right
  · -- else every piece is passed
    rintro ⟨hnames, hstart⟩
    have hpasses : Passes (closingWord outer) (bodyText root leaves) :=
      (Passes.flatMap fun m hm => (hleaves m hm).passes houter (hnames m hm)).append (.closing houter hroot hstart)
    exact cutAt?_eq_none_iff.2 (hpasses.not_infix nofun)

/-- A leaf that does not overrun is a child of its own. -/
theorem children_leaf (hroot : IsName root) (hl : l.Fit) (hleaves : ∀ l ∈ leaves, l.Fit)
    (hclear : ¬ l.Overruns root leaves) :
    children (bodyText root (l :: leaves)) = l.child :: children (bodyText root leaves) := by
  rw [bodyText_cons, Leaf.child]
  -- content ends at the leaf's own closing tag, as no tag is in it
  cases hcontent : l.content with
  | some content =>
    rw [Leaf.text_of_some hcontent]
    have hread := hl.read?_tag (content ++ (closingTag l.name ++ bodyText root leaves))
    have hchild := children_element hl.name List.prefix_rfl hl.name hread (.plain (hl.content content hcontent).1)
    simpa using hchild
  | none =>
    rw [Leaf.text_of_none hcontent]
    have hslash : '<' ∉ l.attributesText ++ ['/', '>'] := by simpa using hl.not_mem_attributesText.1
    rw [List.cons_append, List.append_assoc]
    -- without attributes the slash closes the leaf
    by_cases hattributes : l.attributes = []
    · have hread : Tag.read? (l.name ++ (l.attributesText ++ ['/', '>'] ++ bodyText root leaves)) =
          some ⟨l.name, none⟩ := by
        rw [Leaf.attributesText, hattributes]
        exact hl.name.read?_closed _
      rw [children_unclosed hl.name hread rfl, children_text hslash, Option.getD_none]
    · have hread := hl.read?_spacedSlash hattributes (bodyText root leaves)
      by_cases hlast : leaves = [] ∧ l.name <+: root
      · -- the closing tag of the root ends it, and nothing is before that
        obtain ⟨rfl, hstart⟩ := hlast
        have hbody : bodyText root [] = [] ++ (closingTag root ++ []) := by simp [bodyText]
        rw [hbody] at hread
        have hchild := children_element hl.name hstart hroot hread .nil
        rw [hbody, Option.getD_none]
        simpa [closingTag, closingWord, children_closing, children] using hchild
      · have hnone : cutAt? (closingWord l.name) (bodyText root leaves) = none := by
          refine (cutAt?_bodyText_eq_none hl.name hroot hleaves).2
            ⟨fun m hm hcontent' hstart => hclear ?_, fun hstart => ?_⟩
          · exact ⟨hcontent, hattributes, List.ne_nil_of_mem hm, .inl ⟨m, hm, hcontent', hstart⟩⟩
          · exact hclear ⟨hcontent, hattributes, fun hnil => hlast ⟨hnil, hstart⟩, .inr hstart⟩
        have hsplit : l.attributesText ++ '/' :: '>' :: bodyText root leaves =
            l.attributesText ++ ['/', '>'] ++ bodyText root leaves := by simp
        rw [hsplit] at hread
        rw [children_unclosed hl.name hread hnone, children_text hslash, Option.getD_none]

/-- One that overruns holds tags in what becomes its content. -/
theorem exists_nested (hroot : IsName root) (hl : l.Fit) (hleaves : ∀ l ∈ leaves, l.Fit)
    (hover : l.Overruns root leaves) :
    ∃ child ∈ children (bodyText root (l :: leaves)), looksNested child.content := by
  obtain ⟨m, ms, rfl⟩ := List.exists_cons_of_ne_nil hover.followed
  have hread := hl.read?_spacedSlash hover.attributes (bodyText root (m :: ms))
  obtain ⟨inside, rest, htext, hinside⟩ := (hleaves m List.mem_cons_self).exists_tag
  obtain ⟨opening, hopening⟩ : ∃ opening, opening = '<' :: (m.name ++ (inside ++ ['>'])) := ⟨_, rfl⟩
  have hbody : bodyText root (m :: ms) = opening ++ (rest ++ bodyText root ms) := by
    rw [bodyText_cons, htext, hopening, List.append_assoc]
  have hpasses : Passes (closingWord l.name) opening := by
    rw [hopening]
    exact .opening (hleaves m List.mem_cons_self).name (by simpa using hinside)
  -- the closing tag is found behind the start tag of the leaf that follows
  have hsome : cutAt? (closingWord l.name) (bodyText root (m :: ms)) ≠ none := by
    rw [Ne, cutAt?_bodyText_eq_none hl.name hroot hleaves]
    rintro ⟨hnames, hstart⟩
    rcases hover.closed with ⟨m', hm', hcontent, hstart'⟩ | hstart'
    · exact hnames m' hm' hcontent hstart'
    · exact hstart hstart'
  rw [hbody, hpasses, Ne, Option.map_eq_none_iff] at hsome
  obtain ⟨⟨before, after⟩, hcut⟩ := Option.ne_none_iff_exists'.1 hsome
  have hclose : Tag.close? ⟨l.name, some (bodyText root (m :: ms))⟩ = some (opening ++ before, after) := by
    show cutAt? (closingWord l.name) (bodyText root (m :: ms)) = _
    rw [hbody, hpasses, hcut]
    rfl
  have hchildren : children (bodyText root (l :: m :: ms)) = ⟨l.name, opening ++ before⟩ :: children after.tail := by
    rw [bodyText_cons, Leaf.text_of_none hover.selfClosing]
    have hchild := children_name hl.name hread
    rw [hclose] at hchild
    simpa using hchild
  refine ⟨⟨l.name, opening ++ before⟩, by rw [hchildren]; exact List.mem_cons_self, ?_⟩
  rw [looksNested, hopening, List.cons_append, ← List.nil_append ('<' :: _), seek_append List.not_mem_nil]
  simp

/-- No leaf overruns. -/
def Clear (root : List Char) (leaves : List Leaf) : Prop :=
  ∀ before l after, leaves = before ++ l :: after → ¬ l.Overruns root after

/-- No leaf overruns if the first does not and none of the others does. -/
theorem clear_cons : Clear root (l :: leaves) ↔ ¬ l.Overruns root leaves ∧ Clear root leaves := by
  constructor
  · intro h
    exact ⟨h [] l leaves rfl, fun before m after heq => h (l :: before) m after (by rw [heq, List.cons_append])⟩
  · rintro ⟨hl, hleaves⟩ before m after heq
    cases before with
    | nil =>
      cases heq
      exact hl
    | cons m' before =>
      obtain ⟨-, heq⟩ := List.cons.inj heq
      exact hleaves before m after heq

instance decidableClear (root : List Char) : (leaves : List Leaf) → Decidable (Clear root leaves)
  | [] => isTrue fun _ _ _ heq => absurd heq (by simp)
  | l :: leaves =>
    have := decidableClear root leaves
    decidable_of_iff _ clear_cons.symm

/-- If none does, all leaves are children, one by one. -/
theorem children_flat (hroot : IsName root) (hleaves : ∀ l ∈ leaves, l.Fit) (hclear : Clear root leaves) :
    children (bodyText root leaves) = leaves.map Leaf.child := by
  induction leaves with
  | nil => exact children_closing _
  | cons l leaves ih =>
    obtain ⟨hl, hleaves⟩ := List.forall_mem_cons.1 hleaves
    obtain ⟨hclear, hrest⟩ := clear_cons.1 hclear
    rw [children_leaf hroot hl hleaves hclear, ih hleaves hrest, List.map_cons]

/-- If one does, some child has tags in its content. -/
theorem exists_nested_of_not_clear (hroot : IsName root) (hleaves : ∀ l ∈ leaves, l.Fit)
    (hover : ¬ Clear root leaves) : ∃ child ∈ children (bodyText root leaves), looksNested child.content := by
  induction leaves with
  | nil => exact absurd (fun _ _ _ heq => absurd heq (by simp)) hover
  | cons l leaves ih =>
    obtain ⟨hl, hleaves⟩ := List.forall_mem_cons.1 hleaves
    by_cases hfirst : l.Overruns root leaves
    · exact exists_nested hroot hl hleaves hfirst
    · obtain ⟨child, hmem, hnested⟩ := ih hleaves fun hclear => hover (clear_cons.2 ⟨hfirst, hclear⟩)
      rw [children_leaf hroot hl hleaves hfirst]
      exact ⟨child, List.mem_cons_of_mem _ hmem, hnested⟩

/-- The children of the root are read from where the leaves begin. -/
theorem Fit.body_text {d : Document} (h : d.Fit) : body d.text = bodyText d.root d.leaves := by
  obtain ⟨rest, hrest⟩ := exists_bodyText d.root d.leaves
  have hwords := h.bare
  rw [text, hrest] at hwords ⊢
  exact @body_element d.root [] rest h.root List.not_mem_nil hwords

end Document

end Markup

open Markup

variable {C : Catalogue}

/-- What a leaf should be as a child becomes the entry that it should be. -/
theorem Markup.Leaf.Fit.entry_child {l : Leaf} (h : l.Fit) : l.child.entry C = l.entry := by
  have hlt : '<' ∉ l.child.content := by
    rw [Leaf.child]
    cases hcontent : l.content with
    | none => exact List.not_mem_nil
    | some content => exact (h.content content hcontent).1
  rw [Child.entry, if_neg (not_looksNested hlt)]
  rfl

/-- Keys that are names are equal only if they are the same. -/
theorem Kind.order_ofText_eq_iff {s t : String} :
    Kind.text.order C (.ofText s) (.ofText t) = .eq ↔ s = t := by
  rw [Kind.order_of_leaf rfl]
  show Bytes.order (Utf8.encode s) (Utf8.encode t) = .eq ↔ s = t
  rw [Bytes.order_eq_iff]
  exact ⟨Utf8.encode_injective, congrArg _⟩

/-- The table has a byte string for each leaf, its own content under its name, and no other entries; those of one name
stand in the order of the document. -/
structure Table.Lists (C : Catalogue) (t : Table Datum) (leaves : List Leaf) : Prop where
  keyKind : t.keyKind = .text
  holds : t.entries.Perm (leaves.map Leaf.entry)
  ordered : ∀ name, t.entries.filter (fun e => Kind.text.order C e.key (.ofText (String.ofList name)) = .eq) =
    (leaves.filter (·.name = name)).map Leaf.entry

/-- Nothing is lost of the children that a table is filled with. -/
theorem Table.addAll_children_perm (C : Catalogue) (cs : List Child) :
    ((Table.empty .text Table.minCapacity).addAll C (cs.map (Child.entry C))).entries.Perm (cs.map (Child.entry C)) :=
  Table.addAll_perm (.empty .text Table.minCapacity) (List.forall_mem_map.2 fun child _ => child.accepts_entry C)

namespace Markup.Document

variable {d : Document}

/-- The table of a document is filled with the entries of its children. -/
theorem Fit.ofXml?_text (h : d.Fit) : Table.ofXml? C (String.ofList d.text) =
    some ((Table.empty .text Table.minCapacity).addAll C
      ((children (bodyText d.root d.leaves)).map (Child.entry C))) := by
  rw [← h.body_text, ← Table.scan_eq]
  exact Table.ofXml?_tag C _

/-- Where no leaf overruns the table lists the leaves. -/
theorem Fit.lists (h : d.Fit) (hclear : Clear d.root d.leaves) :
    ((Table.empty .text Table.minCapacity).addAll C
      ((children (bodyText d.root d.leaves)).map (Child.entry C))).Lists C d.leaves := by
  -- the table is filled with the leaves, and keeps those of one name in order
  have hentries : (children (bodyText d.root d.leaves)).map (Child.entry C) = d.leaves.map Leaf.entry := by
    rw [children_flat h.root h.leaves hclear, List.map_map]
    exact List.map_congr_left fun l hl => (h.leaves l hl).entry_child
  have haccepts : ∀ e ∈ d.leaves.map Leaf.entry,
      Kind.text.accepts C e.key = true ∧ e.kind.accepts C e.value = true := by
    rw [← hentries]
    exact List.forall_mem_map.2 fun child _ => child.accepts_entry C
  obtain ⟨-, hholds, hstable⟩ := Table.kept_addAll C.lawful_builtin C.ranks_builtin (K := .text) (by decide)
    Table.minCapacity (fun e _ => Base.Flat.within (by decide) (by decide) e.key) haccepts
  rw [hentries]
  refine ⟨(Table.addAll_fields _ _).1, hholds, fun name => ?_⟩
  rw [hstable, List.filter_map]
  refine congrArg _ (List.filter_congr fun l _ => decide_eq_decide.2 ?_)
  exact Kind.order_ofText_eq_iff.trans ⟨fun heq => String.ofList_injective heq, congrArg _⟩

/-- A child with tags in its content becomes a table. -/
theorem Fit.not_lists (h : d.Fit) (hover : ¬ Clear d.root d.leaves) :
    ¬ ((Table.empty .text Table.minCapacity).addAll C
      ((children (bodyText d.root d.leaves)).map (Child.entry C))).Lists C d.leaves := by
  intro hlists
  -- the entry of that child is a table, and no leaf's is
  obtain ⟨child, hmem, hnested⟩ := exists_nested_of_not_clear h.root h.leaves hover
  have hentry := hlists.holds.mem_iff.1 ((Table.addAll_children_perm C _).mem_iff.2 (List.mem_map_of_mem hmem))
  obtain ⟨l, -, hl⟩ := List.mem_map.1 hentry
  have hkind := congrArg Entry.kind hl
  rw [Child.entry, if_pos hnested] at hkind
  cases hkind

end Markup.Document

/-- A flat document gives a table, and this lists the leaves just if none of them overruns: if no self-closing leaf with
attributes has siblings after it while its name is the start of the name of one of these that has content, or of that of
the root. -/
theorem Table.ofXml?_flat (C : Catalogue) {d : Document} (h : d.Fit) :
    ∃ t, Table.ofXml? C (String.ofList d.text) = some t ∧
      (t.Lists C d.leaves ↔ Document.Clear d.root d.leaves) := by
  refine ⟨_, h.ofXml?_text, fun hlists => ?_, h.lists⟩
  by_contra hover
  exact h.not_lists hover hlists

/-- Leaves of all four forms. The self-closing one with attributes is followed by leaves, but no closing tag starts with
its name; two leaves have one name, and that of another starts with it. -/
theorem Table.ofXml?_flat_mixed :
    let leaf (name : List Char) (attributes : List (List Char × List Char)) (content : Option (List Char)) : Leaf :=
      ⟨name, attributes, content⟩
    let d : Document := ⟨['r'], [leaf ['a'] [] (some ['1']), leaf ['a', 'b'] [(['x'], ['y', ' '])] (some ['2']),
      leaf ['a'] [] none, leaf ['c'] [(['x'], ['y']), (['z'], [])] none, leaf ['a'] [] (some ['3'])]⟩
    d.Fit ∧ ∃ t, Table.ofXml? .specimens (String.ofList d.text) = some t ∧ t.Lists .specimens d.leaves := by
  intro leaf d
  have hfit : d.Fit := ⟨by decide, by decide, by decide⟩
  obtain ⟨t, ht, hlists⟩ := ofXml?_flat .specimens hfit
  exact ⟨hfit, t, ht, hlists.2 (by decide)⟩

/-- A self-closing leaf with an attribute before one with its name: in place of two byte strings there is one table. -/
theorem Table.ofXml?_flat_overrun :
    let d : Document := ⟨['r', 'o', 'o', 't'], [⟨['k'], [(['a'], ['1'])], none⟩, ⟨['k'], [], some ['x']⟩]⟩
    d.Fit ∧ String.ofList d.text = "<root><k a=\"1\"/><k>x</k></root>" ∧
      ∃ t, Table.ofXml? .specimens (String.ofList d.text) = some t ∧ ¬ t.Lists .specimens d.leaves ∧
        t.entries.map Entry.kind = [.table] := by
  intro d
  have hfit : d.Fit := ⟨by decide, by decide, by decide⟩
  refine ⟨hfit, by decide, _, hfit.ofXml?_text, hfit.not_lists (by decide), ?_⟩
  have hchildren : children (Document.bodyText d.root d.leaves) = [⟨['k'], ['<', 'k', '>', 'x']⟩] := by
    have hname : IsName ['k'] := by decide
    have hpasses : Passes (closingWord ['k']) ['<', 'k', '>', 'x'] :=
      @Passes.opening ['k'] ['k'] ['>', 'x'] hname (by decide)
    exact (children_element hname List.prefix_rfl hname rfl hpasses).trans (congrArg _ (children_closing _))
  have hholds := addAll_children_perm .specimens [⟨['k'], ['<', 'k', '>', 'x']⟩]
  rw [hchildren, List.perm_singleton.1 hholds, List.map_singleton, Child.entry, if_pos (by decide)]

end OrderedTable
