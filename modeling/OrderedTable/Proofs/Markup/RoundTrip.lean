import OrderedTable.Catalogue.Specimens
import OrderedTable.Proofs.Datum.Whole
import OrderedTable.Proofs.Markup.Elements
import OrderedTable.Proofs.Table.Refiling

/-!
# Scanning exported XML

A table keyed by names can be written as XML and scanned again (`Kind.Exportable`), if no search of the scanner goes
wrong: no text in it is markup, nothing makes an element the wrapper by its name, and no key starts with the key of an
entry around it, since content ends at the first closing tag that starts with the element's name. Then the scan finds
each element with its own content, at every level (`Kind.Exportable.rescanned`).

The keys come back in their order because the new table has as many buckets and its entries are put in one behind the
other (`Table.Filed.addAll_in_place`). This takes tables whose keys were read under one base all the time: of others the
entries may stand out of order, and are sorted by being scanned (`Table.rescan_reorders`).
-/

namespace OrderedTable

open Markup

/-! ## What is written -/

/-- The text of the key. -/
def Entry.keyText (e : Entry Datum) : List Char := (e.key.text?.getD "").toList

section
variable (C : Catalogue)

/-- What is between the tags of a table's element, if its keys are text. -/
def Table.xmlBody (t : Table Datum) : List Char :=
  t.entries.flatMap fun e => (e.kind.toXml C e.value (String.ofList e.keyText)).toList

/-- What is between the tags of a value's element. -/
def Kind.xmlContent (k : Kind) (d : Datum) : List Char :=
  match d.table? with
  | some t => if k.base = .table then t.xmlBody C else (k.format C d).toList
  | none => (k.format C d).toList

end

variable {C : Catalogue} {k : Kind} {d : Datum} {t : Table Datum}

/-- Between the tags of a table are its elements. -/
theorem Kind.xmlContent_table (hk : k.base = .table) (hd : d.table? = some t) : k.xmlContent C d = t.xmlBody C := by
  rw [xmlContent, hd]
  exact if_pos hk

/-- Between those of any other value is its text. -/
theorem Kind.xmlContent_flat (hk : k.base.Flat) : k.xmlContent C d = (k.format C d).toList := by
  rw [xmlContent]
  split
  · exact if_neg hk.2
  · rfl

/-- Text without markup stands as it is. -/
theorem toList_escape {text : String} (h : '&' ∉ text.toList ∧ '<' ∉ text.toList ∧ '>' ∉ text.toList) :
    (escape text).toList = text.toList := by
  have hplain : ∀ c ∈ text.toList, escapeChar c = [c] := by
    intro c hc
    unfold escapeChar
    split
    · exact absurd hc h.1
    · exact absurd hc h.2.1
    · exact absurd hc h.2.2
    · rfl
  rw [escape, String.toList_ofList, List.flatMap_congr hplain]
  exact List.flatMap_singleton' _

/-- The element of a scalar, of text or of bytes. -/
theorem Kind.toList_toXml_flat (hbuiltin : Builtin k.base) (hflat : k.base.Flat)
    (htext : '&' ∉ (k.format C d).toList ∧ '<' ∉ (k.format C d).toList ∧ '>' ∉ (k.format C d).toList) (name : String) :
    (k.toXml C d name).toList = '<' :: (name.toList ++ '>' :: (k.xmlContent C d ++ closingTag name.toList)) := by
  rw [toXml_flat hbuiltin hflat, toList_element, xmlContent_flat hflat, toList_escape htext]

/-- The text of a key that is text. -/
theorem Kind.format_key {e : Entry Datum} (hk : k.base = .text false) :
    k.format C e.key = String.ofList e.keyText := by
  have hleaf : k.format C e.key = k.formatLeaf C e.key :=
    read_leaf (parts?_eq_none_of_base (by simp [hk]) (by simp [hk]) e.key)
  rw [hleaf, formatLeaf, hk, Entry.keyText, String.ofList_toList]

/-- The element of a table keyed by text. -/
theorem Table.toList_toXml (hk : t.keyKind.base = .text false) (name : String) :
    (t.toXml C name).toList = '<' :: (name.toList ++ '>' :: (t.xmlBody C ++ closingTag name.toList)) := by
  have hentries : t.entries.map (fun e => e.kind.toXml C e.value (t.keyKind.format C e.key)) =
      t.entries.map (fun e => e.kind.toXml C e.value (String.ofList e.keyText)) :=
    List.map_congr_left fun e _ => congrArg (e.kind.toXml C e.value) (Kind.format_key hk)
  have hparts := Kind.toXml_parts (C := C) (Kind.parts?_of_table (k := .table) (d := .table t) rfl rfl) name
  rw [← Kind.toXml_table (k := .table) (d := .table t) rfl rfl, hparts, toList_element, Table.parts, hentries,
    String.toList_join, List.flatMap_map]
  rfl

/-- A table's element, put as what is read by the scanner: with nothing around its contents and nothing behind it. -/
theorem Table.toXml_eq (hk : t.keyKind.base = .text false) (name : List Char) :
    t.toXml C (String.ofList name) =
      String.ofList ('<' :: (name ++ '>' :: ([] ++ (t.xmlBody C ++ (closingTag name ++ []))))) := by
  rw [← String.toList_inj, toList_toXml hk, String.toList_ofList, String.toList_ofList, List.nil_append, List.append_nil]

/-! ## What can be scanned again -/

/-- Text that is no markup, and holds no word that makes an element the wrapper. -/
structure Markup.PlainText (text : List Char) : Prop where
  noMarkup : '&' ∉ text ∧ '<' ∉ text ∧ '>' ∉ text
  bare : ∀ w ∈ wrapperWords, ¬ w <:+: text

/-- An entry whose key is the text of a name that is no wrapper's and does not start with one of the keys around it. -/
structure Entry.Named (outer : List (List Char)) (e : Entry Datum) : Prop where
  key : e.key.textBytes? = some (Utf8.encode (String.ofList e.keyText))
  name : IsName e.keyText
  bare : ∀ w ∈ wrapperWords, ¬ w <:+: e.keyText
  apart : ∀ name ∈ outer, ¬ name <+: e.keyText

/-- A value that can be scanned again once it is written, within entries with certain keys: a scalar, text or bytes with
a plain text, or a table keyed by names, with such values, of which the tables are not empty. -/
inductive Kind.Exportable (C : Catalogue) : (outer : List (List Char)) → Kind → Datum → Prop
  | flat {outer : List (List Char)} {k : Kind} {d : Datum} (builtin : Builtin k.base) (flat : k.base.Flat)
      (text : PlainText (k.format C d).toList) : Exportable C outer k d
  | table {outer : List (List Char)} {k : Kind} {d : Datum} {t : Table Datum} (kind : k.base = .table)
      (held : d.table? = some t) (keyKind : t.keyKind.base = .text false) (capacity : t.capacity = Table.minCapacity)
      (steady : t.Steady C) (named : ∀ e ∈ t.entries, e.Named outer)
      (filled : ∀ e ∈ t.entries, e.kind.base = .table → ∀ u, e.value.table? = some u → u.entries ≠ [])
      (value : ∀ e ∈ t.entries, Exportable C (e.keyText :: outer) e.kind e.value) : Exportable C outer k d

/-- What the scan makes of a value: of what is no table the bytes of its text, and of a table one with the same keys in
the same order. -/
inductive Kind.Rescanned (C : Catalogue) : Kind → Datum → Kind → Datum → Prop
  | flat {k : Kind} {d : Datum} (flat : k.base.Flat) :
      Rescanned C k d .bytes (.ofBytes (Utf8.encode (k.format C d)))
  | table {k : Kind} {d : Datum} {t u : Table Datum} (kind : k.base = .table) (held : d.table? = some t)
      (keyKind : t.keyKind.base = .text false ∧ u.keyKind = .text)
      (capacity : u.capacity = Table.minCapacity) (pairs : List (Entry Datum × Entry Datum))
      (firsts : t.entries = pairs.map Prod.fst) (seconds : u.entries = pairs.map Prod.snd)
      (key : ∀ z ∈ pairs, z.2.key = .ofText (String.ofList z.1.keyText) ∧ z.1.key.textBytes? = z.2.key.textBytes?)
      (value : ∀ z ∈ pairs, Rescanned C z.1.kind z.1.value z.2.kind z.2.value) :
      Rescanned C k d .table (.table u)

namespace Kind.Exportable

variable {outer : List (List Char)}

/-- The element of the value, between its tags. -/
theorem toList_toXml (h : k.Exportable C outer d) (name : String) :
    (k.toXml C d name).toList = '<' :: (name.toList ++ '>' :: (k.xmlContent C d ++ closingTag name.toList)) := by
  cases h with
  | flat builtin flat text => exact toList_toXml_flat builtin flat text.noMarkup name
  | table kind held keyKind => rw [toXml_table kind held, Table.toList_toXml keyKind, xmlContent_table kind held]

/-- A search passes the element if it passes tags, and texts with an end tag behind them. -/
theorem passes_toXml {W : List Char} (h : k.Exportable C outer d) (good : List Char → Prop)
    (hopening : ∀ name, good name → Passes W ('<' :: (name ++ ['>'])))
    (htext : ∀ text name, PlainText text → good name → Passes W (text ++ closingTag name))
    (hnames : ∀ inner, outer ⊆ inner → ∀ e : Entry Datum, e.Named inner → good e.keyText)
    {name : List Char} (hname : good name) : Passes W (k.toXml C d (String.ofList name)).toList := by
  have hsplit : ∀ {outer : List (List Char)} {k : Kind} {d : Datum} {name : List Char}, k.Exportable C outer d →
      (k.toXml C d (String.ofList name)).toList =
        '<' :: (name ++ ['>']) ++ (k.xmlContent C d ++ closingTag name) := fun h => by
    rw [h.toList_toXml, String.toList_ofList]
    simp
  -- along the value, with the names around it
  induction h generalizing name with
  | @flat outer k d builtin flat text =>
    rw [hsplit (.flat builtin flat text : k.Exportable C outer d), xmlContent_flat flat]
    exact (hopening name hname).append (htext _ _ text hname)
  | @table outer k d t kind held keyKind capacity steady named filled value ih =>
    rw [hsplit (.table kind held keyKind capacity steady named filled value), xmlContent_table kind held]
    refine (hopening name hname).append <|
      Passes.append (.flatMap fun e he => ?_) (htext [] name ⟨by simp, by decide⟩ hname)
    exact ih e he (fun inner hinner => hnames inner fun k hk => hinner (List.mem_cons_of_mem _ hk))
      (hnames outer (List.Subset.refl _) e (named e he))

/-- A search for the closing tag of an entry passes what is between its tags. -/
theorem passes_content {name : List Char} (h : k.Exportable C (name :: outer) d) (hname : IsName name) :
    Passes (closingWord name) (k.xmlContent C d) := by
  cases h with
  | flat builtin flat text =>
    rw [xmlContent_flat flat]
    exact .plain text.noMarkup.2.1
  | @table _ _ _ t kind held keyKind capacity steady named filled value =>
    rw [xmlContent_table kind held]
    refine .flatMap fun e he => ?_
    have hgood : ∀ inner, name :: outer ⊆ inner → ∀ e : Entry Datum, e.Named inner →
        IsName e.keyText ∧ ¬ name <+: e.keyText := fun inner hinner e hnamed =>
      ⟨hnamed.name, hnamed.apart name (hinner List.mem_cons_self)⟩
    -- the names inside do not start with this one, at any level
    refine (value e he).passes_toXml (fun n => IsName n ∧ ¬ name <+: n) (fun n hn => ?_) (fun text n htext hn => ?_)
      (fun inner hinner => hgood inner fun k hk => hinner (List.mem_cons_of_mem _ hk))
      (hgood _ (List.Subset.refl _) e (named e he))
    · exact .opening hn.1 (by simp)
    · exact (Passes.plain htext.noMarkup.2.1).append (.closing hname hn.1 hn.2)

/-- Nothing in the element makes it, or an element in it, a wrapper. -/
theorem bare_toXml (h : k.Exportable C outer d) {w name : List Char} (hw : w ∈ wrapperWords) (hname : ¬ w <:+: name) :
    Passes w (k.toXml C d (String.ofList name)).toList :=
  h.passes_toXml (fun n => ¬ w <:+: n) (fun _ hn => (passes_tags hw hn (not_infix_nil hw)).1)
    (fun _ _ htext hn => (passes_tags hw hn (htext.bare w hw)).2) (fun _ _ _ hnamed => hnamed.bare w hw) hname

end Kind.Exportable

/-! ## The scan -/

/-- The child that an entry is written as. -/
def Entry.child (C : Catalogue) (e : Entry Datum) : Child := ⟨e.keyText, e.kind.xmlContent C e.value⟩

/-- The elements of entries are read one by one. -/
theorem Markup.children_elements {outer : List (List Char)} {es : List (Entry Datum)} (hnamed : ∀ e ∈ es, e.Named outer)
    (hvalue : ∀ e ∈ es, e.kind.Exportable C (e.keyText :: outer) e.value) (more : List Char) :
    children (es.flatMap (fun e => (e.kind.toXml C e.value (String.ofList e.keyText)).toList) ++ more) =
      es.map (Entry.child C) ++ children more := by
  induction es with
  | nil => rfl
  | cons e es ih =>
    obtain ⟨hname, hnamed⟩ := List.forall_mem_cons.1 hnamed
    obtain ⟨hfirst, hvalue⟩ := List.forall_mem_cons.1 hvalue
    -- content ends at the first closing tag with the name, and that is its own
    have hread := hname.name.read?_plain (e.kind.xmlContent C e.value ++ (closingTag e.keyText ++
      (es.flatMap (fun e => (e.kind.toXml C e.value (String.ofList e.keyText)).toList) ++ more)))
    have hchild := children_element hname.name List.prefix_rfl hname.name hread (hfirst.passes_content hname.name)
    rw [ih hnamed hvalue] at hchild
    rw [List.flatMap_cons, hfirst.toList_toXml, String.toList_ofList]
    simpa [Entry.child] using hchild

/-- Text with an element at its start is read again. -/
theorem Markup.looksNested_element {name rest : List Char} (hrest : '>' ∈ rest) :
    looksNested ('<' :: (name ++ rest)) = true := by
  rw [looksNested, ← List.nil_append ('<' :: _), seek_append List.not_mem_nil]
  simp [hrest]

/-- A datum with a text is seen as this text. -/
theorem Datum.alike_ofText {text : String} (h : d.textBytes? = some (Utf8.encode text)) :
    Datum.Alike .exact d (.ofText text) := by
  obtain ⟨hscalar, hbytes, hleaf⟩ := only_text h
  refine .leaf hleaf ⟨rfl, rfl⟩ ⟨fun s => (hscalar s).trans rfl, h, hbytes⟩ fun t u ht _ => ?_
  cases hleaf.2.symm.trans ht

namespace Table

variable {outer : List (List Char)} {name gap tail : List Char}
variable (value : ∀ e ∈ t.entries, e.kind.Exportable C (e.keyText :: outer) e.value)
include value

/-- The elements of a table start with a tag, if there are any. -/
theorem exists_xmlBody (hfilled : t.entries ≠ []) :
    ∃ name rest, t.xmlBody C = '<' :: (name ++ rest) ∧ '>' ∈ rest := by
  obtain ⟨e, es, hes⟩ := List.exists_cons_of_ne_nil hfilled
  have hfirst := value e (hes ▸ List.mem_cons_self)
  rw [Table.xmlBody, hes, List.flatMap_cons, hfirst.toList_toXml, String.toList_ofList, List.cons_append,
    List.append_assoc]
  exact ⟨_, _, rfl, List.mem_append_left _ List.mem_cons_self⟩

variable (named : ∀ e ∈ t.entries, e.Named outer)
include named

/-- A table's element, whatever is around its contents and behind it, is no wrapper by what it holds. -/
theorem not_infix_xml {w : List Char} (hw : w ∈ wrapperWords) (hname : ¬ w <:+: name) (hgap : Passes w gap)
    (htail : Passes w tail) : ¬ w <:+: '<' :: (name ++ '>' :: (gap ++ (t.xmlBody C ++ (closingTag name ++ tail)))) := by
  obtain ⟨hopening, hclosing⟩ := passes_tags hw hname (not_infix_nil hw)
  have hbody : Passes w (t.xmlBody C) :=
    .flatMap fun e he => (value e he).bare_toXml hw ((named e he).bare w hw)
  have hpasses := hopening.append (hgap.append (hbody.append (hclosing.append htail)))
  have hne : w ≠ [] := fun hnil => not_infix_nil hw (hnil ▸ List.infix_rfl)
  simpa using hpasses.not_infix hne

/-- The children in a table's element are its entries. -/
theorem children_xml (hname : IsName name) (hgap : '<' ∉ gap)
    (hbare : ∀ w ∈ wrapperWords, ¬ w <:+: '<' :: (name ++ '>' :: (gap ++ (t.xmlBody C ++ (closingTag name ++ tail))))) :
    children (body ('<' :: (name ++ '>' :: (gap ++ (t.xmlBody C ++ (closingTag name ++ tail)))))) =
      t.entries.map (Entry.child C) := by
  obtain ⟨rest, hrest⟩ : ∃ rest, t.xmlBody C ++ (closingTag name ++ tail) = '<' :: rest := by
    by_cases hempty : t.entries = []
    · rw [Table.xmlBody, hempty]
      exact ⟨_, rfl⟩
    · obtain ⟨first, rest, hbody, -⟩ := exists_xmlBody value hempty
      rw [hbody]
      exact ⟨_, rfl⟩
  rw [hrest] at hbare ⊢
  rw [body_element hname hgap hbare, ← hrest, Table.xmlBody, children_elements named value]
  exact (congrArg _ (children_closing _)).trans (List.append_nil _)

end Table

namespace Kind.Exportable

variable {outer : List (List Char)}

/-- The entries of a table that can be written. -/
theorem entries (h : k.Exportable C outer d) (hk : k.base = .table) (hd : d.table? = some t) :
    t.keyKind.base = .text false ∧ (∀ e ∈ t.entries, e.Named outer) ∧
      ∀ e ∈ t.entries, e.kind.Exportable C (e.keyText :: outer) e.value := by
  cases h with
  | flat _ flat => exact absurd hk flat.2
  | table kind held keyKind _ _ named _ value =>
    cases held.symm.trans hd
    exact ⟨keyKind, named, value⟩

/-- What is read for a value in an element is what this is to become, if a table is read again as that. -/
theorem rescanned_entry {name : List Char} (hbare : ∀ w ∈ wrapperWords, ¬ w <:+: name)
    (h : k.Exportable C (name :: outer) d)
    (hfilled : k.base = .table → ∀ u, d.table? = some u → u.entries ≠ [])
    (hagain : ∀ u, k.base = .table → d.table? = some u →
      let text := '<' :: (name ++ '>' :: (['\n'] ++ (u.xmlBody C ++ (closingTag name ++ ['\n']))))
      (∀ w ∈ wrapperWords, ¬ w <:+: text) → Kind.Rescanned C k d .table (.table (Table.scan C text))) :
    let entry := Child.entry C ⟨name, k.xmlContent C d⟩
    Kind.Rescanned C k d entry.kind entry.value := by
  intro entry
  -- what is no table has no tags in it; a table has, as it is not empty
  cases h with
  | flat _ flat text =>
    have hcontent : k.xmlContent C d = (k.format C d).toList := xmlContent_flat flat
    have hentry : entry = ⟨.ofText (String.ofList name), .ofBytes (Utf8.encode (k.format C d)), .bytes⟩ := by
      show Child.entry C ⟨name, k.xmlContent C d⟩ = _
      rw [hcontent, Child.entry_of_plain text.noMarkup.2.1, String.ofList_toList]
    rw [hentry]
    exact .flat flat
  | @table _ _ _ u kind held _ _ _ named _ value =>
    have hcontent : k.xmlContent C d = u.xmlBody C := xmlContent_table kind held
    obtain ⟨first, rest, hbody, hrest⟩ := Table.exists_xmlBody value (hfilled kind u held)
    have hentry : entry = ⟨.ofText (String.ofList name), .table (Table.scan C (Child.wrapped ⟨name, u.xmlBody C⟩)),
        .table⟩ := by
      show Child.entry C ⟨name, k.xmlContent C d⟩ = _
      rw [hcontent, Child.entry_of_nested (by rw [hbody]; exact looksNested_element hrest)]
    have hwrapped : Child.wrapped ⟨name, u.xmlBody C⟩ =
        '<' :: (name ++ '>' :: (['\n'] ++ (u.xmlBody C ++ (closingTag name ++ ['\n'])))) := by
      simp [Child.wrapped, closingTag, closingWord]
    rw [hentry, hwrapped]
    refine hagain u kind held fun w hw => ?_
    have hline : Passes w ['\n'] := passes_ended hw (not_infix_nil hw) (by simp)
    exact Table.not_infix_xml value named hw (hbare w hw) hline hline

/-- A table's element, whatever is around its contents and behind it, is scanned as what the table is to become. -/
theorem rescanned (h : k.Exportable C outer d) (hk : k.base = .table) (hd : d.table? = some t)
    {name gap tail : List Char} (hname : IsName name) (hgap : '<' ∉ gap)
    (hbare : ∀ w ∈ wrapperWords, ¬ w <:+: '<' :: (name ++ '>' :: (gap ++ (t.xmlBody C ++ (closingTag name ++ tail))))) :
    Kind.Rescanned C k d .table
      (.table (Table.scan C ('<' :: (name ++ '>' :: (gap ++ (t.xmlBody C ++ (closingTag name ++ tail))))))) := by
  -- along the value: a table in it is scanned in a call of its own, with a line end around its contents
  induction h generalizing t name gap tail with
  | flat _ flat => exact absurd hk flat.2
  | @table outer k d t kind held keyKind capacity steady named filled value ih =>
    cases held.symm.trans hd
    obtain ⟨pairs, hpairs⟩ : ∃ pairs, t.entries.map (fun e => (e, (e.child C).entry C)) = pairs := ⟨_, rfl⟩
    have hmem : ∀ z ∈ pairs, z.1 ∈ t.entries ∧ z.2 = (z.1.child C).entry C := by
      intro z hz
      obtain ⟨e, he, rfl⟩ := List.mem_map.1 (hpairs ▸ hz)
      exact ⟨he, rfl⟩
    have hfirsts : t.entries = pairs.map Prod.fst := by
      rw [← hpairs, List.map_map]
      exact (List.map_id _).symm
    have hseconds : (t.entries.map (Entry.child C)).map (Child.entry C) = pairs.map Prod.snd := by
      rw [← hpairs, List.map_map, List.map_map]
      rfl
    -- they come in the order in which the new table is to have them
    have hfilled : ((Table.empty .text Table.minCapacity).addAll C (pairs.map Prod.snd)).entries =
        pairs.map Prod.snd := by
      have hbuiltin : Builtin t.keyKind.base := by
        rw [keyKind]
        decide
      have hflat : t.keyKind.base.Flat := by
        rw [keyKind]
        decide
      refine (steady.filed C.ranks_builtin fun e _ => hflat.within hbuiltin e.key).addAll_in_place steady.shaped
        C.lawful_builtin C.respects_exact hbuiltin keyKind ((Nat.max_self _).trans capacity.symm) hfirsts
        (fun z hz => ?_) fun z hz => ?_
      · obtain ⟨hentry, hz⟩ := hmem z hz
        rw [hz, Child.key_entry]
        exact Datum.alike_ofText (named z.1 hentry).key
      · rw [(hmem z hz).2]
        exact ((z.1.child C).accepts_entry C).2
    rw [Table.scan_eq, Table.children_xml value named hname hgap hbare, hseconds]
    refine .table kind held ⟨keyKind, (Table.addAll_fields _ _).1⟩ ((Table.addAll_fields _ _).2.trans (Nat.max_self _))
      pairs hfirsts hfilled (fun z hz => ?_) fun z hz => ?_
    · obtain ⟨hentry, hz⟩ := hmem z hz
      rw [hz, Child.key_entry]
      exact ⟨rfl, (named z.1 hentry).key⟩
    · obtain ⟨hentry, hz⟩ := hmem z hz
      rw [hz]
      have hnamed := named z.1 hentry
      exact rescanned_entry hnamed.bare (value z.1 hentry) (filled z.1 hentry) fun u hk hu hbare =>
        ih z.1 hentry hk hu hnamed.name (by decide) hbare

/-- Its kinds are built in. -/
theorem within (h : k.Exportable C outer d) : k.Within Builtin d := by
  induction h with
  | @flat _ k d builtin flat => exact flat.within builtin d
  | @table _ k d t kind held keyKind _ _ _ _ _ ih =>
    refine .of_parts (parts?_of_table kind held) ?_ ?_ ih
    · rw [kind]
      decide
    · show Builtin t.keyKind.base
      rw [keyKind]
      decide

end Kind.Exportable

/-! ## Comparing with what was written -/

/-- What is no table, at every level, is a byte string that holds UTF-8. -/
inductive Kind.Textual : Kind → Datum → Prop
  | bytes {k : Kind} {d : Datum} {text : String} (kind : k.base = .bytes)
      (held : d.bytes? = some (Utf8.encode text)) : Textual k d
  | table {k : Kind} {d : Datum} {t : Table Datum} (kind : k.base = .table) (held : d.table? = some t)
      (value : ∀ e ∈ t.entries, Textual e.kind e.value) : Textual k d

/-- Data that differ in nothing but that kinds own their values in one of them. -/
def Likeness.owned : Likeness where
  keeps := Builtin
  kind := Kind.owner
  base_kind _ := rfl
  form _ _ := True

/-- No kind that is not built in is among them, so none has to respect this. -/
theorem Catalogue.respects_owned (C : Catalogue) : C.Respects .owned :=
  fun id hid => absurd hid (not_builtin_extension id)

/-- Byte strings that hold UTF-8 come back as they were. -/
theorem Kind.Rescanned.alike {k' : Kind} {d' : Datum} (h : k.Rescanned C d k' d') (htext : k.Textual d) :
    (Builtin k.base ∧ k' = k.owner) ∧ Datum.Alike .owned d d' := by
  induction h with
  | @flat k d flat =>
    cases htext with
    | table kind => exact absurd kind flat.2
    | @bytes _ _ text kind held =>
      -- UTF-8 is decoded to the text that it was encoded from, and that is encoded again
      have hformat : k.format C d = text := by
        have hleaf : k.format C d = k.formatLeaf C d := read_leaf (parts?_eq_none_of_base flat.1 flat.2 d)
        rw [hleaf, formatLeaf, kind, held]
        exact Utf8.decodeLossy_encode text
      obtain ⟨hscalar, hnotext, hleaf⟩ := Datum.only_bytes held
      rw [hformat]
      refine ⟨⟨by rw [kind]; decide, by rw [owner, kind]; rfl⟩, .leaf hleaf ⟨rfl, rfl⟩ ⟨hscalar, hnotext, held⟩ trivial⟩
  | @table k d t u kind held keyKind capacity pairs firsts seconds key value ih =>
    cases htext with
    | bytes kind' => cases kind.symm.trans kind'
    | table _ held' htext =>
      cases held.symm.trans held'
      have hbuiltin : Builtin t.keyKind.base := by
        rw [keyKind.1]
        decide
      refine ⟨⟨by rw [kind]; decide, by rw [owner, kind]; rfl⟩, ?_⟩
      refine .of_pairs k (parts?_of_table kind held) (parts?_of_table kind rfl) firsts seconds
        ⟨hbuiltin, ?_⟩ (fun z hz => ?_) trivial
      · show u.keyKind = t.keyKind.owner
        rw [keyKind.2, owner, keyKind.1]
        rfl
      · obtain ⟨hkind, hvalue⟩ := ih z hz (htext z.1 (firsts ▸ List.mem_map_of_mem hz))
        obtain ⟨hkey, hsame⟩ := key z hz
        rw [hkey] at hsame
        obtain ⟨hscalar, hbytes, hleaf⟩ := Datum.only_text hsame
        refine ⟨hkind.1, hkind.2, ?_, hvalue⟩
        rw [hkey]
        exact .leaf hleaf ⟨rfl, rfl⟩ ⟨hscalar, hsame, hbytes⟩ trivial

/-- A table that is exported as XML, under a root element that is no wrapper by its name, is scanned as a table with the
same keys in the same order, and so at every level, with a table for each table and the bytes of its text for every
other value. If these are byte strings of UTF-8 to begin with, the two tables compare as equal. -/
theorem Table.rescan_toXml (C : Catalogue) {t : Table Datum} (h : Kind.table.Exportable C [] (.table t))
    {root : List Char} (hroot : IsName root) (hbare : ∀ w ∈ wrapperWords, ¬ w <:+: root) :
    ∃ u, Table.ofXml? C (t.toXml C (String.ofList root)) = some u ∧
      Kind.table.Rescanned C (.table t) .table (.table u) ∧
      (Kind.table.Textual (.table t) → t.order C u = .eq ∧ u.order C t = .eq) := by
  obtain ⟨keyKind, named, value⟩ := h.entries rfl rfl
  have hwords := fun w hw => not_infix_xml value named hw (hbare w hw) .nil .nil
  have hrescanned := h.rescanned rfl rfl hroot List.not_mem_nil hwords
  refine ⟨_, by rw [toXml_eq keyKind]; exact Table.ofXml?_tag C _, hrescanned, fun htextual => ?_⟩
  have halike := (hrescanned.alike htextual).2
  -- the table compares as equal to itself, and so to what is like it
  have hself := Kind.order_self C.lawful_builtin.toOrders h.within
  have hbuiltin : Builtin Kind.table.base := by decide
  rw [← Kind.order_table, ← Kind.order_table]
  exact ⟨(halike.order_right C.respects_owned hbuiltin _).symm.trans hself,
    (halike.order_left C.respects_owned hbuiltin _).symm.trans hself⟩

/-! ## Two tables -/

/-- The text of a key that holds UTF-8 is what was encoded. -/
theorem Entry.keyText_eq {e : Entry Datum} {name : List Char}
    (h : e.key.textBytes? = some (Utf8.encode (String.ofList name))) : e.keyText = name := by
  rw [keyText, Datum.text?_eq, h, Option.map_some, Utf8.decode?_encode]
  exact String.toList_ofList

/-- An entry under a text that is a name. -/
theorem Entry.Named.of_name {outer : List (List Char)} {e : Entry Datum} {name : List Char}
    (key : e.key.textBytes? = some (Utf8.encode (String.ofList name))) (isName : IsName name)
    (bare : ∀ w ∈ wrapperWords, ¬ w <:+: name) (apart : ∀ k ∈ outer, ¬ k <+: name) : e.Named outer := by
  obtain rfl := Entry.keyText_eq key
  exact ⟨key, isName, bare, apart⟩

/-- A byte string of UTF-8 shows the text that it holds. -/
theorem Kind.format_ofBytes (text : String) : Kind.bytes.format C (.ofBytes (Utf8.encode text)) = text :=
  Utf8.decodeLossy_encode text

/-- Bytes that spell a plain text can be written. -/
theorem Kind.Exportable.ofBytes {outer : List (List Char)} {text : List Char} (h : PlainText text) :
    Kind.bytes.Exportable C outer (.ofBytes (Utf8.encode (String.ofList text))) := by
  refine .flat (by decide) (by decide) ?_
  rw [format_ofBytes, String.toList_ofList]
  exact h

/-- A table that is filled with entries that can be written. -/
theorem Kind.Exportable.addAll {outer : List (List Char)} {es : List (Entry Datum)}
    (hes : ∀ e ∈ es, e.Named outer ∧ (e.kind.base = .table → ∀ u, e.value.table? = some u → u.entries ≠ []) ∧
      e.kind.Exportable C (e.keyText :: outer) e.value) :
    Kind.table.Exportable C outer (.table ((Table.empty .text Table.minCapacity).addAll C es)) := by
  refine .table rfl rfl ?_ ((Table.addAll_fields _ _).2.trans (Nat.max_self _)) (.addAll C _ _ _)
    (fun e he => (hes e (Table.mem_entries_addAll he)).1) (fun e he => (hes e (Table.mem_entries_addAll he)).2.1)
    fun e he => (hes e (Table.mem_entries_addAll he)).2.2
  rw [(Table.addAll_fields _ _).1]
  rfl

/-- The entry of a word by a name. -/
def Entry.word (name text : List Char) : Entry Datum :=
  ⟨.ofText (String.ofList name), .ofBytes (Utf8.encode (String.ofList text)), .bytes⟩

/-- It can be written if the name does not start with one that is around it. -/
theorem Entry.exportable_word {outer : List (List Char)} {name text : List Char} (isName : IsName name)
    (bare : ∀ w ∈ wrapperWords, ¬ w <:+: name) (apart : ∀ k ∈ outer, ¬ k <+: name) (plain : PlainText text) :
    let e := word name text
    e.Named outer ∧ (e.kind.base = .table → ∀ u, e.value.table? = some u → u.entries ≠ []) ∧
      e.kind.Exportable C (e.keyText :: outer) e.value :=
  ⟨.of_name rfl isName bare apart, fun _ _ hu => (nomatch hu), .ofBytes plain⟩

/-- A word is read as it was written. -/
theorem Entry.child_word {name text : List Char} (plain : PlainText text) :
    ((word name text).child C).entry C = word name text := by
  have hcontent : Kind.bytes.xmlContent C (.ofBytes (Utf8.encode (String.ofList text))) = text := by
    rw [Kind.xmlContent_flat (by decide), Kind.format_ofBytes, String.toList_ofList]
  have hchild : (word name text).child C = ⟨name, text⟩ := by
    rw [child, word, hcontent, keyText_eq rfl]
  rw [hchild, Markup.Child.entry_of_plain plain.noMarkup.2.1]
  rfl

/-- A table of words with a table of words in it. Two keys are the same, and two start with another that is beside
them. -/
theorem Table.rescan_toXml_nested :
    let C := Catalogue.specimens
    let inner := (Table.empty .text Table.minCapacity).addAll C
      [.word ['b'] ['1'], .word ['b', 'a'] [' ', '/']]
    let t := (Table.empty .text Table.minCapacity).addAll C
      [⟨.ofText (String.ofList ['a']), .table inner, .table⟩, .word ['a', 'b'] ['2'], .word ['a'] []]
    Kind.table.Exportable C [] (.table t) ∧ Kind.table.Textual (.table t) ∧
      ∃ u, Table.ofXml? C (t.toXml C (String.ofList ['r'])) = some u ∧
        Kind.table.Rescanned C (.table t) .table (.table u) ∧ t.order C u = .eq ∧ u.order C t = .eq := by
  intro C inner t
  have hinner : Kind.table.Exportable C [['a']] (.table inner) := by
    refine .addAll fun e he => ?_
    simp only [List.mem_cons, List.not_mem_nil, or_false] at he
    rcases he with rfl | rfl
    · exact Entry.exportable_word (by decide) (by decide) (by decide) ⟨by decide, by decide⟩
    · exact Entry.exportable_word (by decide) (by decide) (by decide) ⟨by decide, by decide⟩
  have ht : Kind.table.Exportable C [] (.table t) := by
    refine .addAll fun e he => ?_
    simp only [List.mem_cons, List.not_mem_nil, or_false] at he
    rcases he with rfl | rfl | rfl
    · refine ⟨.of_name rfl (by decide) (by decide) (by decide), fun _ u hu => ?_, ?_⟩
      · obtain rfl : inner = u := Option.some.inj hu
        exact List.ne_nil_of_length_pos (by decide +kernel)
      · have hkey : Entry.keyText ⟨.ofText (String.ofList ['a']), .table inner, .table⟩ = ['a'] := Entry.keyText_eq rfl
        rw [hkey]
        exact hinner
    · exact Entry.exportable_word (by decide) (by decide) (by decide) ⟨by decide, by decide⟩
    · exact Entry.exportable_word (by decide) (by decide) (by decide) ⟨by decide, by decide⟩
  have hwords : Kind.table.Textual (.table inner) := by
    refine .table rfl rfl fun e he => ?_
    have he := mem_entries_addAll he
    simp only [List.mem_cons, List.not_mem_nil, or_false] at he
    rcases he with rfl | rfl
    · exact .bytes rfl rfl
    · exact .bytes rfl rfl
  have htextual : Kind.table.Textual (.table t) := by
    refine .table rfl rfl fun e he => ?_
    have he := mem_entries_addAll he
    simp only [List.mem_cons, List.not_mem_nil, or_false] at he
    rcases he with rfl | rfl | rfl
    · exact hwords
    · exact .bytes rfl rfl
    · exact .bytes rfl rfl
  obtain ⟨u, hu, hrescanned, horder⟩ := @rescan_toXml C t ht ['r'] (by decide) (by decide)
  exact ⟨ht, htextual, u, hu, hrescanned, horder htextual⟩

/-- Two words that were put in under another base of keys, and stand in the order of their buckets under that. -/
def Table.foldedOnce : Table Datum :=
  (Table.empty .textCaseBlind Table.minCapacity).run .specimens
    [.add (.word ['a'] ['1']), .add (.word ['b'] ['2']), .setKeyKind .text]

/-- Scanned again, they change places. -/
theorem Table.rescan_reorders :
    let C := Catalogue.specimens
    let t := Table.foldedOnce
    t.keyKind = .text ∧ t.capacity = Table.minCapacity ∧
      (∀ e ∈ t.entries, e.Named [] ∧ e.kind.base = .bytes ∧ e.kind.Exportable C [e.keyText] e.value) ∧
      t.entries.map Entry.keyText = [['b'], ['a']] ∧
      ∃ u, Table.ofXml? C (t.toXml C (String.ofList ['r'])) = some u ∧
        u.entries.map Entry.keyText = [['a'], ['b']] := by
  -- the two keys, filled in under the kind of text, stand in another order
  have hsorted : ((Table.empty .text Table.minCapacity).addAll .specimens
      [.word ['b'] ['2'], .word ['a'] ['1']]).entries.map Entry.keyText = [['a'], ['b']] := by rfl
  intro C t
  have hentries : t.entries = [.word ['b'] ['2'], .word ['a'] ['1']] := by rfl
  have hword (name text : List Char) (isName : IsName name) (bare : ∀ w ∈ wrapperWords, ¬ w <:+: name)
      (plain : PlainText text) := @Entry.exportable_word C [] name text isName bare (List.forall_mem_nil _) plain
  have hb := hword ['b'] ['2'] (by decide) (by decide) ⟨by decide, by decide⟩
  have ha := hword ['a'] ['1'] (by decide) (by decide) ⟨by decide, by decide⟩
  have hexportable : ∀ e ∈ t.entries,
      e.Named [] ∧ e.kind.base = .bytes ∧ e.kind.Exportable C [e.keyText] e.value := by
    rw [hentries]
    exact List.forall_mem_cons.2 ⟨⟨hb.1, rfl, hb.2.2⟩, List.forall_mem_singleton.2 ⟨ha.1, rfl, ha.2.2⟩⟩
  have hnamed : ∀ e ∈ t.entries, e.Named [] := fun e he => (hexportable e he).1
  have hvalue : ∀ e ∈ t.entries, e.kind.Exportable C [e.keyText] e.value := fun e he => (hexportable e he).2.2
  have hroot : ∀ w ∈ wrapperWords, ¬ w <:+: ['r'] := by decide
  have hscan : Table.ofXml? C (t.toXml C (String.ofList ['r'])) =
      some ((Table.empty .text Table.minCapacity).addAll C [.word ['b'] ['2'], .word ['a'] ['1']]) := by
    have hwords := fun w hw => not_infix_xml hvalue hnamed hw (hroot w hw) .nil .nil
    rw [toXml_eq rfl, ofXml?_tag, scan_eq, children_xml hvalue hnamed (by decide) (by decide) hwords,
      hentries, List.map_cons, List.map_singleton, List.map_cons, List.map_singleton,
      Entry.child_word ⟨by decide, by decide⟩, Entry.child_word ⟨by decide, by decide⟩]
  exact ⟨rfl, rfl, hexportable, by rw [hentries]; rfl, _, hscan, hsorted⟩

end OrderedTable
