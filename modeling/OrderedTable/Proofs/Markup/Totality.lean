import OrderedTable.Catalogue.Specimens
import OrderedTable.Proofs.Datum.Nesting
import OrderedTable.Proofs.Markup.Offsets
import OrderedTable.Proofs.Table.History

/-!
# The scanner comes to an end

What a child holds may be read again, as a text that starts and ends with the child's name. These texts need not get
shorter: a name can hold a closing tag, and then a child can end in the name that was put behind it. What gets fewer are
the `>` in the *content* that a call of the scanner is made on (`Call.count_content_lt`). Two of them come before every
content that is found, the end of the wrapper's start tag and that of the child's own, and of these only one can have
been put there.

So the scanner can be written as it calls itself (`Call.scan`), over the loop by positions. No call is a fault
(`Call.scan_eq`), and there are no more tables in one another than there are `>` (`Call.nesting_le`).
-/

namespace OrderedTable

open Markup Text

namespace Markup

/-- A call of the scanner: on a text from outside, or on what a child holds. No name of a child holds a `>`. -/
inductive Call where
  | outer (text : List Char)
  | inner (child : Child) (h : '>' ∉ child.name)

namespace Call

/-- The content that the call is made on. -/
def content : Call → List Char
  | outer text => text
  | inner child _ => child.content

/-- The text that is read in the call. -/
def text : Call → List Char
  | outer text => dropBlanks text
  | inner child _ => dropBlanks child.wrapped

/-- The children that the call reads. -/
def siblings (call : Call) : Except SliceFault (List Child) := Markup.siblings call.text (firstChild? call.text)

/-- A call reads the children in the body of its text. -/
theorem siblings_eq (call : Call) : call.siblings = .ok (children (body call.text)) := siblings_firstChild? call.text

/-- A child that is read again starts with its tag, so no blanks are dropped. -/
theorem text_inner (child : Child) (h : '>' ∉ child.name) : (inner child h).text = child.wrapped := rfl

/-- At most one `>` was put before the content of a call. -/
theorem bound_text_le (call : Call) : bound call.text ≤ call.content.count '>' + 1 := by
  cases call with
  | outer text =>
    have hbound : bound (dropBlanks text) ≤ (dropBlanks text).count '>' := by
      have := (List.dropWhile_sublist (· ≠ '<') (l := (dropBlanks text).reverse)).count_le '>'
      rwa [List.count_reverse] at this
    have hblanks := (List.dropWhile_sublist isBlank (l := text)).count_le '>'
    exact Nat.le_succ_of_le (Nat.le_trans hbound hblanks)
  | inner child h => exact bound_wrapped_le h

variable {call : Call} {cs : List Child} {child : Child}

/-- No child that a call reads has a `>` in its name. -/
theorem not_mem_name (hread : call.siblings = .ok cs) (hmem : child ∈ cs) : '>' ∉ child.name := by
  cases hread.symm.trans call.siblings_eq
  exact Markup.not_mem_name hmem

/-- A child that is read again holds fewer `>` than what the call was made on. -/
theorem count_content_lt (hread : call.siblings = .ok cs) (hmem : child ∈ cs) (hnested : looksNested child.content) :
    child.content.count '>' < call.content.count '>' := by
  cases hread.symm.trans call.siblings_eq
  have hle := content_le_bound hmem hnested
  have hbound := call.bound_text_le
  omega

variable (C : Catalogue)

/-- The table that a call comes to, if its text starts with a tag. A child that is read again is a call of its
own. -/
def scan (call : Call) : Except SliceFault (Option (Table Datum)) :=
  if call.text.head? = some '<' then
    match _hread : call.siblings with
    | .error fault => .error fault
    | .ok cs => do
      let found : List (Option (Entry Datum)) ← cs.attach.mapM fun ⟨child, _hmem⟩ => do
        let key := Datum.ofText (String.ofList child.name)
        if _hnested : looksNested child.content then
          let t? ← scan (.inner child (not_mem_name _hread _hmem))
          return t?.map fun t => ⟨key, .table t, .table⟩
        else return some ⟨key, .ofBytes (Utf8.encode (String.ofList child.content)), .bytes⟩
      return some ((Table.empty .text Table.minCapacity).addAll C (found.filterMap id))
  else return none
termination_by call.content.count '>'
decreasing_by exact count_content_lt _hread _hmem _hnested

end Call

variable (C : Catalogue)

/-- No call is a fault. It comes to the table of its text. -/
theorem Call.scan_eq (call : Call) :
    call.scan C = .ok (if call.text.head? = some '<' then some (Table.scan C call.text) else none) := by
  rw [scan]
  split
  · next htag =>
    split
    · next hread => cases hread.symm.trans call.siblings_eq
    · next cs hread =>
      cases hread.symm.trans call.siblings_eq
      -- the children in turn; each that is read again is a call of its own, which is no fault either
      rw [ok_mapM (g := fun child => some (child.1.entry C))]
      · have hentries : ((children (body call.text)).attach.map fun child => some (child.1.entry C)).filterMap id =
            (children (body call.text)).map (Child.entry C) := by
          rw [List.filterMap_map]
          exact (congrFun List.filterMap_eq_map _).trans (List.attach_map_val (f := Child.entry C))
        rw [ok_bind, Table.scan_eq, hentries]
        rfl
      · rintro ⟨child, hmem⟩ -
        dsimp only
        by_cases hnested : looksNested child.content
        · rw [dif_pos hnested, Call.scan_eq, ok_bind, text_inner, if_pos (by rfl), Child.entry_of_nested hnested]
          rfl
        · rw [dif_neg hnested, Child.entry, if_neg hnested]
          rfl
  · rfl
termination_by call.content.count '>'
decreasing_by exact count_content_lt hread hmem hnested

end Markup

/-- The tables in what a call comes to go no deeper than its content has `>`. -/
theorem Markup.Call.nesting_le (C : Catalogue) (call : Call) :
    (Table.scan C call.text).nesting ≤ call.content.count '>' := by
  -- entry by entry: a key is text, and a value is a table of a later call or a byte string
  rw [Table.nesting_eq, Entry.deepest_le, Table.scan_eq]
  intro e he
  obtain ⟨child, hmem, rfl⟩ := List.mem_map.1 (Table.mem_entries_addAll he)
  have hkey : (child.entry C).key.nesting = 0 := by
    rw [Child.key_entry]
    exact Datum.nesting_of_views (.inr (.inl rfl))
  rw [Entry.nesting, hkey, Nat.zero_max]
  by_cases hnested : looksNested child.content
  · have hle := Call.nesting_le C (.inner child (not_mem_name call.siblings_eq hmem))
    have hlt := count_content_lt call.siblings_eq hmem hnested
    rw [Child.entry_of_nested hnested, Datum.nesting]
    exact Nat.succ_le_of_lt (Nat.lt_of_le_of_lt hle hlt)
  · have hleaf : (Datum.ofBytes (Utf8.encode (String.ofList child.content))).nesting = 0 :=
      Datum.nesting_of_views (.inr (.inr rfl))
    rw [Child.entry, if_neg hnested, hleaf]
    exact Nat.zero_le _
termination_by call.content.count '>'
decreasing_by exact Call.count_content_lt call.siblings_eq hmem hnested

/-- The scanner comes to an end on every text, and cuts no text where it cannot be cut. Every turn over siblings moves
the cursor on. A call is made only on a content with fewer `>` than the content that its caller was given, so tables lie
no deeper in the result than the text has `>`. -/
theorem Table.ofXml?_total (C : Catalogue) (text : String) :
    (Call.outer text.toList).scan C = .ok (Table.ofXml? C text) ∧
      (∀ (call : Call) (p q : Nat) (t : Turn), turn call.text p = .ok (some t) → t.next = some q →
        p < q ∧ q < byteLength call.text) ∧
      (∀ call : Call, ∃ cs, call.siblings = .ok cs ∧ ∀ child ∈ cs, looksNested child.content →
        ∃ h : '>' ∉ child.name, (Call.inner child h).content.count '>' < call.content.count '>') ∧
      ∀ t, Table.ofXml? C text = some t → t.nesting ≤ text.toList.count '>' := by
  refine ⟨(Call.outer text.toList).scan_eq C, fun call p q t => turn_advances, fun call => ?_, fun t ht => ?_⟩
  · exact ⟨_, call.siblings_eq, fun child hmem hnested =>
      ⟨Call.not_mem_name call.siblings_eq hmem, Call.count_content_lt call.siblings_eq hmem hnested⟩⟩
  · unfold ofXml? at ht
    dsimp only at ht
    split at ht
    · exact Option.some.inj ht ▸ Call.nesting_le C (.outer text.toList)
    · cases ht

/-- A name with a closing tag in it. The child `b` of this element ends in the closing tag that is put behind the
content, so its own content is longer than in the text, and yet has fewer `>`. -/
theorem Table.ofXml?_total_malformed :
    let text := "<r><a</b><b><c></a</b>"
    let outer : Child := ⟨"a</b".toList, "<b><c>".toList⟩
    let grown : Child := ⟨['b'], "<c></a".toList⟩
    (∃ t, (Call.outer text.toList).scan .specimens = .ok (some t) ∧ t.nesting ≤ 5) ∧
      (∃ t q, turn text.toList 3 = .ok (some t) ∧ t.next = some q ∧ 3 < q) ∧
      ∃ h, (Call.inner outer h).siblings = .ok [grown] ∧ grown.content.count '>' < outer.content.count '>' := by
  have hturn : turn "<r><a</b><b><c></a</b>".toList 3 =
      .ok (some ⟨some ⟨"a</b".toList, "<b><c>".toList⟩, some 18⟩) := by rfl
  intro text outer grown
  obtain ⟨hok, hadvance, hcontent, hdepth⟩ := ofXml?_total .specimens text
  have hname : '>' ∉ outer.name := by decide
  obtain ⟨cs, hcs, hfewer⟩ := hcontent (.inner outer hname)
  have hread : (Call.inner outer hname).siblings = .ok [grown] := by
    have hbody : body outer.wrapped = '<' :: 'b' :: "><c></a</b>\n".toList := by decide
    have hchildren : children (body outer.wrapped) = [grown] := by
      rw [hbody, children_tag (by decide) rfl]
      exact congrArg _ (children_plain (by decide))
    rw [Call.siblings_eq, Call.text_inner, hchildren]
  cases hread.symm.trans hcs
  have hcall : (Call.outer text.toList).text = text.toList := by decide
  have htable : ofXml? .specimens text = some (Table.scan .specimens text.toList) := hcall ▸ if_pos (by decide)
  have hcount : text.toList.count '>' = 5 := by decide
  refine ⟨⟨_, htable ▸ hok, hcount ▸ hdepth _ htable⟩, ?_, hname, hread, ?_⟩
  · have hmoved := hadvance (.outer text.toList) 3 18
    rw [hcall] at hmoved
    exact ⟨_, 18, hturn, rfl, (hmoved _ hturn rfl).1⟩
  · exact (hfewer grown List.mem_cons_self (by decide)).2

end OrderedTable
