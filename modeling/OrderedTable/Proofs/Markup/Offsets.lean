import OrderedTable.Proofs.Markup.Searching
import OrderedTable.Proofs.Text.Positions

/-!
# The scanner by positions

`Markup.children` takes texts apart. Here the same is done by byte positions in one text: every search starts at a
position and answers with one, and names and contents are slices between positions, of which any could be a fault
(`Text.SliceFault`). The loop over siblings has a cursor, the position of a `<`.

That the loop ends is a matter of positions alone: a search never goes back, so every turn moves the cursor on
(`turn_advances`). That nothing is a fault is seen by what is left of the text at each position: a position that a
search has found is one where the text can be cut (`Stands`), and a turn there is a step of `children` (`turn_eq`). So
the loop reads the children that stand in the body of the text (`siblings_firstChild?`).
-/

namespace OrderedTable.Markup

open Text

/-! ## The loop over siblings -/

/-- Where a word first stands from a position on, if that is a place to start from. -/
def findFrom (text : List Char) (start : Nat) (word : List Char) : Option Nat :=
  (afterBytes? start text).bind fun rest => (cutAt? word rest).map fun found => start + byteLength found.1

/-- Where the name of the start tag ends whose `<` stands at a position: at the first space, if that comes on the
same line and before the first `>`, and else at the first `>`. -/
def nameEnd? (text : List Char) (opening : Nat) : Option Nat :=
  let lineEnd := (findFrom text opening ['\n']).getD (byteLength text)
  let bracket := findFrom text (opening + 1) ['>']
  match findFrom text (opening + 1) [' '] with
  | some space => if space < lineEnd ∧ bracket.all (space < ·) then some space else bracket
  | none => bracket

/-- The name between two positions, and where the text behind its start tag begins, unless the element is closed
already. -/
def tagAt (text : List Char) (start stop : Nat) : Except SliceFault (List Char × Option Nat) := do
  let name := trimSlashes (← slice start stop text)
  if (← byteAt stop text) = 0x3E then
    if (← sliceTo stop text).getLast? = some '/' then return (name, none)
    else return (name, some (stop + 1))
  else return (name, (findFrom text start ['>']).map (· + 1))

/-- What one turn of the loop over siblings comes to: a child, unless the start tag does not end, and the place of
the next `<` to look at. -/
structure Turn where
  child : Option Child
  next : Option Nat
  deriving DecidableEq, Repr

/-- One turn, at a `<`, of the loop over siblings. A closing tag ends the loop. -/
def turn (text : List Char) (opening : Nat) : Except SliceFault (Option Turn) := do
  if (← sliceFrom (opening + 1) text).head? = some '/' then return none
  else
    match nameEnd? text opening with
    | none => return some ⟨none, findFrom text (opening + 1) ['<']⟩
    | some stop =>
      let (name, start?) ← tagAt text (opening + 1) stop
      match start?.bind fun start => (findFrom text start (closingWord name)).map (start, ·) with
      | none => return some ⟨some ⟨name, []⟩, findFrom text (opening + 1) ['<']⟩
      | some (start, closing) =>
        let content ← slice start closing text
        return some ⟨some ⟨name, content⟩, findFrom text (closing + 1) ['<']⟩

/-- The first `<` behind the first `>` from a position on. -/
def firstBehind (text : List Char) (start : Nat) : Option Nat :=
  (findFrom text start ['>']).bind (findFrom text · ['<'])

/-- Where the loop over siblings starts. -/
def firstChild? (text : List Char) : Option Nat :=
  ((findFrom text 0 "Request".toList).or <| (findFrom text 0 "Response".toList).or <|
    (findFrom text 0 ['>']).map (· - 1)).bind (firstBehind text)

/-! ## The cursor advances -/

variable {text cs word rest : List Char} {c : Char} {opening start stop p q : Nat}

/-- What is found lies in the text, not before the place from which it was looked for. -/
theorem findFrom_bounds (h : findFrom text start word = some p) :
    start ≤ p ∧ p + byteLength word ≤ byteLength text := by
  obtain ⟨rest, hrest, hfound⟩ := Option.bind_eq_some_iff.1 h
  obtain ⟨⟨before, found⟩, hcut, rfl⟩ := Option.map_eq_some_iff.1 hfound
  obtain ⟨rfl, more, rfl⟩ := cutAt?_eq_append hcut
  have hlength := add_byteLength hrest
  rw [byteLength_append, byteLength_append] at hlength
  dsimp only
  omega

/-- A name ends behind the `<` that it was looked for at. -/
theorem le_of_nameEnd? (h : nameEnd? text opening = some stop) : opening + 1 ≤ stop := by
  unfold nameEnd? at h
  dsimp only at h
  split at h
  · next space hspace =>
    split at h
    · exact Option.some.inj h ▸ (findFrom_bounds hspace).1
    · exact (findFrom_bounds h).1
  · exact (findFrom_bounds h).1

/-- What follows a start tag follows its name. -/
theorem le_of_tagAt {name : List Char} (h : tagAt text start stop = .ok (name, some p)) (hle : start ≤ stop) :
    start ≤ p := by
  obtain ⟨word, -, h⟩ := ok_of_bind h
  obtain ⟨byte, -, h⟩ := ok_of_bind h
  split at h
  · obtain ⟨front, -, h⟩ := ok_of_bind h
    split at h
    · cases h
    · cases h
      omega
  · obtain ⟨-, hp⟩ := Prod.mk.inj (Except.ok.inj h)
    obtain ⟨bracket, hfound, rfl⟩ := Option.map_eq_some_iff.1 hp
    have := (findFrom_bounds hfound).1
    omega

/-- Every turn moves the cursor on, in the text. -/
theorem turn_advances {t : Turn} (h : turn text p = .ok (some t)) (hnext : t.next = some q) :
    p < q ∧ q < byteLength text := by
  -- wherever a turn goes on to look for a `<`, that is behind the one it is at
  have found : ∀ {start : Nat}, p < start → findFrom text start ['<'] = some q → p < q ∧ q < byteLength text := by
    intro start hstart hfound
    have hbounds := findFrom_bounds hfound
    rw [byteLength_cons, show '<'.utf8Size = 1 from rfl, byteLength_nil] at hbounds
    omega
  obtain ⟨ahead, -, h⟩ := ok_of_bind h
  split at h
  · cases h
  split at h
  · cases h
    exact found (Nat.lt_succ_self p) hnext
  next stop hstop =>
  obtain ⟨⟨name, start?⟩, htag, h⟩ := ok_of_bind h
  dsimp only at h
  split at h
  · cases h
    exact found (Nat.lt_succ_self p) hnext
  next start closing hclosing =>
  obtain ⟨content, -, h⟩ := ok_of_bind h
  cases h
  obtain ⟨start, rfl, hfound⟩ := Option.bind_eq_some_iff.1 hclosing
  obtain ⟨closing, hfound, heq⟩ := Option.map_eq_some_iff.1 hfound
  cases heq
  have hstart := le_of_tagAt htag (le_of_nameEnd? hstop)
  have hclose := (findFrom_bounds hfound).1
  exact found (by omega) hnext

/-- The loop over siblings from a cursor on. -/
def siblings (text : List Char) (cursor : Option Nat) : Except SliceFault (List Child) :=
  match cursor with
  | none => .ok []
  | some p =>
    match _hturn : turn text p with
    | .error fault => .error fault
    | .ok none => .ok []
    | .ok (some t) => (siblings text t.next).map (t.child.toList ++ ·)
termination_by cursor.elim 0 (byteLength text - · + 1)
decreasing_by
  cases hnext : t.next with
  | none => simp
  | some q =>
    obtain ⟨hlt, hq⟩ := turn_advances _hturn hnext
    simp only [Option.elim]
    omega

/-! ## Searches by position -/

/-- From a place where the text can be cut, a search goes through what is left of it. -/
theorem findFrom_eq (h : afterBytes? p text = some cs) (word : List Char) :
    findFrom text p word = (cutAt? word cs).map (p + byteLength ·.1) := by
  rw [findFrom, h, Option.bind_some]

/-- How many bytes a text has before the first `c`. -/
def ahead (c : Char) (cs : List Char) : Nat := byteLength (cs.takeWhile (· ≠ c))

/-- Going on by one character adds its bytes, unless it is the one sought. -/
theorem ahead_cons (d : Char) (cs : List Char) : ahead c (d :: cs) = if d = c then 0 else d.utf8Size + ahead c cs := by
  rw [ahead, List.takeWhile_cons]
  split
  · next hne => rw [if_neg (by simpa using hne), byteLength_cons, ahead]
  · next heq => rw [if_pos (by simpa using heq), byteLength_nil]

/-- A character that does not occur is behind everything. -/
theorem ahead_of_not_mem (h : c ∉ cs) : ahead c cs = byteLength cs := by
  induction cs with
  | nil => rfl
  | cons d cs ih =>
    rw [List.mem_cons, not_or] at h
    rw [ahead_cons, if_neg (Ne.symm h.1), ih h.2, byteLength_cons]

/-- One that occurs is before the end. -/
theorem ahead_lt (h : c ∈ cs) : ahead c cs < byteLength cs := by
  induction cs with
  | nil => cases h
  | cons d cs ih =>
    have := d.utf8Size_pos
    rw [ahead_cons, byteLength_cons]
    split
    · omega
    · next hne =>
      have := ih ((List.mem_cons.1 h).resolve_left (Ne.symm hne))
      omega

/-- A text is cut at the first occurrence of a character. -/
theorem cutAt?_char {front : List Char} (h : c ∉ front) (rest : List Char) :
    cutAt? [c] (front ++ c :: rest) = some (front, c :: rest) :=
  (Passes.of_not_mem h).cutAt?_append (List.prefix_append [c] rest)

theorem cutAt?_char_eq_none (h : c ∉ cs) : cutAt? [c] cs = none :=
  cutAt?_eq_none_iff.2 fun hfound => h (hfound.mem List.mem_cons_self)

/-- A character is found behind all that has none of it. -/
theorem findFrom_char (h : afterBytes? p text = some cs) (c : Char) :
    findFrom text p [c] = if c ∈ cs then some (p + ahead c cs) else none := by
  rw [findFrom_eq h]
  split
  · next hmem =>
    obtain ⟨front, rest, rfl, hfront⟩ := List.eq_append_cons_of_mem hmem
    rw [cutAt?_char hfront, ahead, takeWhile_append hfront]
    rfl
  · next hmem => rw [cutAt?_char_eq_none hmem, Option.map_none]

/-- The place of a cursor: where the text that is left begins, or nowhere if nothing is left. -/
inductive Stands (text : List Char) : Option Nat → List Char → Prop
  | nowhere : Stands text none []
  | here {p : Nat} {c : Char} {rest : List Char} (h : afterBytes? p text = some (c :: rest)) :
    Stands text (some p) (c :: rest)

/-- A search for a character leaves the cursor there. -/
theorem stands_findFrom (h : afterBytes? p text = some cs) (c : Char) :
    Stands text (findFrom text p [c]) (seek c cs) := by
  rw [findFrom_char h]
  split
  · next hmem =>
    obtain ⟨front, rest, rfl, hfront⟩ := List.eq_append_cons_of_mem hmem
    rw [seek_append hfront, ahead, takeWhile_append hfront]
    exact .here (afterBytes?_add h)
  · next hmem =>
    rw [seek_eq_nil hmem]
    exact .nowhere

/-- A cursor that is nowhere has no text left. -/
theorem Stands.eq_nil (h : Stands text none rest) : rest = [] := by
  cases h
  rfl

/-- A cursor that is somewhere stands at the character that was sought. -/
theorem Stands.seek_eq (h : Stands text (some p) (seek c cs)) :
    ∃ rest, seek c cs = c :: rest ∧ afterBytes? p text = some (c :: rest) := by
  generalize hseek : seek c cs = found at h
  cases h with
  | here h =>
    obtain rfl := seek_eq_cons hseek
    exact ⟨_, rfl, h⟩

/-! ## Start tags by position -/

/-- The text of a start tag's name, slashes included, and the text from its end on. -/
def nameSplit? (cs : List Char) : Option (List Char × List Char) :=
  if (cs.dropWhile (!endsName ·)).head? = some ' ' then some (cs.takeWhile (!endsName ·), cs.dropWhile (!endsName ·))
  else cutAt? ['>'] cs

/-- Whether the first character that can end a name is a space, seen from where each of them comes first. -/
theorem space_first_iff : (cs.dropWhile (!endsName ·)).head? = some ' ' ↔
    ' ' ∈ cs ∧ ahead ' ' cs < ahead '\n' cs ∧ ahead ' ' cs < ahead '>' cs := by
  induction cs with
  | nil => simp
  | cons c cs ih =>
    have := c.utf8Size_pos
    rw [List.dropWhile_cons, ahead_cons, ahead_cons, ahead_cons, List.mem_cons]
    -- the first character is one of the three, and settles it, or none of them, and shifts all places
    by_cases hspace : c = ' '
    · subst hspace
      simp [endsName]
      omega
    by_cases hbracket : c = '>'
    · subst hbracket
      simp [endsName]
    by_cases hline : c = '\n'
    · subst hline
      simp [endsName]
    rw [if_pos (by simp [endsName, hspace, hbracket, hline]), ih, if_neg hspace, if_neg hbracket, if_neg hline]
    have hmem : ' ' ∈ cs ↔ ' ' = c ∨ ' ' ∈ cs := by simp [Ne.symm hspace]
    rw [← hmem]
    refine and_congr_right fun _ => ?_
    omega

/-- Up to a space that ends the name no other space comes. -/
theorem takeWhile_of_space_first (h : (cs.dropWhile (!endsName ·)).head? = some ' ') :
    cs.takeWhile (!endsName ·) = cs.takeWhile (· ≠ ' ') := by
  induction cs with
  | nil => rfl
  | cons c cs ih =>
    rw [List.dropWhile_cons] at h
    rw [List.takeWhile_cons, List.takeWhile_cons]
    split at h
    · next hgo =>
      have hspace : c ≠ ' ' := fun heq => by simp [heq, endsName] at hgo
      rw [if_pos hgo, ih h, if_pos (by simpa using hspace)]
    · next hend =>
      obtain rfl : c = ' ' := Option.some.inj h
      rfl

/-- By positions the name ends where it ends in the text. -/
theorem nameEnd?_eq (h : afterBytes? opening text = some ('<' :: cs)) :
    nameEnd? text opening = (nameSplit? cs).map (opening + 1 + byteLength ·.1) := by
  have hname : afterBytes? (opening + 1) text = some cs := afterBytes?_succ h rfl
  -- where the line ends, and where the first `>` stands, seen from behind the `<`
  have hline : (findFrom text opening ['\n']).getD (byteLength text) = opening + 1 + ahead '\n' cs := by
    rw [findFrom_char h]
    split
    · rw [Option.getD_some, ahead_cons, if_neg (by decide), show '<'.utf8Size = 1 from rfl, Nat.add_assoc]
    · next hmem =>
      rw [Option.getD_none, ahead_of_not_mem (fun hcs => hmem (List.mem_cons_of_mem _ hcs)), add_byteLength hname]
  have hbracket : (cutAt? ['>'] cs).map (opening + 1 + byteLength ·.1) = findFrom text (opening + 1) ['>'] :=
    (findFrom_eq hname ['>']).symm
  have hall (hmem : ' ' ∈ cs) : (findFrom text (opening + 1) ['>']).all (opening + 1 + ahead ' ' cs < ·) =
      decide (ahead ' ' cs < ahead '>' cs) := by
    rw [findFrom_char hname]
    split
    · simp
    · next hnone => simp [ahead_of_not_mem hnone, ahead_lt hmem]
  rw [nameEnd?, hline, findFrom_char hname ' ', nameSplit?]
  -- without a space the name ends at the `>`; with one it depends on which is first
  by_cases hspace : ' ' ∈ cs
  · simp only [if_pos hspace, hall hspace, decide_eq_true_eq, Nat.add_lt_add_iff_left]
    by_cases hfirst : (cs.dropWhile (!endsName ·)).head? = some ' '
    · rw [if_pos (space_first_iff.1 hfirst).2, if_pos hfirst, takeWhile_of_space_first hfirst]
      rfl
    · rw [if_neg fun hand => hfirst (space_first_iff.2 ⟨hspace, hand⟩), if_neg hfirst, hbracket]
  · rw [if_neg hspace, if_neg fun hfirst => hspace (space_first_iff.1 hfirst).1, hbracket]

/-- What the name of a start tag is split from goes on with a space or with the end of the tag. -/
theorem nameSplit?_eq_some {front : List Char} (h : nameSplit? cs = some (front, rest)) :
    cs = front ++ rest ∧ ((∃ after, rest = ' ' :: after) ∨ ∃ after, rest = '>' :: after) := by
  unfold nameSplit? at h
  split at h
  · next hspace =>
    obtain ⟨rfl, rfl⟩ := Prod.mk.inj (Option.some.inj h)
    obtain ⟨after, hafter⟩ := List.head?_eq_some_iff.1 hspace
    exact ⟨List.takeWhile_append_dropWhile.symm, .inl ⟨after, hafter⟩⟩
  · obtain ⟨rfl, after, rfl⟩ := cutAt?_eq_append h
    exact ⟨rfl, .inr ⟨after, rfl⟩⟩

/-- The start tag, from its name and what comes behind it. -/
theorem Tag.read?_eq (cs : List Char) : Tag.read? cs = (nameSplit? cs).map fun found =>
    ⟨trimSlashes found.1,
      if found.2.head? = some '>' then (if found.1.getLast? = some '/' then none else some found.2.tail)
      else afterTag cs⟩ := by
  rw [Tag.read?, nameSplit?]
  split
  · next after hspace =>
    rw [if_pos (by rw [hspace]; rfl), Option.map_some, hspace]
    rfl
  · next hspace =>
    have hfirst : (cs.dropWhile (!endsName ·)).head? ≠ some ' ' := fun hhead =>
      (List.head?_eq_some_iff.1 hhead).elim fun after hafter => hspace after hafter
    rw [if_neg hfirst]
    by_cases hmem : '>' ∈ cs
    · obtain ⟨front, after, rfl, hfront⟩ := List.eq_append_cons_of_mem hmem
      simp only [afterTag_append hfront, takeWhile_append hfront, cutAt?_char hfront, Option.map_some]
      rfl
    · rw [afterTag, seek_eq_nil hmem, cutAt?_char_eq_none hmem, Option.map_none]

/-- Behind the first `>` the text goes on as behind a start tag. -/
theorem afterTag_eq (h : afterBytes? p text = some cs) :
    ((findFrom text p ['>']).map (· + 1)).bind (afterBytes? · text) = afterTag cs := by
  by_cases hmem : '>' ∈ cs
  · obtain ⟨front, after, rfl, hfront⟩ := List.eq_append_cons_of_mem hmem
    rw [findFrom_eq h, cutAt?_char hfront, afterTag_append hfront]
    exact afterBytes?_succ (afterBytes?_add h) rfl
  · rw [findFrom_char h, if_neg hmem, afterTag, seek_eq_nil hmem]
    rfl

/-- The name and what comes behind it, read by positions. -/
theorem tagAt_eq (h : afterBytes? opening text = some ('<' :: cs)) {front : List Char}
    (hsplit : nameSplit? cs = some (front, rest)) {t : Tag} (ht : Tag.read? cs = some t) :
    ∃ start?, tagAt text (opening + 1) (opening + 1 + byteLength front) = .ok (t.name, start?) ∧
      start?.bind (afterBytes? · text) = t.after := by
  obtain ⟨rfl, hrest⟩ := nameSplit?_eq_some hsplit
  rw [Tag.read?_eq, hsplit] at ht
  obtain rfl := Option.some.inj ht
  have hname : afterBytes? (opening + 1) text = some (front ++ rest) := afterBytes?_succ h rfl
  have hstop := afterBytes?_add hname
  rw [tagAt, slice_eq hname, ok_bind]
  -- the name ends at a space, and the tag at the next `>`; or both end at this `>`
  rcases hrest with ⟨after, rfl⟩ | ⟨after, rfl⟩
  · rw [byteAt_eq hstop (by decide), ok_bind, if_neg (by decide)]
    exact ⟨_, rfl, afterTag_eq hname⟩
  · obtain ⟨before, rfl, rfl⟩ := afterBytes?_eq_some_iff.1 h
    have hto : sliceTo (byteLength before + 1 + byteLength front) (before ++ '<' :: (front ++ '>' :: after)) =
        .ok (before ++ '<' :: front) := by
      have := sliceTo_append (before ++ '<' :: front) ('>' :: after)
      simpa [show '<'.utf8Size = 1 from rfl, Nat.add_assoc] using this
    -- the `<` before a name is no slash
    have hlast : (before ++ '<' :: front).getLast? = some '/' ↔ front.getLast? = some '/' := by
      cases front with
      | nil => simp
      | cons c front => rw [List.getLast?_append, List.getLast?_cons_cons, List.getLast?_cons, Option.some_or]
    rw [byteAt_eq hstop (by decide), ok_bind, if_pos (by decide), hto, ok_bind]
    dsimp only
    rw [if_pos List.head?_cons]
    by_cases hslash : front.getLast? = some '/'
    · rw [if_pos (hlast.2 hslash), if_pos hslash]
      exact ⟨none, rfl, rfl⟩
    · rw [if_neg fun hends => hslash (hlast.1 hends), if_neg hslash]
      exact ⟨_, rfl, afterBytes?_succ hstop rfl⟩

/-! ## A turn, and all turns -/

/-- Where the text behind a start tag is looked at by positions, a closing tag is found where it is found in that
text. -/
theorem closing_eq {start? : Option Nat} {t : Tag} (h : start?.bind (afterBytes? · text) = t.after) :
    (t.close? = none ∧ (start?.bind fun start => (findFrom text start (closingWord t.name)).map (start, ·)) = none) ∨
      ∃ content rest start, t.close? = some (content, rest) ∧ afterBytes? start text = some (content ++ rest) ∧
        (start?.bind fun start => (findFrom text start (closingWord t.name)).map (start, ·)) =
          some (start, start + byteLength content) := by
  cases start? with
  | none => exact .inl ⟨by rw [Tag.close?, ← h]; rfl, rfl⟩
  | some start =>
    rw [Option.bind_some] at h
    rw [Option.bind_some, Tag.close?, ← h, findFrom]
    cases hafter : afterBytes? start text with
    | none => exact .inl ⟨rfl, rfl⟩
    | some after =>
      rw [Option.bind_some, Option.bind_some]
      cases hcut : cutAt? ('<' :: '/' :: t.name) after with
      | none => exact .inl ⟨rfl, by rw [closingWord, hcut]; rfl⟩
      | some found =>
        obtain ⟨content, rest⟩ := found
        obtain ⟨rfl, -⟩ := cutAt?_eq_append hcut
        exact .inr ⟨content, rest, start, rfl, hafter, by rw [closingWord, hcut]; rfl⟩

/-- A turn at a `<` is no fault. It ends the loop where there are no more children, and else gives the next child and
the place from where on the others are. -/
theorem turn_eq (h : afterBytes? opening text = some ('<' :: cs)) :
    (turn text opening = .ok none ∧ children ('<' :: cs) = []) ∨
      ∃ t rest, turn text opening = .ok (some t) ∧ Stands text t.next (seek '<' rest) ∧
        children ('<' :: cs) = t.child.toList ++ children rest := by
  have hname : afterBytes? (opening + 1) text = some cs := afterBytes?_succ h rfl
  -- a closing tag ends the loop
  by_cases hslash : cs.head? = some '/'
  · obtain ⟨more, rfl⟩ := List.head?_eq_some_iff.1 hslash
    rw [turn, sliceFrom_eq hname, ok_bind, if_pos hslash]
    exact .inl ⟨rfl, children_closing more⟩
  refine .inr ?_
  rw [turn, sliceFrom_eq hname, ok_bind, if_neg hslash, nameEnd?_eq h]
  -- a start tag that does not end is passed over
  cases hsplit : nameSplit? cs with
  | none =>
    have ht : Tag.read? cs = none := by rw [Tag.read?_eq, hsplit, Option.map_none]
    exact ⟨_, cs, rfl, stands_findFrom hname '<', children_untagged hslash ht⟩
  | some split =>
    obtain ⟨front, rest⟩ := split
    obtain ⟨t, ht⟩ : ∃ t, Tag.read? cs = some t := ⟨_, by rw [Tag.read?_eq, hsplit, Option.map_some]⟩
    obtain ⟨start?, htag, hafter⟩ := tagAt_eq h hsplit ht
    have hchildren := children_tag hslash ht
    simp only [Option.map_some, htag, ok_bind]
    -- unclosed, the loop goes on behind the `<` of the start tag, and else behind that of the closing tag
    rcases closing_eq hafter with ⟨hclose, hnone⟩ | ⟨content, rest, start, hclose, hbehind, hsome⟩
    · rw [hclose] at hchildren
      simp only [hnone]
      exact ⟨_, cs, rfl, stands_findFrom hname '<', hchildren⟩
    · rw [hclose] at hchildren
      obtain ⟨-, -, more, rfl⟩ := Tag.close?_eq_append ht hclose
      simp only [hsome, slice_eq hbehind, ok_bind]
      have hrest : afterBytes? (start + byteLength content + 1) text = some ('/' :: t.name ++ more) :=
        afterBytes?_succ (afterBytes?_add hbehind) rfl
      exact ⟨_, _, rfl, stands_findFrom hrest '<', hchildren⟩

/-- The loop over siblings is no fault, and reads the children. -/
theorem siblings_eq {cursor : Option Nat} (h : Stands text cursor (seek '<' cs)) :
    siblings text cursor = .ok (children cs) := by
  -- each turn leaves the loop at the rest of the text, as `children` goes on with it
  fun_induction siblings text cursor generalizing cs with
  | case1 =>
    rw [← children_seek, h.eq_nil, children]
  | case2 p fault hturn =>
    obtain ⟨rest, -, hrest⟩ := h.seek_eq
    rcases turn_eq hrest with ⟨hok, -⟩ | ⟨t, after, hok, -, -⟩ <;> cases hturn.symm.trans hok
  | case3 p hturn =>
    obtain ⟨rest, hseek, hrest⟩ := h.seek_eq
    rcases turn_eq hrest with ⟨-, hend⟩ | ⟨t, after, hok, -, -⟩
    · rw [← children_seek, hseek, hend]
    · cases hturn.symm.trans hok
  | case4 p t hturn ih =>
    obtain ⟨rest, hseek, hrest⟩ := h.seek_eq
    rcases turn_eq hrest with ⟨hok, -⟩ | ⟨t', after, hok, hnext, hchildren⟩
    · cases hturn.symm.trans hok
    · cases hturn.symm.trans hok
      rw [ih hnext, ← children_seek cs, hseek, hchildren]
      rfl

/-- Two searches in a row leave the cursor at the first `<` behind the first `>`. -/
theorem stands_firstBehind (h : afterBytes? p text = some cs) :
    Stands text (firstBehind text p) (seek '<' (seek '>' cs)) := by
  have hbracket := stands_findFrom h '>'
  unfold firstBehind
  cases hfound : findFrom text p ['>'] with
  | none =>
    rw [hfound] at hbracket
    rw [hbracket.eq_nil]
    exact .nowhere
  | some bracket =>
    rw [hfound] at hbracket
    obtain ⟨after, hseek, hafter⟩ := hbracket.seek_eq
    rw [hseek]
    exact stands_findFrom hafter '<'

/-- One byte before the first `>` the scanner finds its way, unless the character there has more bytes. -/
theorem stands_beforeBracket (text : List Char) :
    Stands text (((findFrom text 0 ['>']).map (· - 1)).bind (firstBehind text))
      (seek '<' (seek '>' (if (beforeTagEnd text).getLast?.all (·.utf8Size = 1) then text else []))) := by
  have hstart : afterBytes? 0 text = some text := afterBytes?_append [] text
  rw [findFrom_char hstart, Nat.zero_add]
  split
  · next hmem =>
    obtain ⟨front, rest, rfl, hfront⟩ := List.eq_append_cons_of_mem hmem
    rw [ahead, beforeTagEnd, takeWhile_append hfront, Option.map_some, Option.bind_some]
    -- with nothing before the `>` the cursor stays at the start
    rcases List.eq_nil_or_concat front with rfl | ⟨init, last, rfl⟩
    · exact stands_firstBehind hstart
    rw [List.concat_eq_append] at hfront ⊢
    have hsize := last.utf8Size_pos
    have hsplit : init ++ [last] ++ '>' :: rest = init ++ last :: '>' :: rest := List.append_assoc init [last] _
    rw [List.getLast?_concat, Option.all_some, byteLength_append, byteLength_cons, byteLength_nil, Nat.add_zero]
    split
    · -- one byte back is one character back
      next hone =>
      rw [decide_eq_true_eq] at hone
      have hlast : '>' ∉ [last] := fun hmem => hfront (List.mem_append_right _ hmem)
      have hat : afterBytes? (byteLength init) (init ++ [last] ++ '>' :: rest) = some ([last] ++ '>' :: rest) := by
        rw [hsplit]
        exact afterBytes?_append init _
      have hstands := stands_firstBehind hat
      rw [hone, Nat.add_sub_cancel, seek_append hfront]
      rwa [seek_append hlast] at hstands
    · -- one byte back is inside a character, where no text can be cut
      next hwide =>
      rw [decide_eq_true_eq] at hwide
      have hinside : afterBytes? (byteLength init + last.utf8Size - 1) (init ++ [last] ++ '>' :: rest) = none := by
        rw [hsplit]
        exact afterBytes?_inside (by omega) (by omega)
      rw [firstBehind, findFrom, hinside]
      exact .nowhere
  · next hmem =>
    have hnone : seek '>' (if (beforeTagEnd text).getLast?.all (·.utf8Size = 1) then text else []) = [] := by
      split
      · exact seek_eq_nil hmem
      · rfl
    rw [hnone]
    exact .nowhere

/-- The loop over siblings starts at the first tag behind the wrapper's. -/
theorem stands_firstChild? (text : List Char) : Stands text (firstChild? text) (body text) := by
  have hstart : afterBytes? 0 text = some text := afterBytes?_append [] text
  have hword (word : List Char) : findFrom text 0 word = (cutAt? word text).map (byteLength ·.1) := by
    rw [findFrom_eq hstart]
    simp only [Nat.zero_add]
  rw [firstChild?, body, wrapper, hword "Request".toList, hword "Response".toList]
  cases hrequest : cutAt? "Request".toList text with
  | some found =>
    obtain ⟨rfl, -⟩ := cutAt?_eq_append hrequest
    exact stands_firstBehind (afterBytes?_append found.1 found.2)
  | none =>
    cases hresponse : cutAt? "Response".toList text with
    | some found =>
      obtain ⟨rfl, -⟩ := cutAt?_eq_append hresponse
      exact stands_firstBehind (afterBytes?_append found.1 found.2)
    | none => exact stands_beforeBracket text

/-- So the children in a text are read without a fault. -/
theorem siblings_firstChild? (text : List Char) : siblings text (firstChild? text) = .ok (children (body text)) := by
  have hbody : Stands text (firstChild? text) (seek '<' (seek '>' (wrapper text))) := stands_firstChild? text
  rw [siblings_eq hbody, body, children_seek]

end OrderedTable.Markup
