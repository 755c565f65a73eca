import OrderedTable.Proofs.Wire.Accounting
import OrderedTable.Proofs.Wire.Delivery

/-!
# The limit on nesting

Nothing nests deeper in what a decoder gives than the levels that it had left (`Traced.decodeWithin_shallow`), as
long as extensions keep to the depth that their input tells them (`Extension.KeepsDepth`). The other way around, what
nests deeper than that stops the decoder in the innermost structure that is too deep, and the fault goes up through
all structures around it to the outermost one, which keeps the entries before. Both together are
`Wire.nesting_limit`.

A table of built-in kinds (`Kind.Builtins`) that has a binary form is regular, so what becomes of its entries is
said by `Kind.Regular.outcome`.
-/

namespace OrderedTable

open Wire

/-- What the extension decodes nests no deeper than is left to the input. -/
def Extension.KeepsDepth (x : Extension) : Prop :=
  ∀ input d n, x.decode input = .ok (d, n) → d.nesting ≤ maxNesting - input.depth

variable {C : Catalogue} {k : Kind} {d : Datum} {input : Input} {levels : Nat}

/-! ## What is read -/

/-- Built-in leaves nest in nothing, and extensions keep to the depth. -/
theorem Kind.decodeLeaf_shallow (hC : ∀ id, C.Registered (.extension id) → (C.extension id).KeepsDepth)
    (hk : C.Registered k.base) {n : Nat} (h : k.decodeLeaf C input = .ok (d, n)) :
    d.nesting ≤ maxNesting - input.depth := by
  have leaf : ∀ {d : Datum}, d.scalar?.isSome ∨ d.textBytes?.isSome ∨ d.bytes?.isSome →
      d.nesting ≤ maxNesting - input.depth := fun hviews => Datum.nesting_of_views hviews ▸ Nat.zero_le _
  cases hb : k.base with
  | scalar s =>
    simp only [decodeLeaf, hb] at h
    split at h
    · cases h
    · cases h
      exact leaf (.inl rfl)
  | text caseBlind =>
    simp only [decodeLeaf, hb] at h
    obtain ⟨r, -, h⟩ := ok_of_bind h
    split at h
    · cases h
      exact leaf (.inr (.inl rfl))
    · cases h
  | bytes =>
    simp only [decodeLeaf, hb] at h
    obtain ⟨r, -, h⟩ := ok_of_bind h
    cases h
    exact leaf (.inr (.inr rfl))
  | list | table =>
    simp only [decodeLeaf, hb] at h
    cases h
  | extension id =>
    simp only [decodeLeaf, hb] at h
    exact hC id (hb ▸ hk) input d n h

namespace Wire

variable {K : Kind} {declared : Nat} {block : Block} {decode : Decoder} {admits : Kind → Entry Datum → Bool}
variable {good : Kind → Prop} {Q : Kind → Input → Datum → Nat → Prop} {bound : Nat}

/-- Entries that are read nest no deeper than their keys and values. -/
theorem BlockRead.shallow (h : BlockRead C good Q decode admits input K declared block)
    (hQ : ∀ k n d length, Q k (input.advance n) d length → d.nesting ≤ bound) :
    ∀ e ∈ block.entries, e.nesting ≤ bound := by
  intro e he
  obtain ⟨place, length, hentry⟩ := h.runs.exists_of_mem he
  cases hentry.parts with
  | mk _ _ _ hvalue hkey => exact Nat.max_le.2 ⟨hQ _ _ _ _ hkey, hQ _ _ _ _ hvalue⟩

/-- A list nests as its block does. -/
theorem Block.nesting_toListing (h : ∀ e ∈ block.entries, e.nesting ≤ bound) :
    block.toListing.value.nesting ≤ bound := by
  rw [Listing.nesting_eq]
  exact Entry.deepest_le.2 h

/-- A table holds no entries but those of its block. -/
theorem Block.nesting_toTable (h : ∀ e ∈ block.entries, e.nesting ≤ bound) :
    (block.toTable C).value.nesting ≤ bound := by
  rw [Table.nesting_eq]
  refine Entry.deepest_le.2 fun e he => ?_
  exact h e (Table.mem_entries_addAll he)

/-- What is read nests no deeper than the levels left: induction on the levels. -/
theorem Traced.decodeWithin_shallow
    (hC : ∀ id, C.Registered (.extension id) → (C.extension id).KeepsDepth) (levels : Nat) :
    DecoderEnsures C (fun _ => True) (decodeWithin C levels)
      fun _ input d _ => levels = maxNesting - input.depth → d.nesting ≤ levels := by
  -- one level further in, one level less is left
  have inner : ∀ {levels : Nat} {input : Input}, levels + 1 = maxNesting - input.depth →
      ∀ n, levels = maxNesting - (input.nested.advance n).depth := by
    intro levels input hlevels n
    show levels = maxNesting - min (input.depth + 1) Input.maxDepth
    simp only [maxNesting, Input.maxDepth] at hlevels ⊢
    omega
  refine decodeWithin_ensures
    (Q := fun levels _ input d _ => levels = maxNesting - input.depth → d.nesting ≤ levels) ?_ ?_ ?_ levels
  · intro levels k input d n _ hregistered _ _ _ hd hlevels
    exact hlevels ▸ Kind.decodeLeaf_shallow hC hregistered hd
  · intro levels k K input declared block _ _ _ hread _ hlevels
    have hentries := hread.shallow fun _ n _ _ hq => hq (inner hlevels n)
    rw [Datum.nesting]
    exact Nat.succ_le_succ (Block.nesting_toListing hentries)
  · intro levels k K input declared block _ _ _ hread _ hlevels
    have hentries := hread.shallow fun _ n _ _ hq => hq (inner hlevels n)
    rw [Datum.nesting]
    exact Nat.succ_le_succ (Block.nesting_toTable hentries)

/-- In a block that is read nothing nests deeper than the levels left. -/
theorem readBlock_shallow (hC : ∀ id, C.Registered (.extension id) → (C.extension id).KeepsDepth)
    (hsound : input.Sound) (h : readBlock C (Kind.decode C) admits input = .ok block) :
    ∀ e ∈ block.entries, e.nesting ≤ maxNesting - input.depth := by
  have hdecode : Traced.DecoderEnsures C (fun _ => True) (Traced.decode C)
      fun _ input d _ => d.nesting ≤ maxNesting - input.depth := by
    intro k input hk hregistered hsound hmet r hr
    exact Traced.decodeWithin_shallow hC _ k input hk hregistered hsound hmet r hr rfl
  have houtcome := (Traced.readBlock_follows Traced.decode_follows hsound).outcome.trans h
  obtain ⟨K, declared, hread⟩ := Traced.readBlock_ensures Traced.decode_follows hdecode hsound
    (fun _ _ => trivial) block houtcome
  exact hread.shallow fun _ _ _ _ hq => hq

end Wire

/-! ## What is too deep -/

/-- A value with built-in kinds throughout. (What is asked of text holds of all text that the library keeps.) -/
inductive Kind.Builtins : Kind → Datum → Prop
  | leaf {k : Kind} {d : Datum} (builtin : Builtin k.base) (parts : k.parts? d = none)
      (text : ∀ s, d.peel = .text s → (Utf8.decode? s.bytes).isSome) : Builtins k d
  | parts {k : Kind} {d : Datum} {p : Parts} (parts : k.parts? d = some p) (keyKind : Builtin p.keyKind.base)
      (value : ∀ e ∈ p.entries, Builtins e.kind e.value) (key : ∀ e ∈ p.entries, Builtins p.keyKind e.key) :
      Builtins k d

/-- A value of built-in kinds that has a form is regular. -/
theorem Kind.Builtins.regular (h : k.Builtins d) {bs : Bytes} (hencode : k.encode C d = .ok bs) :
    k.Regular C (fun _ => True) d := by
  induction h generalizing bs with
  | leaf builtin parts text =>
    rw [encode, read_leaf parts] at hencode
    obtain ⟨hlist, htable, haccepted, -⟩ := accepts_of_encodeLeaf builtin hencode
    exact .leaf builtin hlist htable haccepted text
  | parts parts keyKind _ _ ihvalue ihkey =>
    obtain ⟨index, -, hwritable, -⟩ := (encode_parts_eq_ok parts).1 hencode
    exact .parts parts keyKind (fun _ => trivial) (fun e he => ihvalue e he (hwritable e he).value)
      fun e he => ihkey e he (hwritable e he).key

/-- A table that is filled with built-in kinds. -/
theorem Kind.Builtins.addAll {K : Kind} {es : List (Entry Datum)} (hK : Builtin K.base)
    (hes : ∀ e ∈ es, K.Builtins e.key ∧ e.kind.Builtins e.value) (wanted : Nat) :
    Kind.table.Builtins (.table ((Table.empty K wanted).addAll C es)) := by
  obtain ⟨p, hp, rfl, hentries⟩ := Table.exists_parts_addAll C K wanted es
  exact .parts hp hK (fun e he => (hes e (hentries e he)).2) fun e he => (hes e (hentries e he)).1

/-- The table that is filled with entries, as many buckets wanted as there are entries. -/
def Table.IsFilled (C : Catalogue) (t : Table Datum) (K : Kind) (es : List (Entry Datum)) : Prop :=
  t = Table.filled C K es

/-- Where a table of built-in kinds nests too deep, decoding its form keeps the entries before the first that does,
each as it is read from its own form, and stops in front of that one. -/
theorem Table.decode_tooDeep {t : Table Datum} (h : Kind.table.Builtins (.table t)) {bs : Bytes}
    (hencode : t.encode C = .ok bs) (hlimit : bs.length < limit) {before after : List (Entry Datum)}
    {e : Entry Datum} (hsplit : t.entries = before ++ e :: after)
    (hbefore : ∀ f ∈ before, f.nesting ≤ maxNesting) (hdeep : maxNesting < e.nesting)
    (hinput : input = .copied bs ∨ input = .inPlace bs) :
    ∃ pairs d, before = pairs.map Prod.fst ∧
      Received C (Kind.decode C) (Datum.Delivered C (Table.IsFilled C)) input t.keyKind headerLength pairs ∧
      Table.decode C input = .ok d ∧ d.fault = some (.tooDeep maxNesting) ∧
      d.consumed = headerLength + (before.flatMap (Entry.wireForm C t.keyKind)).length ∧
      d.value.keyKind = C.rebound input.isInPlace t.keyKind ∧
      d.value.capacity = max t.size Table.minCapacity ∧ d.value.entries.Perm (pairs.map Prod.snd) := by
  obtain ⟨hsound, hdepth, hbytes⟩ := Input.sound_of_whole hinput
  have hp : Kind.table.parts? (.table t) = some t.parts := Kind.parts?_of_table rfl rfl
  have hwritten := (Kind.encode_table t).trans hencode
  obtain rfl := Kind.wireForm_of_encode hwritten
  obtain ⟨hK, -, hes, hleast⟩ :=
    (h.regular hwritten).entries_outcome (T := Table.IsFilled C) (fun _ _ _ _ _ => rfl) hp maxNesting
  obtain ⟨pairs, hfirsts, hreceived, hread⟩ := readBlock_tooDeep (tableAdmits C) hp hwritten hK hes hleast
    hsplit hbefore hdeep hsound (hbytes.trans (List.append_nil _).symm) hlimit
    fun e he e' hread => (hes e he).tableAdmits hK hread
  -- a name keeps the table from being unfolded by the steps below
  obtain ⟨u, hu⟩ : ∃ u, (Table.empty (C.rebound input.isInPlace t.keyKind) t.entries.length).addAll C
      (pairs.map Prod.snd) = u := ⟨_, rfl⟩
  have hdecode : Table.decode C input = .ok ⟨u, headerLength +
      (before.flatMap (Entry.wireForm C t.keyKind)).length, some (.tooDeep maxNesting)⟩ := by
    rw [Table.decode, readBlock_outermost hdepth, hread, ← hu]
    rfl
  obtain ⟨hkeyKind, hcapacity⟩ := Table.addAll_fields (C := C)
    (.empty (C.rebound input.isInPlace t.keyKind) t.entries.length) (pairs.map Prod.snd)
  have hreceived' : Received C (Kind.decode C) (Datum.Delivered C (Table.IsFilled C)) input t.keyKind
      headerLength pairs := hreceived.congr fun k n => (decode_outermost hdepth k n).symm
  refine ⟨pairs, _, hfirsts, hreceived', hdecode, rfl, rfl, hu ▸ hkeyKind, ?_, hu ▸ ?_⟩
  · rw [← hu, hcapacity, Table.empty, Table.entries, List.length_map]
    rfl
  · refine Table.addAll_perm (.empty _ _) fun e' he' => ?_
    obtain ⟨z, hz, rfl⟩ := List.mem_map.1 he'
    have hmem : z.1 ∈ t.entries := by
      rw [hsplit, hfirsts]
      exact List.mem_append_left _ (List.mem_map_of_mem hz)
    exact (hes z.1 hmem).admitted hK (C.base_rebound _ _).symm (hreceived.readAs z hz)

/-! ## Both sides -/

/-- Whatever the bytes are, nothing nests deeper than the limit in a list or a table that is read from them, if the
registered extensions keep to the depth of their input. And where a table of built-in kinds that has a binary form
nests deeper, reading this form reports that it is too deep: of the entries in front of the first with a key or a
value that is too deep each is kept as it is read from its own form, and no other, and what was taken in ends where
the form of that first one begins. (The length of a byte string is always less than `limit`.) -/
theorem Wire.nesting_limit (C : Catalogue)
    (hC : ∀ id, C.Registered (.extension id) → (C.extension id).KeepsDepth) :
    (∀ bs input, input = .copied bs ∨ input = .inPlace bs →
      (∀ d, Listing.decode C input = .ok d → d.value.nesting ≤ maxNesting) ∧
      ∀ d, Table.decode C input = .ok d → d.value.nesting ≤ maxNesting) ∧
    ∀ t bs, Kind.table.Builtins (.table t) → t.encode C = .ok bs → bs.length < limit →
      maxNesting < t.nesting → ∀ input, input = .copied bs ∨ input = .inPlace bs →
        ∃ before e after pairs d, t.entries = before ++ e :: after ∧
          (∀ f ∈ before, f.nesting ≤ maxNesting) ∧ maxNesting < e.nesting ∧ before = pairs.map Prod.fst ∧
          Received C (Kind.decode C) (Datum.Delivered C (Table.IsFilled C)) input t.keyKind headerLength pairs ∧
          Table.decode C input = .ok d ∧ d.fault = some (.tooDeep maxNesting) ∧
          (∃ rest, bs.drop d.consumed = e.wireForm C t.keyKind ++ rest ∧
            d.consumed = headerLength + (before.flatMap (Entry.wireForm C t.keyKind)).length) ∧
          d.value.keyKind = C.rebound input.isInPlace t.keyKind ∧
          d.value.capacity = max t.size Table.minCapacity ∧ d.value.entries.Perm (pairs.map Prod.snd) := by
  refine ⟨fun bs input hinput => ?_, fun t bs h hencode hlimit hdeep input hinput => ?_⟩
  · obtain ⟨hsound, hdepth, -⟩ := Input.sound_of_whole hinput
    have hlevels : maxNesting - input.depth = maxNesting := by rw [hdepth]; rfl
    refine ⟨fun d hd => ?_, fun d hd => ?_⟩
    · obtain ⟨block, hblock, rfl⟩ := ok_of_map hd
      exact hlevels ▸ Block.nesting_toListing (readBlock_shallow hC hsound hblock)
    · obtain ⟨block, hblock, rfl⟩ := ok_of_map hd
      exact hlevels ▸ Block.nesting_toTable (readBlock_shallow hC hsound hblock)
  · rw [Table.nesting_eq] at hdeep
    -- the first entry that is too deep is where the decoder stops
    obtain ⟨before, e, after, hsplit, hbefore, he⟩ := Entry.exists_first_deep hdeep
    obtain ⟨pairs, d, hfirsts, hreceived, hdecode, hfault, hconsumed, hkept⟩ :=
      Table.decode_tooDeep h hencode hlimit hsplit hbefore he hinput
    refine ⟨before, e, after, pairs, d, hsplit, hbefore, he, hfirsts, hreceived, hdecode, hfault,
      ⟨after.flatMap (Entry.wireForm C t.keyKind), ?_, hconsumed⟩, hkept⟩
    obtain ⟨index, -, -, hform⟩ := Table.encode_eq_ok.1 hencode
    rw [hsplit, List.flatMap_append, List.flatMap_cons, ← List.append_assoc] at hform
    rw [hform, hconsumed]
    exact List.drop_left' (by rw [List.length_append, length_header])

/-- A list with so many lists in it, one inside another. -/
def Datum.tower : Nat → Datum
  | 0 => .list (.empty .i32)
  | n + 1 => .list ⟨.i32, [⟨.scalar (.int .i32 n), tower n, .list⟩]⟩

/-- A tower has built-in kinds throughout. -/
theorem Kind.builtins_tower (n : Nat) : Kind.list.Builtins (.tower n) := by
  have hi32 : Builtin Kind.i32.base := by decide
  induction n with
  | zero => exact .parts (parts?_of_list rfl rfl) hi32 nofun nofun
  | succ n ih =>
    refine .parts (parts?_of_list rfl rfl) hi32 (fun e he => ?_) fun e he => ?_
    · obtain rfl := List.mem_singleton.1 he
      exact ih
    · obtain rfl := List.mem_singleton.1 he
      exact .leaf hi32 rfl nofun

/-- A tower that is too deep stands between two numbers: the first is kept. -/
theorem Wire.nesting_limit_tower :
    let C := Catalogue.specimens
    let number (n : Nat) : Datum := .scalar (.int .i32 n)
    let t := (Table.empty .i32 0).addAll C
      [⟨number 1, number 4, .i32⟩, ⟨number 2, .tower 32, .list⟩, ⟨number 3, number 4, .i32⟩]
    (∀ id, C.Registered (.extension id) → (C.extension id).KeepsDepth) ∧
      Kind.table.Builtins (.table t) ∧ maxNesting < t.nesting ∧
      ∃ bs d, t.encode C = .ok bs ∧ bs.length < limit ∧ Table.decode C (.copied bs) = .ok d ∧
        d.fault = some (.tooDeep maxNesting) ∧ d.value.size = 1 := by
  intro C number t
  have hi32 : Builtin Kind.i32.base := by decide
  have hnumber : ∀ n, Kind.i32.Builtins (number n) := fun n => .leaf hi32 rfl nofun
  have hC : ∀ id, C.Registered (.extension id) → (C.extension id).KeepsDepth := by
    intro id hid input d n h
    have hid := Catalogue.Registered.of_extension hid
    simp only [C, Catalogue.specimens, List.mem_cons, List.not_mem_nil, or_false] at hid
    rcases hid with rfl | rfl | rfl
    · cases h
      exact Nat.zero_le _
    · have hleaf : Kind.i32.decodeLeaf Extension.builtinOnly input = .ok (d, n) :=
        (Kind.decodeWithin_leaf (by decide) (by decide) _ input).symm.trans h
      have hnone : ∀ id, ¬ Extension.builtinOnly.Registered (.extension id) := by
        intro id hid
        cases Catalogue.Registered.of_extension hid
      exact Kind.decodeLeaf_shallow (fun id hid => absurd hid (hnone id)) (by decide) hleaf
    · cases h
      exact Nat.zero_le _
  have ht : Kind.table.Builtins (.table t) := by
    refine .addAll hi32 (fun e he => ?_) 0
    simp only [List.mem_cons, List.not_mem_nil, or_false] at he
    rcases he with rfl | rfl | rfl
    · exact ⟨hnumber 1, hnumber 4⟩
    · exact ⟨hnumber 2, Kind.builtins_tower 32⟩
    · exact ⟨hnumber 3, hnumber 4⟩
  have hdeep : maxNesting < t.nesting := by decide +kernel
  have hlength : (t.encode C).toOption.any (·.length < limit) = true := by decide +kernel
  obtain ⟨bs, hencode, hlimit⟩ := ok_of_any hlength
  have hlimit : bs.length < limit := of_decide_eq_true hlimit
  obtain ⟨before, e, after, pairs, d, hsplit, hbefore, he, hfirsts, -, hdecode, hfault, -, -, -, hkept⟩ :=
    (Wire.nesting_limit C hC).2 t bs ht hencode hlimit hdeep (.copied bs) (.inl rfl)
  refine ⟨hC, ht, hdeep, bs, d, hencode, hlimit, hdecode, hfault, ?_⟩
  have hone : (t.entries.takeWhile (·.nesting ≤ maxNesting)).length = 1 := by decide +kernel
  rw [hsplit, List.takeWhile_append_of_pos (by simpa using hbefore),
    List.takeWhile_cons_of_neg (by simpa using he), List.append_nil, hfirsts, List.length_map] at hone
  have hsize := hkept.length_eq
  rwa [Table.entries, List.length_map, List.length_map, hone] at hsize

end OrderedTable
