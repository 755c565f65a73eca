import Mathlib.Data.List.Find
import OrderedTable.Proofs.Table.Gathering
import OrderedTable.Proofs.Wire.Delivery

/-!
# A table read into other buckets

A table may have fewer buckets than its rows ask for, or more; what is read from its form has as many as they ask
for, at every level of nesting, so the rows stand in another order. Nothing is lost on the way
(`Table.decode_regroups`): each entry comes back, and entries with equal keys in the order in which they stood.
-/

namespace OrderedTable

open Wire

variable {C : Catalogue} {inPlace : Bool} {input : Input}

/-- The entries that fill a table are gathered in it. -/
theorem Table.fills_gathered : Table.Fills C Base.Flat (Table.Gathered C) :=
  fun _ _ hK hflat hes => gathered_addAll C.lawful_builtin C.ranks_builtin hK (fun e _ => hflat.within hK e.key) hes

/-- A key that is delivered compares with others as the key that was sent. -/
theorem Datum.Delivered.order_left {T : Table Datum → Kind → List (Entry Datum) → Prop} {d d' : Datum}
    (h : Delivered C T inPlace d d') {K K' : Kind} (hbase : K.base = K'.base) (hK : Builtin K.base)
    (hflat : K.base.Flat) (haccepted : K.accepts C d = true) (c : Datum) :
    K'.order C d' c = K.order C d c := by
  have hleaf := Kind.isLeaf_of_accepts hK hflat.1 hflat.2 haccepted
  rw [← Kind.order_congr hbase]
  exact ((h.alike hleaf).order_left (C.respects_rebinding inPlace) hK c).symm

namespace Table

/-- A regular table that does not nest too deep is read whole from its form, and gathers its entries as they are
delivered. -/
theorem decode_gathered {t : Table Datum} (h : Kind.table.Regular C Base.Flat (.table t))
    (hnesting : t.nesting ≤ maxNesting) {bs : Bytes} (hencode : t.encode C = .ok bs) (hlimit : bs.length < limit)
    (hinput : input = .copied bs ∨ input = .inPlace bs) :
    ∃ (pairs : List (Entry Datum × Entry Datum)) (d : Decoded (Table Datum)), t.entries = pairs.map Prod.fst ∧
      (∀ z ∈ pairs, z.1.ReadAs C (Datum.Delivered C (Table.Gathered C)) input.isInPlace z.2) ∧
      Table.decode C input = .ok d ∧ d.isComplete = true ∧ d.consumed = bs.length ∧
      d.value.Gathered C (C.rebound input.isInPlace t.keyKind) (pairs.map Prod.snd) := by
  obtain ⟨hsound, hdepth, hbytes⟩ := Input.sound_of_whole hinput
  have hp : Kind.table.parts? (.table t) = some t.parts := Kind.parts?_of_table rfl rfl
  have hwritten := (Kind.encode_table t).trans hencode
  obtain rfl := Kind.wireForm_of_encode hwritten
  obtain ⟨hK, hflat, hes, hleast⟩ := h.entries_outcome fills_gathered hp maxNesting
  have hle : ∀ e ∈ t.entries, e.nesting ≤ maxNesting := by
    rw [nesting_eq] at hnesting
    exact Entry.deepest_le.1 hnesting
  obtain ⟨pairs, hfirsts, hreceived, hread⟩ := readBlock_delivered (tableAdmits C) hp hwritten hK hes hleast
    hle hsound (hbytes.trans (List.append_nil _).symm) hlimit
    fun e he e' hread => (hes e he).tableAdmits hK hread
  have hpairs := hreceived.readAs
  have hgathered := toTable_delivered fills_gathered hK (hflat rfl) hes hfirsts hpairs
  have hdecode : Table.decode C input = .ok ⟨(Table.empty (C.rebound input.isInPlace t.keyKind)
      t.entries.length).addAll C (pairs.map Prod.snd), (Kind.table.wireForm C (.table t)).length, none⟩ := by
    rw [Table.decode, readBlock_outermost hdepth, hread]
    rfl
  exact ⟨pairs, _, hfirsts, hpairs, hdecode, rfl, rfl, hgathered⟩

/-- The kind of the keys of a regular table, and that it accepts them. -/
theorem keys_of_regular {t : Table Datum} (h : Kind.table.Regular C Base.Flat (.table t)) :
    Builtin t.keyKind.base ∧ t.keyKind.base.Flat ∧ ∀ e ∈ t.entries, t.keyKind.accepts C e.key = true := by
  have hp : Kind.table.parts? (.table t) = some t.parts := Kind.parts?_of_table rfl rfl
  obtain ⟨hK, hflat, hes, -⟩ := h.entries_outcome fills_gathered hp 0
  exact ⟨hK, hflat rfl, fun e he => (hes e he).accepted.1⟩

/-- Of entries and what is read in their places, the first where the key of the entry equals a key. -/
def firstPair? (C : Catalogue) (K : Kind) (key : Datum) (pairs : List (Entry Datum × Entry Datum)) :
    Option (Entry Datum × Entry Datum) :=
  if K.accepts C key.peel then pairs.find? fun z => K.order C z.1.key key.peel = .eq else none

theorem mem_of_firstPair? {K : Kind} {key : Datum} {pairs : List (Entry Datum × Entry Datum)}
    {z : Entry Datum × Entry Datum} (h : firstPair? C K key pairs = some z) : z ∈ pairs := by
  rw [firstPair?] at h
  split at h
  · exact List.mem_of_find?_eq_some h
  · cases h

/-- A table of any capacity, with built-in kinds at every level of nesting, keys of tables that are neither lists nor
tables, and keys and values that their kinds accept, has a form. If it does not nest too deep, this form is read
whole, by copy and in place: each entry comes back, under a kind with the same base, and so do the entries of nested
lists and tables. At every level a table has as many buckets as its entries ask for and entries with equal keys stand
in the order in which they stood, so that a key finds the first of those with an equal key. That is the entry that
the key found before, if the keys were read under one base all the time. (The length of a byte string is always less
than `limit`.) -/
theorem decode_regroups {t : Table Datum} (h : Kind.table.Regular C Base.Flat (.table t))
    (hnesting : t.nesting ≤ maxNesting) :
    ∃ bs, t.encode C = .ok bs ∧ (bs.length < limit → ∀ input, input = .copied bs ∨ input = .inPlace bs →
      ∃ (pairs : List (Entry Datum × Entry Datum)) (d : Decoded (Table Datum)), t.entries = pairs.map Prod.fst ∧
        (∀ z ∈ pairs, z.1.ReadAs C (Datum.Delivered C (Table.Gathered C)) input.isInPlace z.2) ∧
        Table.decode C input = .ok d ∧ d.isComplete = true ∧ d.consumed = bs.length ∧
        d.value.Gathered C (C.rebound input.isInPlace t.keyKind) (pairs.map Prod.snd) ∧
        ∀ key, (d.value.find? C key).map Row.toEntry = (firstPair? C t.keyKind key pairs).map Prod.snd ∧
          ∀ start ops, Source C start → (∀ op ∈ ops, op.KeepsBase start.keyKind.base) → t = start.run C ops →
            (t.find? C key).map Row.toEntry = (firstPair? C t.keyKind key pairs).map Prod.fst) := by
  have hencode := (Kind.encode_table t).symm.trans h.written.1
  obtain ⟨hK, hflat, haccepted⟩ := keys_of_regular h
  refine ⟨_, hencode, fun hlimit input hinput => ?_⟩
  obtain ⟨pairs, d, hfirsts, hpairs, hdecode, hcomplete, hconsumed, hgathered⟩ :=
    decode_gathered h hnesting hencode hlimit hinput
  refine ⟨pairs, d, hfirsts, hpairs, hdecode, hcomplete, hconsumed, hgathered, fun key => ⟨?_, ?_⟩⟩
  · -- keys compare as they did before they were sent
    have hbase := (C.base_rebound input.isInPlace t.keyKind).symm
    have horder : ∀ z ∈ pairs, (C.rebound input.isInPlace t.keyKind).order C z.2.key key.peel =
        t.keyKind.order C z.1.key key.peel := by
      intro z hz
      have hkey := haccepted z.1 (hfirsts ▸ List.mem_map_of_mem hz)
      exact (hpairs z hz).key.order_left hbase hK hflat hkey key.peel
    rw [hgathered.finds, ← Kind.accepts_congr hbase, List.find?_map, firstPair?]
    split
    · refine congrArg (Option.map Prod.snd) (List.find?_congr fun z hz => ?_)
      exact decide_eq_decide.2 (by rw [horder z hz])
    · rfl
  · rintro start ops hstart hops rfl
    have hbase := run_base (C := C) start hops
    rw [hbase] at hK hflat
    have hkept := hstart.kept_run C.lawful_builtin hK hflat hops
    have hwithin := (hbase.symm ▸ hflat : (start.run C ops).keyKind.base.Flat).within hkept.base key.peel
    rw [hkept.find?_eq C.lawful_builtin hwithin, hfirsts, List.find?_map, firstPair?]
    split <;> rfl

end Table

/-! ## Tables of numbers -/

/-- A number that its kind accepts is regular. -/
theorem Kind.Regular.scalar {P : Base → Prop} {k : Kind} {d : Datum} {s : ScalarKind} (hk : k.base = .scalar s)
    (hbuiltin : Builtin k.base) (haccepted : k.accepts C d = true) : k.Regular C P d := by
  refine .leaf hbuiltin (by simp [hk]) (by simp [hk]) haccepted fun bytes htext => ?_
  rw [accepts, hk] at haccepted
  obtain ⟨x, hx⟩ := Option.isSome_iff_exists.1 haccepted
  cases (htext.symm.trans (Datum.only_scalar hx).1)

/-- A table that is filled with regular entries is regular. -/
theorem Kind.Regular.addAll {P : Base → Prop} {K : Kind} {es : List (Entry Datum)} (hK : Builtin K.base)
    (hP : P K.base) (hes : ∀ e ∈ es, K.Regular C P e.key ∧ e.kind.Regular C P e.value) (wanted : Nat) :
    Kind.table.Regular C P (.table ((Table.empty K wanted).addAll C es)) := by
  obtain ⟨p, hp, rfl, hentries⟩ := Table.exists_parts_addAll C K wanted es
  exact .parts hp hK (fun _ => hP) (fun e he => (hes e (hentries e he)).2) fun e he => (hes e (hentries e he)).1

/-- A table of numbers by number is regular. -/
theorem Kind.Regular.numbers {P : Base → Prop} {t : Table Datum} (hP : P Kind.i32.base) (hk : t.keyKind = .i32)
    (h : t.entries.all (fun e => Kind.i32.accepts C e.key && decide (e.kind = .i32) &&
      Kind.i32.accepts C e.value) = true) : Kind.table.Regular C P (.table t) := by
  have hi32 : Builtin Kind.i32.base := by decide
  have hentry : ∀ e ∈ t.entries, Kind.i32.Regular C P e.key ∧ e.kind.Regular C P e.value := by
    intro e he
    have haccepted := List.all_eq_true.1 h e he
    simp only [Bool.and_eq_true, decide_eq_true_eq] at haccepted
    obtain ⟨⟨hkey, hkind⟩, hvalue⟩ := haccepted
    rw [hkind]
    exact ⟨.scalar rfl hi32 hkey, .scalar rfl hi32 hvalue⟩
  rw [← hk] at hi32 hP
  refine .parts (parts?_of_table rfl rfl) hi32 (fun _ => hP) (fun e he => (hentry e he).2) fun e he => ?_
  rw [show t.parts.keyKind = .i32 from hk]
  exact (hentry e he).1

/-- A table of two rows with equal keys, the first of which holds a table, and both with more buckets than they ask
for: both have fewer after it is read, and the key finds the table. -/
theorem Table.decode_regroups_roomy :
    let C := Catalogue.specimens
    let number (n : Nat) : Datum := .scalar (.int .i32 n)
    let inner := (Table.empty .i32 100).addAll C [⟨number 1, number 2, .i32⟩]
    let t := (Table.empty .i32 200).addAll C [⟨number 7, .table inner, .table⟩, ⟨number 7, number 3, .i32⟩]
    Kind.table.Regular C Base.Flat (.table t) ∧ t.nesting ≤ maxNesting ∧ t.capacity = 200 ∧
      ∃ bs d, t.encode C = .ok bs ∧ bs.length < limit ∧ Table.decode C (.copied bs) = .ok d ∧
        d.isComplete = true ∧ d.value.capacity = 64 ∧
        ∃ e, (d.value.find? C (number 7)).map Row.toEntry = some e ∧
          Datum.Delivered C (Table.Gathered C) false (.table inner) e.value := by
  intro C number inner t
  have hi32 : Builtin Kind.i32.base := by decide
  have hflat : Kind.i32.base.Flat := by decide
  have hnumber : ∀ n, Kind.i32.Regular C Base.Flat (number n) := fun n => .scalar rfl hi32 rfl
  have hinner : Kind.table.Regular C Base.Flat (.table inner) := by
    refine .addAll hi32 hflat (fun e he => ?_) 100
    obtain rfl := List.mem_singleton.1 he
    exact ⟨hnumber 1, hnumber 2⟩
  have hregular : Kind.table.Regular C Base.Flat (.table t) := by
    refine .addAll hi32 hflat (fun e he => ?_) 200
    simp only [List.mem_cons, List.not_mem_nil, or_false] at he
    rcases he with rfl | rfl
    · exact ⟨hnumber 7, hinner⟩
    · exact ⟨hnumber 7, hnumber 3⟩
  have hnesting : t.nesting ≤ maxNesting := by decide +kernel
  have hbuckets : t.capacity = 200 ∧ t.entries.length = 2 := by decide +kernel
  have hlength : (t.encode C).toOption.any (·.length < limit) = true := by decide +kernel
  have hfound : (t.find? C (number 7)).any (·.value.table?.isSome) = true := by decide +kernel
  obtain ⟨bs, hencode, hread⟩ := decode_regroups hregular hnesting
  rw [hencode] at hlength
  have hlimit : bs.length < limit := of_decide_eq_true hlength
  obtain ⟨pairs, d, hfirsts, hpairs, hdecode, hcomplete, -, hgathered, hfinds⟩ :=
    hread hlimit (.copied bs) (.inl rfl)
  obtain ⟨hlater, hbefore⟩ := hfinds (number 7)
  have hops : ∀ op ∈ [⟨number 7, .table inner, .table⟩, ⟨number 7, number 3, .i32⟩].map Operation.add,
      op.KeepsBase Kind.i32.base := by
    intro op hop
    obtain ⟨e, -, rfl⟩ := List.mem_map.1 hop
    exact nofun
  have hbefore := hbefore _ _ (.empty .i32 200) hops (addAll_eq_run _ _)
  obtain ⟨r, hr, htable⟩ := (Option.any_eq_true _ _).1 hfound
  rw [hr] at hbefore
  obtain ⟨z, hz, hrow⟩ := Option.map_eq_some_iff.1 hbefore.symm
  have hmem := mem_of_firstPair? hz
  have hentry := mem_entries_addAll (hfirsts ▸ List.mem_map_of_mem hmem : z.1 ∈ t.entries)
  have hinner : z.1.value = .table inner := by
    simp only [List.mem_cons, List.not_mem_nil, or_false] at hentry
    rcases hentry with h | h
    · rw [h]
    · rw [← show z.1.value = r.value from congrArg Entry.value hrow, h] at htable
      cases htable
  refine ⟨hregular, hnesting, hbuckets.1, bs, d, hencode, hlimit, hdecode, hcomplete, ?_, z.2, ?_, ?_⟩
  · rw [hgathered.capacity, List.length_map, ← List.length_map (f := Prod.fst), ← hfirsts, hbuckets.2]
    rfl
  · rw [hlater, hz]
    rfl
  · exact hinner ▸ (hpairs z hmem).value

/-- Keys that were read under another kind for a while: a text that stood between two numbers left them in the wrong
order. The larger of them is not found, but it is in the table that is read from the form. -/
theorem Table.find?_after_rekeying :
    let C := Catalogue.specimens
    let number (n : Nat) : Datum := .scalar (.int .i32 n)
    let t := (Table.empty .i32 0).run C [.add ⟨number 7, number 1, .i32⟩, .setKeyKind .text,
      .add ⟨.ofText "h", number 2, .i32⟩, .setKeyKind .i32, .add ⟨number 5, number 3, .i32⟩, .setKeyKind .text,
      .remove (.ofText "h"), .setKeyKind .i32]
    Kind.table.Regular C Base.Flat (.table t) ∧ t.nesting ≤ maxNesting ∧ t.size = 2 ∧
      (t.find? C (number 7)).isNone ∧
      ∃ bs d, t.encode C = .ok bs ∧ bs.length < limit ∧ Table.decode C (.copied bs) = .ok d ∧
        d.isComplete = true ∧ (d.value.find? C (number 7)).isSome := by
  intro C number t
  have hkeyKind : t.keyKind = .i32 := by decide +kernel
  have hentries : t.entries.all (fun e => Kind.i32.accepts C e.key && decide (e.kind = .i32) &&
      Kind.i32.accepts C e.value) = true := by decide +kernel
  have hregular : Kind.table.Regular C Base.Flat (.table t) := .numbers (by decide) hkeyKind hentries
  have hrun : (t.encode C).toOption.any (fun bs => bs.length < limit &&
      (Table.decode C (.copied bs)).toOption.any fun d => d.isComplete &&
        (d.value.find? C (number 7)).isSome) = true := by decide +kernel
  obtain ⟨bs, hencode, hrun⟩ := ok_of_any hrun
  obtain ⟨hlimit, hrun⟩ := Bool.and_eq_true_iff.1 hrun
  obtain ⟨d, hdecode, hrun⟩ := ok_of_any hrun
  obtain ⟨hcomplete, hfound⟩ := Bool.and_eq_true_iff.1 hrun
  exact ⟨hregular, by decide +kernel, by decide +kernel, by decide +kernel, bs, d, hencode,
    of_decide_eq_true hlimit, hdecode, hcomplete, hfound⟩

end OrderedTable
