import OrderedTable.Proofs.Table.Assembly
import OrderedTable.Proofs.Table.Ledger
import OrderedTable.Proofs.Table.Refiling
import OrderedTable.Proofs.Wire.Blocks
import OrderedTable.Proofs.Wire.InPlace
import OrderedTable.Proofs.Wire.Written

/-!
# How many buckets a table is read into

A table that is read gets as many buckets as its form declares entries, but not more than the form has room for,
at `leastEntry` bytes for an entry (`Table.decode_sized`). An entry may take fewer bytes: the index of its kind
takes two, and what an extension writes may be empty. So a table is read into fewer buckets than it asks for if its
entries are many and small; with as many buckets it is read in the order in which it stood
(`Table.decode_capacity`).
-/

namespace OrderedTable

open Wire

variable {C : Catalogue} {t : Table Datum} {bs : Bytes} {input : Input} {d : Decoded (Table Datum)}

namespace Wire

variable {decode : Decoder} {admits : Kind → Entry Datum → Bool} {K : Kind} {declared : Nat} {block : Block}

/-- Whatever its kinds are, a block that is read is read as `BlockRead` says. -/
theorem exists_blockRead_of_readBlock (hsound : input.Sound)
    (h : readBlock C (Kind.decode C) admits input = .ok block) :
    ∃ K declared, BlockRead C (fun _ => True) (fun _ _ _ _ => True) (Kind.decode C) admits input K declared
      block := by
  have hdecode : Traced.DecoderEnsures C (fun _ => True) (Traced.decode C) fun _ _ _ _ => True :=
    fun _ _ _ _ _ => .of_outcome fun _ _ => trivial
  exact Traced.readBlock_ensures Traced.decode_follows hdecode hsound (fun _ _ => trivial) block
    ((Traced.readBlock_follows Traced.decode_follows hsound).outcome.trans h)

/-- A table that is read whole has as many rows as were declared. -/
theorem BlockRead.size_toTable {good : Kind → Prop} {Q : Kind → Input → Datum → Nat → Prop}
    (h : BlockRead C good Q decode (tableAdmits C) input K declared block) (hfault : block.fault = none) :
    (block.toTable C).value.size = declared := by
  have haccepted : ∀ e ∈ block.entries,
      block.keyKind.accepts C e.key = true ∧ e.kind.accepts C e.value = true := by
    intro e he
    obtain ⟨place, length, hentry⟩ := h.runs.exists_of_mem he
    obtain ⟨hkey, hvalue⟩ := Bool.and_eq_true_iff.1 hentry.admitted
    exact ⟨(Kind.accepts_congr h.base_eq e.key).trans hkey, hvalue⟩
  have hholds := Table.addAll_perm (t := .empty block.keyKind block.wanted) (.empty _ _) haccepted
  have hsize := hholds.length_eq
  rw [Table.entries, List.length_map] at hsize
  exact hsize.trans (h.complete.1 hfault)

end Wire

/-- What a built-in kind writes is not empty. -/
theorem Kind.length_pos_of_encode {k : Kind} {d : Datum} (hk : Builtin k.base)
    (h : k.encode C d = .ok bs) : 0 < bs.length := by
  cases hp : k.parts? d with
  | some p =>
    obtain ⟨index, -, -, rfl⟩ := (encode_parts_eq_ok hp).1 h
    rw [List.length_append, length_header]
    exact Nat.add_pos_left (by decide) _
  | none =>
    rw [encode, read_leaf hp] at h
    exact (accepts_of_encodeLeaf hk h).2.2.2

namespace Table

/-- A table that is read whole from a form has as many rows as the table that was written, and as many buckets as
the form has room for. -/
theorem decode_sized (hencode : t.encode C = .ok bs) (hlimit : bs.length < limit)
    (hinput : input = .copied bs ∨ input = .inPlace bs) (hdecode : Table.decode C input = .ok d)
    (hcomplete : d.isComplete = true) :
    d.value.size = t.size ∧
      d.value.capacity = max (min t.size ((bs.length - headerLength) / leastEntry)) minCapacity := by
  obtain ⟨hsound, -, hbytes⟩ := Input.sound_of_whole hinput
  obtain ⟨index, -, -, hform⟩ := encode_eq_ok.1 hencode
  obtain ⟨block, hblock, rfl⟩ := ok_of_map hdecode
  obtain ⟨K, declared, hread⟩ := exists_blockRead_of_readBlock hsound hblock
  have hdeclared : declared = t.size := by
    have hheader := hread.header
    have hleast := Entry.two_mul_length_le (C := C) t.keyKind t.entries
    rw [hform, List.length_append] at hlimit
    rw [hbytes, hform] at hheader
    rw [count_of_readHeader (show t.entries.length < limit by omega) hheader]
    exact List.length_map _
  have hfault : block.fault = none := Option.isNone_iff_eq_none.1 hcomplete
  obtain ⟨-, hcapacity⟩ := addAll_fields (C := C) (.empty block.keyKind block.wanted) block.entries
  refine ⟨(hread.size_toTable hfault).trans hdeclared, hcapacity.trans ?_⟩
  rw [empty, hread.wanted, hdeclared, hbytes]

end Table

/-! ## The order of the rows -/

/-- What comes back of what was written, under registered kinds: data that are alike, with what `form` asks of
them besides. -/
def Catalogue.returning (C : Catalogue) (form : Datum → Datum → Prop) (inPlace : Bool) : Likeness where
  keeps := C.Registered
  kind := C.rebound inPlace
  base_kind := C.base_rebound inPlace
  form := form

/-- A table whose keys and values come back from their forms, however extensions write them. -/
structure Table.Returns (C : Catalogue) (form : Datum → Datum → Prop) (t : Table Datum) : Prop where
  lawful : C.Lawful C.Registered
  respects : ∀ inPlace, C.Respects (C.returning form inPlace)
  kept : t.Kept C C.Registered
  accepted : ∀ e ∈ t.entries, e.kind.accepts C e.value = true
  sent : ∀ e ∈ t.entries, e.Sent C (Kind.decodeWithin C maxNesting)
    (fun inPlace => Datum.Alike (C.returning form inPlace)) t.keyKind

namespace Table

variable {form : Datum → Datum → Prop}

/-- Read into as many buckets as it had, a table has its rows in the order in which they stood. -/
theorem Returns.decode_entries (h : t.Returns C form) (hencode : t.encode C = .ok bs) (hlimit : bs.length < limit)
    (hinput : input = .copied bs ∨ input = .inPlace bs) (hdecode : Table.decode C input = .ok d)
    (hcomplete : d.isComplete = true) (hcapacity : d.value.capacity = t.capacity) :
    ∃ pairs : List (Entry Datum × Entry Datum), t.entries = pairs.map Prod.fst ∧
      d.value.entries = pairs.map Prod.snd ∧
      ∀ z ∈ pairs, Entry.Alike (C.returning form input.isInPlace) z.1 z.2 := by
  rcases t.entries.eq_nil_or_concat with hnil | ⟨_, last, hlast⟩
  · -- without rows there is nothing to be read
    have hsize := (decode_sized hencode hlimit hinput hdecode hcomplete).1
    refine ⟨[], hnil, ?_, List.forall_mem_nil _⟩
    have hsize' : t.size = 0 := by rw [size, ← List.length_map, ← entries, hnil]; rfl
    rw [entries, List.eq_nil_of_length_eq_zero (hsize.trans hsize')]
    rfl
  obtain ⟨hsound, hdepth, hbytes⟩ := Input.sound_of_whole hinput
  obtain ⟨index, hindex, -, hform⟩ := encode_eq_ok.1 hencode
  have hK : C.Numbered t.keyKind := (h.sent last (by simp [hlast])).key.numbered
  have halike : ∀ e ∈ t.entries, ∀ e', e.ReadAs C (fun inPlace => Datum.Alike (C.returning form inPlace))
      input.isInPlace e' → Entry.Alike (C.returning form input.isInPlace) e e' :=
    fun e he e' hread => ⟨(h.sent e he).value.numbered.registered, hread.kind, hread.key, hread.value⟩
  have hadmits : ∀ e ∈ t.entries, ∀ e', e.ReadAs C (fun inPlace => Datum.Alike (C.returning form inPlace))
      input.isInPlace e' → tableAdmits C t.keyKind.owner e' = true := by
    intro e he e' hread
    have halike := halike e he e' hread
    have hkey : t.keyKind.accepts C e.key = t.keyKind.owner.accepts C e'.key :=
      halike.key.accepts_eq (h.respects input.isInPlace) rfl h.kept.base
    have hvalue := halike.value.accepts_eq (h.respects input.isInPlace)
      ((C.returning form input.isInPlace).base_eq halike.kind) halike.keeps
    obtain ⟨r, hr, rfl⟩ := List.mem_map.1 he
    rw [tableAdmits, ← hkey, h.kept.filed.accepted r hr, ← hvalue, h.accepted _ he]
    rfl
  rw [hform] at hlimit
  have hahead : input.bytes = header index t.entries.length ++
      t.entries.flatMap (Entry.wireForm C t.keyKind) ++ [] := by
    rw [hbytes, hform, List.append_nil]
  obtain ⟨pairs, hfirsts, hreceived, hread⟩ := readBlock_sent hK hindex h.sent hsound hahead hlimit hadmits
  rw [Table.decode, readBlock_outermost hdepth, hread] at hdecode
  obtain rfl := Except.ok.inj hdecode
  have hpairs : ∀ z ∈ pairs, Entry.Alike (C.returning form input.isInPlace) z.1 z.2 :=
    fun z hz => halike z.1 (hfirsts ▸ List.mem_map_of_mem hz) z.2 (hreceived.readAs z hz)
  refine ⟨pairs, hfirsts, ?_, hpairs⟩
  have hbuckets := (addAll_fields (C := C) (.empty (C.rebound input.isInPlace t.keyKind)
    (min t.entries.length ((input.bytes.length - headerLength) / leastEntry))) (pairs.map Prod.snd)).2
  exact h.kept.filed.addAll_alike h.kept.shaped h.lawful (h.respects input.isInPlace) h.kept.base
    (C.base_rebound _ _).symm (hbuckets.symm.trans hcapacity) hfirsts hpairs h.accepted

/-- A table that is read whole from the form of another has as many rows, but only as many buckets as the form has
room for. These are as many as the rows ask for if there are few rows or if the form takes `leastEntry` bytes for
each, so in any case if each entry takes as many, and if all kinds are built in, but not always. A table with as
many buckets as its rows ask for, whose keys and values come back from their forms, is then read in the order in
which it stood. (The length of a byte string is always less than `limit`.) -/
theorem decode_capacity (C : Catalogue) {t : Table Datum} {bs : Bytes} (hencode : t.encode C = .ok bs)
    (hlimit : bs.length < limit) {input : Input} (hinput : input = .copied bs ∨ input = .inPlace bs)
    {d : Decoded (Table Datum)} (hdecode : Table.decode C input = .ok d) (hcomplete : d.isComplete = true) :
    let roomy := t.size ≤ minCapacity ∨ headerLength + leastEntry * t.size ≤ bs.length
    d.value.size = t.size ∧
      d.value.capacity = max (min t.size ((bs.length - headerLength) / leastEntry)) minCapacity ∧
      (d.value.capacity = max t.size minCapacity ↔ roomy) ∧
      ((∀ e ∈ t.entries, leastEntry ≤ (e.wireForm C t.keyKind).length) → roomy) ∧
      (Builtin t.keyKind.base → (∀ e ∈ t.entries, Builtin e.kind.base) → roomy) ∧
      ∀ form, t.Returns C form → t.capacity = max t.size minCapacity → roomy →
        ∃ pairs : List (Entry Datum × Entry Datum), t.entries = pairs.map Prod.fst ∧
          d.value.entries = pairs.map Prod.snd ∧
          ∀ z ∈ pairs, Entry.Alike (C.returning form input.isInPlace) z.1 z.2 := by
  intro roomy
  obtain ⟨hsize, hcapacity⟩ := decode_sized hencode hlimit hinput hdecode hcomplete
  obtain ⟨index, -, hwritable, hform⟩ := encode_eq_ok.1 hencode
  have hlength : bs.length = headerLength + (t.entries.flatMap (Entry.wireForm C t.keyKind)).length := by
    rw [hform, List.length_append, length_header]
  have hentries : t.entries.length = t.size := List.length_map _
  have hroomy : d.value.capacity = max t.size minCapacity ↔ roomy := by
    show _ ↔ _ ∨ _
    rw [hcapacity]
    simp only [minCapacity, leastEntry]
    omega
  have hleast : (∀ e ∈ t.entries, leastEntry ≤ (e.wireForm C t.keyKind).length) → roomy := by
    intro h
    have hall := Entry.mul_length_le h
    rw [hentries] at hall
    exact .inr (by omega)
  refine ⟨hsize, hcapacity, hroomy, hleast, fun hK hkinds => hleast fun e he => ?_, fun form h ht hroom => ?_⟩
  · have hvalue := Kind.length_pos_of_encode (hkinds e he) (hwritable e he).value
    have hkey : 0 < (t.keyKind.wireForm C e.key).length :=
      Kind.length_pos_of_encode hK (hwritable e he).key
    rw [Entry.length_wireForm, leastEntry]
    omega
  · exact h.decode_entries hencode hlimit hinput hdecode hcomplete ((hroomy.2 hroom).trans ht.symm)

end Table

/-! ## Extensions that write little -/

namespace Extension

/-- Two data both of which, or neither, are the value that says nothing. -/
def SameUnit (d d' : Datum) : Prop := (d matches .unit) = (d' matches .unit)

/-- The value that says nothing comes back from no bytes. -/
theorem sent_unit (levels : Nat) : (Kind.owning (.extension 0)).Sent .specimens
    (Kind.decodeWithin .specimens levels)
    (fun inPlace => Datum.Alike (Catalogue.specimens.returning SameUnit inPlace)) .unit where
  numbered := ⟨37, rfl, by decide, rfl⟩
  written := by
    rw [Kind.wireForm, Kind.encode, Kind.read_leaf rfl]
    rfl
  read := by
    intro _ input rest _ _
    refine ⟨.unit, ?_, .leaf ⟨rfl, rfl⟩ ⟨rfl, rfl⟩ ⟨fun _ => rfl, rfl, rfl⟩ rfl⟩
    rw [Kind.decodeWithin_leaf (by decide) (by decide), Kind.wireForm, Kind.encode, Kind.read_leaf rfl]
    rfl

/-- A number comes back from the bytes that `i32` writes. -/
theorem sent_colliding (x : BitVec 32) (levels : Nat) : (Kind.owning (.extension 1)).Sent .specimens
    (Kind.decodeWithin .specimens levels)
    (fun inPlace => Datum.Alike (Catalogue.specimens.returning SameUnit inPlace)) (.scalar (.int .i32 x)) := by
  obtain ⟨bs, htravels⟩ := Kind.travels_scalar (C := builtinOnly) (k := .i32) (d := .scalar (.int .i32 x))
    (by decide) rfl rfl maxNesting
  have hwritten : (Kind.owning (.extension 1)).encode .specimens (.scalar (.int .i32 x)) = .ok bs := by
    rw [Kind.encode, Kind.read_leaf rfl]
    exact htravels.written
  have hform := Kind.wireForm_of_encode hwritten
  refine ⟨⟨39, rfl, by decide, rfl⟩, by rw [hform]; exact hwritten, ?_⟩
  rw [hform]
  intro hlimit input rest hsound hbytes
  obtain ⟨d', hread, halike⟩ := htravels.read hlimit input rest hsound hbytes
  rw [Kind.decodeWithin_leaf (by decide) (by decide)] at hread
  refine ⟨d', ?_, ?_⟩
  · rw [Kind.decodeWithin_leaf (by decide) (by decide)]
    exact (Kind.decodeWithin_leaf (k := Kind.i32) (by decide) (by decide) _ input).trans hread
  · cases halike with
    | leaf left right views =>
      refine .leaf left right views ?_
      have hseen := views.scalar (.int .i32)
      cases d' with
      | unit => cases hseen
      | _ => rfl
    | parts k left =>
      have hleaf : (Datum.scalar (.int .i32 x)).IsLeaf := ⟨rfl, rfl⟩
      cases (hleaf.parts? k).symm.trans left

end Extension

/-- Two rows that take six bytes each are read into as many buckets, and in the same order. -/
theorem Table.decode_capacity_colliding :
    let C := Catalogue.specimens
    let entry (n : Nat) : Entry Datum := ⟨.scalar (.int .i32 n), .unit, .owning (.extension 0)⟩
    let t := (Table.empty (.owning (.extension 1)) 0).addAll C [entry 1, entry 2]
    t.Returns C Extension.SameUnit ∧ t.capacity = max t.size minCapacity ∧
      ∃ bs d, t.encode C = .ok bs ∧ bs.length < limit ∧ Table.decode C (.copied bs) = .ok d ∧
        d.isComplete = true ∧ d.value.capacity = t.capacity ∧ d.value.size = 2 ∧
        ∃ pairs : List (Entry Datum × Entry Datum), t.entries = pairs.map Prod.fst ∧
          d.value.entries = pairs.map Prod.snd ∧
          ∀ z ∈ pairs, Entry.Alike (C.returning Extension.SameUnit false) z.1 z.2 := by
  intro C entry t
  have hentries : ∀ e ∈ t.entries, e = entry 1 ∨ e = entry 2 := by
    intro e he
    simpa using mem_entries_addAll he
  have hreturns : t.Returns C Extension.SameUnit := by
    refine ⟨Catalogue.specimens_lawful, fun inPlace => ?_, ?_, fun e he => ?_, fun e he => ?_⟩
    · exact Catalogue.specimens_respects (fun _ => .rfl) fun _ _ h => h
    · have hk : C.Registered (Kind.owning (.extension 1)).base := by decide
      have hops : ∀ op ∈ [entry 1, entry 2].map Operation.add,
          op.KeysWithin C.Registered (Kind.owning (.extension 1)) := by
        intro op hop
        obtain ⟨e, -, rfl⟩ := List.mem_map.1 hop
        exact ⟨nofun, fun key _ => (Kind.within_leaf rfl).2 hk⟩
      have hkept := (run_tallies Catalogue.specimens_lawful hk 0 hops).1.2.1
      rwa [← addAll_eq_run] at hkept
    · rcases hentries e he with rfl | rfl <;> rfl
    · have hkeyKind : t.keyKind = .owning (.extension 1) := (addAll_fields (.empty _ 0) _).1
      rw [hkeyKind]
      rcases hentries e he with rfl | rfl <;> exact ⟨Extension.sent_unit _, Extension.sent_colliding _ _⟩
  have hrun : (t.encode C).toOption.any (fun bs => bs.length < limit &&
      (Table.decode C (.copied bs)).toOption.any (·.isComplete)) = true := by decide +kernel
  have hfew : t.size = 2 ∧ t.capacity = 64 := by decide +kernel
  obtain ⟨bs, hencode, hrun⟩ := ok_of_any hrun
  obtain ⟨hlimit, hrun⟩ := Bool.and_eq_true_iff.1 hrun
  have hlimit : bs.length < limit := of_decide_eq_true hlimit
  obtain ⟨d, hdecode, hcomplete⟩ := ok_of_any hrun
  obtain ⟨hsize, -, hroomy, -, -, horder⟩ :=
    decode_capacity C hencode hlimit (.inl rfl) hdecode hcomplete
  have hfull : t.capacity = max t.size minCapacity := by
    rw [hfew.1, hfew.2]
    rfl
  have hroom : t.size ≤ minCapacity := by
    rw [hfew.1]
    decide
  exact ⟨hreturns, hfull, bs, d, hencode, hlimit, hdecode, hcomplete,
    (hroomy.2 (.inl hroom)).trans hfull.symm, hsize.trans hfew.1, horder _ hreturns hfull (.inl hroom)⟩

/-- Seventy rows that take three bytes each, in as many buckets. -/
def Table.slight : Table Datum :=
  (Table.empty (.owning (.scalar (.int .i8))) 70).addAll .specimens
    ((List.range 70).map fun n => ⟨.scalar (.int .i8 (.ofNat _ n)), .unit, .owning (.extension 0)⟩)

/-- They are read into six buckets fewer, and so in another order. -/
theorem Table.decode_capacity_slight :
    slight.size = 70 ∧ slight.capacity = 70 ∧ ∃ bs d, slight.encode .specimens = .ok bs ∧
      bs.length < limit ∧ Table.decode .specimens (.copied bs) = .ok d ∧ d.isComplete = true ∧
      d.value.size = 70 ∧ d.value.capacity = 64 ∧
      slight.entries.map (·.key.scalar?) ≠ d.value.entries.map (·.key.scalar?) := by
  have hslight : slight.size = 70 ∧ slight.capacity = 70 := by decide +kernel
  have hrun : (slight.encode .specimens).toOption.any (fun bs => bs.length < limit &&
      (Table.decode .specimens (.copied bs)).toOption.any fun d => d.isComplete &&
        decide (d.value.size = 70 ∧ d.value.capacity = 64 ∧
          slight.entries.map (·.key.scalar?) ≠ d.value.entries.map (·.key.scalar?))) = true := by
    decide +kernel
  obtain ⟨bs, hencode, hrun⟩ := ok_of_any hrun
  obtain ⟨hlimit, hrun⟩ := Bool.and_eq_true_iff.1 hrun
  obtain ⟨d, hdecode, hrun⟩ := ok_of_any hrun
  obtain ⟨hcomplete, hread⟩ := Bool.and_eq_true_iff.1 hrun
  exact ⟨hslight.1, hslight.2, bs, d, hencode, of_decide_eq_true hlimit, hdecode, hcomplete,
    of_decide_eq_true hread⟩

end OrderedTable
