import OrderedTable.Proofs.Datum.Alike
import OrderedTable.Proofs.Wire.Decoder

/-!
# Sending values

What is written of a value is its *form*, and the form of a list or table is a header with the forms of its
entries one behind another (`Kind.encode_parts_eq_ok`). A value is *sent* if it has a form, and if a decoder
that stands before it, whatever follows, reads a value that is in some relation to the one written, and takes
exactly that many bytes (`Kind.Sent`). Entries that are sent are received in turn, each from its own form
(`Wire.readEntries_sent`), up to one that stops the decoder, if there is any (`Wire.readBlock_sent`,
`Wire.readBlock_stopped`).

What is read is given the owning kind or, in place and if it is not compound, the borrowing one
(`Catalogue.rebound`).
-/

namespace OrderedTable

open Wire

/-- The lengths and counts that can be written are less than this. -/
def Wire.limit : Nat := 1 <<< (8 * 8)

/-! ## Forms -/

section
variable (C : Catalogue)

/-- The binary form of a value, empty if it has none. -/
def Kind.wireForm (k : Kind) (d : Datum) : Bytes := (k.encode C d).toOption.getD []

/-- What is written of an entry: the index of its kind, its value and its key. -/
def Entry.wireForm (keyKind : Kind) (e : Entry Datum) : Bytes :=
  Bytes.ofNat 2 ((C.wireIndex e.kind).toOption.getD 0) ++ e.kind.wireForm C e.value ++
    keyKind.wireForm C e.key

/-- An entry that has a form. -/
structure Entry.Writable (keyKind : Kind) (e : Entry Datum) : Prop where
  kind : ∃ index, C.wireIndex e.kind = .ok index
  value : e.kind.encode C e.value = .ok (e.kind.wireForm C e.value)
  key : keyKind.encode C e.key = .ok (keyKind.wireForm C e.key)

end

section
variable {C : Catalogue} {k K : Kind} {d : Datum}

/-- Where a value can be written, its form is what is written. -/
theorem Kind.wireForm_of_encode {bs : Bytes} (h : k.encode C d = .ok bs) : k.wireForm C d = bs := by
  rw [wireForm, h]
  rfl

/-- An entry takes two bytes for the index of its kind, and what its value and key take. -/
theorem Entry.length_wireForm (keyKind : Kind) (e : Entry Datum) : (e.wireForm C keyKind).length =
    2 + (e.kind.wireForm C e.value).length + (keyKind.wireForm C e.key).length := by
  simp only [wireForm, List.length_append, Bytes.length_ofNat]

/-- Where each entry takes a least number of bytes, all together take at least so many for each. -/
theorem Entry.mul_length_le {keyKind : Kind} {least : Nat} {es : List (Entry Datum)}
    (h : ∀ e ∈ es, least ≤ (e.wireForm C keyKind).length) :
    least * es.length ≤ (es.flatMap (Entry.wireForm C keyKind)).length := by
  induction es with
  | nil => exact Nat.le_refl _
  | cons e es ih =>
    obtain ⟨he, hes⟩ := List.forall_mem_cons.1 h
    rw [List.flatMap_cons, List.length_append, List.length_cons, Nat.mul_succ]
    have := ih hes
    omega

/-- Entries take two bytes each, at least. -/
theorem Entry.two_mul_length_le (keyKind : Kind) (es : List (Entry Datum)) :
    2 * es.length ≤ (es.flatMap (Entry.wireForm C keyKind)).length := by
  apply mul_length_le
  intro e _
  rw [length_wireForm]
  omega

/-- Entries are written if each of them can be, and what is written are their forms. -/
theorem Catalogue.encodeEntries_eq_ok {es : List (Entry Datum)} {body : Bytes} :
    C.encodeEntries (es.map (Entry.map (K.encode C) (Kind.encode C))) = .ok body ↔
      (∀ e ∈ es, e.Writable C K) ∧ body = es.flatMap (Entry.wireForm C K) := by
  -- both ways entry by entry, as the encoder goes
  induction es generalizing body with
  | nil =>
    refine ⟨fun h => ⟨List.forall_mem_nil _, (Except.ok.inj h).symm⟩, ?_⟩
    rintro ⟨-, rfl⟩
    rfl
  | cons e es ih =>
    rw [List.map_cons, encodeEntries, List.forall_mem_cons, List.flatMap_cons]
    constructor
    · intro h
      obtain ⟨index, hindex, h⟩ := ok_of_bind h
      obtain ⟨value, hvalue, h⟩ := ok_of_bind h
      obtain ⟨key, hkey, h⟩ := ok_of_bind h
      obtain ⟨following, hrest, h⟩ := ok_of_bind h
      obtain ⟨hes, rfl⟩ := ih.1 hrest
      have hvalue' := Kind.wireForm_of_encode hvalue
      have hkey' := Kind.wireForm_of_encode hkey
      refine ⟨⟨⟨⟨index, hindex⟩, ?_, ?_⟩, hes⟩, ?_⟩
      · rw [hvalue']
        exact hvalue
      · rw [hkey']
        exact hkey
      · have hindex' : C.wireIndex e.kind = .ok index := hindex
        rw [Entry.wireForm, hindex', hvalue', hkey']
        exact (Except.ok.inj h).symm
    · rintro ⟨⟨⟨⟨index, hindex⟩, hvalue, hkey⟩, hes⟩, rfl⟩
      simp only [Entry.map, hindex, hvalue, hkey, ih.2 ⟨hes, rfl⟩, ok_bind, Entry.wireForm]
      rfl

/-- What has parts is written if its kind of keys has an index and each entry can be written. -/
theorem Kind.encode_parts_eq_ok {p : Parts} (hp : k.parts? d = some p) {bs : Bytes} :
    k.encode C d = .ok bs ↔ ∃ index, C.wireIndex p.keyKind = .ok index ∧
      (∀ e ∈ p.entries, e.Writable C p.keyKind) ∧
      bs = header index p.entries.length ++ p.entries.flatMap (Entry.wireForm C p.keyKind) := by
  rw [Kind.encode_parts hp, Catalogue.encodeBlock, List.length_map]
  constructor
  · intro h
    obtain ⟨index, hindex, h⟩ := ok_of_bind h
    obtain ⟨body, hbody, h⟩ := ok_of_bind h
    obtain ⟨hes, rfl⟩ := Catalogue.encodeEntries_eq_ok.1 hbody
    exact ⟨index, hindex, hes, (Except.ok.inj h).symm⟩
  · rintro ⟨index, hindex, hes, rfl⟩
    rw [hindex, ok_bind, Catalogue.encodeEntries_eq_ok.2 ⟨hes, rfl⟩, ok_bind]
    rfl

/-- What is written of a table. -/
theorem Table.encode_eq_ok {t : Table Datum} {bs : Bytes} :
    t.encode C = .ok bs ↔ ∃ index, C.wireIndex t.keyKind = .ok index ∧
      (∀ e ∈ t.entries, e.Writable C t.keyKind) ∧
      bs = header index t.entries.length ++ t.entries.flatMap (Entry.wireForm C t.keyKind) := by
  rw [← Kind.encode_table]
  exact Kind.encode_parts_eq_ok (Kind.parts?_of_table rfl rfl)

end

/-! ## Kinds -/

namespace Catalogue

variable (C : Catalogue)

/-- The kind that a kind has come to when what was written under it is read. -/
def rebound (inPlace : Bool) (k : Kind) : Kind :=
  if inPlace && !C.isCompound k then k.twin else k.owner

theorem base_rebound (inPlace : Bool) (k : Kind) : (C.rebound inPlace k).base = k.base := by
  unfold rebound
  split <;> rfl

/-- The kind that is given for the owning one. -/
theorem decodedKind_owner (input : Input) {k : Kind} (hk : C.Registered k.base) :
    C.decodedKind input k.owner = C.rebound input.isInPlace k :=
  decodedKind_eq input (k := k.owner) hk

/-- The index that is written for a kind is read as its owning kind. -/
def Numbered (k : Kind) : Prop :=
  ∃ index, C.wireIndex k = .ok index ∧ index < 1 <<< (8 * 2) ∧ C.kindNumbered index = .ok k.owner

variable {C}

theorem Numbered.registered {k : Kind} (h : C.Numbered k) : C.Registered k.base := by
  obtain ⟨index, -, -, hkind⟩ := h
  exact (registered_of_kindNumbered hkind : C.Registered k.owner.base)

end Catalogue

/-! ## What is sent -/

section
variable (C : Catalogue) (decode : Decoder) (R : Bool → Datum → Datum → Prop)

/-- A value with a form that is read, whatever follows it, as a value that `R` relates to it. -/
structure Kind.Sent (k : Kind) (d : Datum) : Prop where
  numbered : C.Numbered k
  written : k.encode C d = .ok (k.wireForm C d)
  read : (k.wireForm C d).length < limit → ∀ (input : Input) (rest : Bytes), input.Sound →
    input.bytes = k.wireForm C d ++ rest →
      ∃ d', decode k.owner input = .ok (d', (k.wireForm C d).length) ∧ R input.isInPlace d d'

/-- A value whose form, whatever follows it, stops the decoder. -/
def Kind.Stops (fault : WireFault) (k : Kind) (d : Datum) : Prop :=
  (k.wireForm C d).length < limit → ∀ (input : Input) (rest : Bytes), input.Sound →
    input.bytes = k.wireForm C d ++ rest → decode k.owner input = .error fault

/-- An entry whose key and value are sent. -/
structure Entry.Sent (K : Kind) (e : Entry Datum) : Prop where
  value : e.kind.Sent C decode R e.value
  key : K.Sent C decode R e.key

/-- An entry that is read in the place of another. -/
structure Entry.ReadAs (inPlace : Bool) (e e' : Entry Datum) : Prop where
  kind : e'.kind = C.rebound inPlace e.kind
  value : R inPlace e.value e'.value
  key : R inPlace e.key e'.key

/-- Entries, and what is read in their places: each is read from its own form, and these forms lie one behind
another from a place on. -/
inductive Wire.Received (input : Input) (K : Kind) : Nat → List (Entry Datum × Entry Datum) → Prop
  | nil (place : Nat) : Received input K place []
  | cons {place : Nat} {e e' : Entry Datum} {pairs : List (Entry Datum × Entry Datum)}
      (read : readEntry C decode input K.owner place = .ok (e', (e.wireForm C K).length))
      (readAs : e.ReadAs C R input.isInPlace e')
      (rest : Received input K (place + (e.wireForm C K).length) pairs) :
      Received input K place ((e, e') :: pairs)

end

section
variable {C : Catalogue} {decode : Decoder} {R : Bool → Datum → Datum → Prop} {K : Kind}
variable {input : Input} {place : Nat} {pre rest : Bytes} {e : Entry Datum} {es : List (Entry Datum)}
variable {fault : WireFault}

namespace Wire

theorem Received.readAs {pairs : List (Entry Datum × Entry Datum)}
    (h : Received C decode R input K place pairs) : ∀ z ∈ pairs, z.1.ReadAs C R input.isInPlace z.2 := by
  induction h with
  | nil => exact List.forall_mem_nil _
  | cons _ readAs _ ih => exact List.forall_mem_cons.2 ⟨readAs, ih⟩

/-- It does not matter which of two decoders reads, if they agree on the rest of the input. -/
theorem Received.congr {decode' : Decoder} {pairs : List (Entry Datum × Entry Datum)}
    (hdecode : ∀ k n, decode k (input.advance n) = decode' k (input.advance n))
    (h : Received C decode R input K place pairs) : Received C decode' R input K place pairs := by
  induction h with
  | nil place => exact .nil place
  | cons read readAs _ ih => exact .cons ((readEntry_congr hdecode _ _).symm.trans read) readAs ih

/-! ## One entry -/

/-- Where the value and the key of an entry stand. -/
theorem advance_wireForm (hplace : pre.length = place)
    (hbytes : input.bytes = pre ++ (e.wireForm C K ++ rest)) :
    (input.advance (place + 2)).bytes = e.kind.wireForm C e.value ++ (K.wireForm C e.key ++ rest) ∧
      (input.advance (place + 2 + (e.kind.wireForm C e.value).length)).bytes =
        K.wireForm C e.key ++ rest := by
  have hvalue : input.bytes = (pre ++ Bytes.ofNat 2 ((C.wireIndex e.kind).toOption.getD 0)) ++
      (e.kind.wireForm C e.value ++ (K.wireForm C e.key ++ rest)) := by
    rw [hbytes, Entry.wireForm]
    simp only [List.append_assoc]
  have hkey : input.bytes = (pre ++ Bytes.ofNat 2 ((C.wireIndex e.kind).toOption.getD 0) ++
      e.kind.wireForm C e.value) ++ (K.wireForm C e.key ++ rest) := by
    rw [hvalue]
    simp only [List.append_assoc]
  constructor
  · show input.bytes.drop (place + 2) = _
    rw [hvalue]
    exact List.drop_left' (by simp [hplace])
  · show input.bytes.drop (place + 2 + _) = _
    rw [hkey]
    exact List.drop_left' (by simp [hplace, Nat.add_assoc])

/-- Under a kind that is found again, an entry is its value and then its key. -/
theorem readEntry_numbered (hkind : C.Numbered e.kind) (hplace : pre.length = place)
    (hbytes : input.bytes = pre ++ (e.wireForm C K ++ rest)) :
    readEntry C decode input K.owner place =
      decode e.kind.owner (input.advance (place + 2)) >>= fun value =>
        decode K.owner (input.advance (place + 2 + value.2)) >>= fun key =>
          .ok (⟨key.1, value.1, C.rebound input.isInPlace e.kind⟩, 2 + value.2 + key.2) := by
  have hregistered := hkind.registered
  obtain ⟨index, hindex, hlt, hnumbered⟩ := hkind
  have hindex' : (C.wireIndex e.kind).toOption.getD 0 = index := by rw [hindex]; rfl
  have hnumber : numberAt 2 place input.bytes = .ok index := by
    refine numberAt_append hlt pre (e.kind.wireForm C e.value ++ K.wireForm C e.key ++ rest) ?_ hplace
    rw [hbytes, Entry.wireForm, hindex']
    simp only [List.append_assoc]
  rw [readEntry, hnumber, ok_bind, hnumbered, ok_bind, C.decodedKind_owner input hregistered]
  rfl

/-- An entry that is sent is read. -/
theorem readEntry_sent (h : e.Sent C decode R K) (hsound : input.Sound) (hplace : pre.length = place)
    (hbytes : input.bytes = pre ++ (e.wireForm C K ++ rest)) (hlimit : (e.wireForm C K).length < limit) :
    ∃ e', readEntry C decode input K.owner place = .ok (e', (e.wireForm C K).length) ∧
      e.ReadAs C R input.isInPlace e' := by
  obtain ⟨hvalueBytes, hkeyBytes⟩ := advance_wireForm hplace hbytes
  rw [Entry.length_wireForm] at hlimit ⊢
  obtain ⟨value, hvalue, hvalueAs⟩ := h.value.read (by omega) _ _ (hsound.advance _) hvalueBytes
  obtain ⟨key, hkey, hkeyAs⟩ := h.key.read (by omega) _ _ (hsound.advance _) hkeyBytes
  rw [Input.isInPlace_advance] at hvalueAs hkeyAs
  refine ⟨⟨key, value, C.rebound input.isInPlace e.kind⟩, ?_, rfl, hvalueAs, hkeyAs⟩
  rw [readEntry_numbered h.value.numbered hplace hbytes, hvalue, ok_bind, hkey, ok_bind]

/-- An entry is not read if its value stops the decoder or, that being sent, its key does. -/
theorem readEntry_stopped (hkind : C.Numbered e.kind)
    (h : e.kind.Stops C decode fault e.value ∨
      e.kind.Sent C decode R e.value ∧ K.Stops C decode fault e.key)
    (hsound : input.Sound) (hplace : pre.length = place)
    (hbytes : input.bytes = pre ++ (e.wireForm C K ++ rest)) (hlimit : (e.wireForm C K).length < limit) :
    readEntry C decode input K.owner place = .error fault := by
  obtain ⟨hvalueBytes, hkeyBytes⟩ := advance_wireForm hplace hbytes
  rw [Entry.length_wireForm] at hlimit
  rw [readEntry_numbered hkind hplace hbytes]
  rcases h with hvalue | ⟨hvalue, hkey⟩
  · rw [hvalue (by omega) _ _ (hsound.advance _) hvalueBytes]
    rfl
  · obtain ⟨value, hvalue, -⟩ := hvalue.read (by omega) _ _ (hsound.advance _) hvalueBytes
    rw [hvalue, ok_bind, hkey (by omega) _ _ (hsound.advance _) hkeyBytes]
    rfl

/-! ## Entries one behind another -/

variable {admits : Kind → Entry Datum → Bool}

/-- Entries that are sent are received in turn, and the others are read on behind them. -/
theorem readEntries_sent (hes : ∀ e ∈ es, e.Sent C decode R K) (hsound : input.Sound)
    (hplace : pre.length = place)
    (hbytes : input.bytes = pre ++ (es.flatMap (Entry.wireForm C K) ++ rest))
    (hlimit : (es.flatMap (Entry.wireForm C K)).length < limit)
    (hadmits : ∀ e ∈ es, ∀ e', e.ReadAs C R input.isInPlace e' → admits K.owner e' = true) {more : Nat}
    {others : List (Entry Datum) × Nat × Option WireFault}
    (hothers : readEntries C decode admits input K.owner more
      (place + (es.flatMap (Entry.wireForm C K)).length) = others) :
    ∃ pairs, es = pairs.map Prod.fst ∧ Received C decode R input K place pairs ∧
      readEntries C decode admits input K.owner (es.length + more) place =
        (pairs.map Prod.snd ++ others.1, others.2) := by
  -- what was read so far goes over to `pre`
  induction es generalizing pre place with
  | nil => exact ⟨[], rfl, .nil place, by rw [List.length_nil, Nat.zero_add]; exact hothers⟩
  | cons e es ih =>
    rw [List.flatMap_cons] at hbytes hlimit hothers
    rw [List.length_append] at hlimit hothers
    have hhead : input.bytes = pre ++ (e.wireForm C K ++ (es.flatMap (Entry.wireForm C K) ++ rest)) := by
      rw [hbytes, List.append_assoc]
    have htail : input.bytes = (pre ++ e.wireForm C K) ++ (es.flatMap (Entry.wireForm C K) ++ rest) := by
      rw [hhead, List.append_assoc]
    obtain ⟨e', hread, hreadAs⟩ :=
      readEntry_sent (hes e List.mem_cons_self) hsound hplace hhead (by omega)
    have hafter : (pre ++ e.wireForm C K).length = place + (e.wireForm C K).length := by
      rw [List.length_append, hplace]
    obtain ⟨pairs, rfl, hreceived, hrest⟩ := ih (fun f hf => hes f (List.mem_cons_of_mem _ hf)) hafter htail
      (by omega) (fun f hf => hadmits f (List.mem_cons_of_mem _ hf)) (by rw [Nat.add_assoc]; exact hothers)
    refine ⟨(e, e') :: pairs, rfl, .cons hread hreadAs hreceived, ?_⟩
    have hahead : place < input.bytes.length := by
      rw [hhead, ← hplace, List.length_append, List.length_append, Entry.length_wireForm]
      omega
    rw [List.length_cons, Nat.succ_add, readEntries, if_pos hahead, hread]
    simp only [hadmits e List.mem_cons_self e' hreadAs, if_true, hrest]
    rfl

/-! ## Blocks -/

/-- The header of entries that were written is read. -/
theorem readHeader_written (hK : C.Numbered K) {index : Nat} (hindex : C.wireIndex K = .ok index)
    (hbytes : input.bytes = header index es.length ++ es.flatMap (Entry.wireForm C K) ++ rest)
    (hlimit : (header index es.length ++ es.flatMap (Entry.wireForm C K)).length < limit) :
    readHeader C input.bytes = .ok (K.owner, es.length) := by
  obtain ⟨_, hindex', hlt, hkind⟩ := hK
  cases hindex.symm.trans hindex'
  -- every entry takes bytes, so there are fewer entries than bytes
  have hcount : es.length < limit := by
    have hleast := Entry.two_mul_length_le (C := C) K es
    rw [List.length_append] at hlimit
    omega
  rw [hbytes, List.append_assoc]
  exact readHeader_header hlt hkind hcount _

/-- Where entries take as many bytes as the decoder reckons with, their count is not cut down to what the input
has room for. -/
theorem wanted_eq_of_least {body : Bytes} {index count : Nat} (hleast : leastEntry * count ≤ body.length)
    (hbytes : input.bytes = header index count ++ body ++ rest) :
    min count ((input.bytes.length - headerLength) / leastEntry) = count := by
  rw [hbytes, List.length_append, List.length_append, length_header]
  simp only [leastEntry] at hleast ⊢
  omega

/-- A block of entries that are sent is read whole. What is ahead bounds how many buckets a table gets. -/
theorem readBlock_sent (hK : C.Numbered K) {index : Nat} (hindex : C.wireIndex K = .ok index)
    (hes : ∀ e ∈ es, e.Sent C decode R K) (hsound : input.Sound)
    (hbytes : input.bytes = header index es.length ++ es.flatMap (Entry.wireForm C K) ++ rest)
    (hlimit : (header index es.length ++ es.flatMap (Entry.wireForm C K)).length < limit)
    (hadmits : ∀ e ∈ es, ∀ e', e.ReadAs C R input.isInPlace e' → admits K.owner e' = true) :
    ∃ pairs, es = pairs.map Prod.fst ∧ Received C decode R input K headerLength pairs ∧
      readBlock C decode admits input = .ok ⟨C.rebound input.isInPlace K,
        min es.length ((input.bytes.length - headerLength) / leastEntry), pairs.map Prod.snd,
        (header index es.length ++ es.flatMap (Entry.wireForm C K)).length, none⟩ := by
  have hheader := readHeader_written hK hindex hbytes hlimit
  rw [List.length_append] at hlimit
  have hothers : readEntries C decode admits input K.owner 0
      (headerLength + (es.flatMap (Entry.wireForm C K)).length) =
      ([], headerLength + (es.flatMap (Entry.wireForm C K)).length, none) := rfl
  obtain ⟨pairs, rfl, hreceived, hentries⟩ := readEntries_sent hes hsound (length_header index es.length)
    (by rw [hbytes, List.append_assoc]) (by omega) hadmits hothers
  refine ⟨pairs, rfl, hreceived, ?_⟩
  rw [List.append_nil, Nat.add_zero] at hentries
  rw [readBlock_of_readEntries hheader hentries, C.decodedKind_owner input hK.registered, if_neg (by simp),
    List.length_append, length_header]
  rfl

/-- A block is read up to the first entry that stops the decoder. -/
theorem readBlock_stopped (hK : C.Numbered K) {index : Nat} (hindex : C.wireIndex K = .ok index)
    {before after : List (Entry Datum)} (hes : es = before ++ e :: after)
    (hbefore : ∀ e ∈ before, e.Sent C decode R K) (hkind : C.Numbered e.kind)
    (hstops : e.kind.Stops C decode fault e.value ∨
      e.kind.Sent C decode R e.value ∧ K.Stops C decode fault e.key)
    (hsound : input.Sound)
    (hbytes : input.bytes = header index es.length ++ es.flatMap (Entry.wireForm C K) ++ rest)
    (hlimit : (header index es.length ++ es.flatMap (Entry.wireForm C K)).length < limit)
    (hadmits : ∀ e ∈ before, ∀ e', e.ReadAs C R input.isInPlace e' → admits K.owner e' = true) :
    ∃ pairs, before = pairs.map Prod.fst ∧ Received C decode R input K headerLength pairs ∧
      readBlock C decode admits input = .ok ⟨C.rebound input.isInPlace K,
        min es.length ((input.bytes.length - headerLength) / leastEntry), pairs.map Prod.snd,
        headerLength + (before.flatMap (Entry.wireForm C K)).length, some fault⟩ := by
  have hheader := readHeader_written hK hindex hbytes hlimit
  have hforms : es.flatMap (Entry.wireForm C K) = before.flatMap (Entry.wireForm C K) ++
      (e.wireForm C K ++ after.flatMap (Entry.wireForm C K)) := by
    rw [hes, List.flatMap_append, List.flatMap_cons]
  have hcount : es.length = before.length + (after.length + 1) := by
    rw [hes, List.length_append, List.length_cons]
  rw [hforms] at hbytes hlimit
  simp only [List.length_append] at hlimit
  -- behind the entries before it stands the one that stops
  have hplace : (header index es.length ++ before.flatMap (Entry.wireForm C K)).length =
      headerLength + (before.flatMap (Entry.wireForm C K)).length := by
    rw [List.length_append, length_header]
  have hstand : input.bytes = (header index es.length ++ before.flatMap (Entry.wireForm C K)) ++
      (e.wireForm C K ++ (after.flatMap (Entry.wireForm C K) ++ rest)) := by
    rw [hbytes]
    simp only [List.append_assoc]
  have hread := readEntry_stopped hkind hstops hsound hplace hstand (by omega)
  have hahead : headerLength + (before.flatMap (Entry.wireForm C K)).length < input.bytes.length := by
    rw [hbytes]
    simp only [List.length_append, length_header, Entry.length_wireForm]
    omega
  have hothers : readEntries C decode admits input K.owner (after.length + 1)
      (headerLength + (before.flatMap (Entry.wireForm C K)).length) =
      ([], headerLength + (before.flatMap (Entry.wireForm C K)).length, some fault) := by
    rw [readEntries, if_pos hahead, hread]
  obtain ⟨pairs, rfl, hreceived, hentries⟩ := readEntries_sent hbefore hsound
    (length_header index es.length) (by rw [hbytes, List.append_assoc, List.append_assoc]) (by omega) hadmits
    hothers
  refine ⟨pairs, rfl, hreceived, ?_⟩
  rw [← hcount, List.append_nil] at hentries
  rw [readBlock_of_readEntries hheader hentries, C.decodedKind_owner input hK.registered]
  rfl

end Wire

end

end OrderedTable
