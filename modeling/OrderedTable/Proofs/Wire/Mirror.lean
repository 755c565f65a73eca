import OrderedTable.Proofs.Datum.Alike
import OrderedTable.Proofs.Table.Halving
import OrderedTable.Proofs.Wire.Decoder

/-!
# What is decoded in place mirrors what is copied

`Datum.Mirrored` relates a datum copied out of a buffer to the one decoded in place. Both have the same
shape, and every list and table in one has its keys and values where the other has them. Text and bytes
are the copy's own, and in place they are windows that lie inside the buffer and show the same bytes.
Kinds are the same, but for those that are not compound, which are in place the borrowing twins
(`Catalogue.mirrored`).

Mirrored data are alike (`Datum.Mirrored.alike`), so they go to the same places in mirrored tables
(`Table.Mirrored.insert`).
-/

namespace OrderedTable

/-- Two computations with the same fault, or with results related by `R`. -/
inductive SameOutcome {ε α β : Type} (R : α → β → Prop) : Except ε α → Except ε β → Prop
  | fault (f : ε) : SameOutcome R (.error f) (.error f)
  | result {a : α} {b : β} (h : R a b) : SameOutcome R (.ok a) (.ok b)

namespace SameOutcome

variable {ε α β γ δ : Type} {R : α → β → Prop} {Q : γ → δ → Prop}

theorem map {x : Except ε α} {y : Except ε β} {f : α → γ} {g : β → δ} (h : SameOutcome R x y)
    (hf : ∀ a b, R a b → Q (f a) (g b)) : SameOutcome Q (x.map f) (y.map g) := by
  cases h with
  | fault f => exact .fault f
  | result h => exact .result (hf _ _ h)

/-- What goes on alike from related results has the same outcome. -/
theorem bind {x : Except ε α} {y : Except ε β} {f : α → Except ε γ} {g : β → Except ε δ}
    (h : SameOutcome R x y) (hf : ∀ a b, R a b → SameOutcome Q (f a) (g b)) :
    SameOutcome Q (x >>= f) (y >>= g) := by
  cases h with
  | fault f => exact .fault f
  | result h => exact hf _ _ h

/-- What goes on alike from one result has the same outcome. -/
theorem bind_same {x : Except ε α} {f : α → Except ε γ} {g : α → Except ε δ}
    (hf : ∀ a, x = .ok a → SameOutcome Q (f a) (g a)) : SameOutcome Q (x >>= f) (x >>= g) := by
  cases x with
  | error fault => exact .fault fault
  | ok a => exact hf a rfl

end SameOutcome

/-! ## Input -/

/-- Input to be copied, and the same input to be decoded in place from a buffer. -/
structure Input.Mirrors (buffer : Bytes) (input input' : Input) : Prop where
  copied : input.origin = none
  bytes : input'.bytes = input.bytes
  depth : input'.depth = input.depth
  placed : ∃ offset, input'.origin = some (buffer, offset) ∧ offset ≤ buffer.length ∧
    buffer.drop offset = input.bytes

/-- A window inside a buffer that shows the given bytes. -/
structure Window (buffer bs : Bytes) (start length : Nat) : Prop where
  inside : start + length ≤ buffer.length
  shows : (buffer.drop start).take length = bs

namespace Input.Mirrors

variable {buffer : Bytes} {input input' : Input}

theorem start (bs : Bytes) : Mirrors bs (.copied bs) (.inPlace bs) where
  copied := rfl
  bytes := rfl
  depth := rfl
  placed := ⟨0, rfl, Nat.zero_le _, rfl⟩

theorem advance (h : Mirrors buffer input input') (n : Nat) :
    Mirrors buffer (input.advance n) (input'.advance n) := by
  obtain ⟨offset, horigin, hle, hdrop⟩ := h.placed
  have hlength : buffer.length - offset = input.bytes.length := by rw [← hdrop, List.length_drop]
  refine ⟨?_, ?_, h.depth, offset + min n input.bytes.length, ?_, ?_, ?_⟩
  · rw [Input.advance, h.copied]
    rfl
  · rw [Input.advance, h.bytes]
    rfl
  · rw [Input.advance, horigin, h.bytes]
    rfl
  · omega
  · exact Input.drop_add_min hdrop n

theorem nested (h : Mirrors buffer input input') : Mirrors buffer input.nested input'.nested where
  copied := h.copied
  bytes := h.bytes
  depth := by rw [Input.nested, Input.nested, h.depth]
  placed := h.placed

/-- What lies in the input is kept as its own, and in place as a window on the buffer. -/
theorem storage (h : Mirrors buffer input input') {start length : Nat}
    (hle : start + length ≤ input.bytes.length) :
    ∃ offset bs, Window buffer bs offset length ∧ input.storage start length = .owned bs ∧
      input'.storage start length = .shared buffer offset length := by
  obtain ⟨offset, horigin, hoffset, hdrop⟩ := h.placed
  have hlength : buffer.length - offset = input.bytes.length := by rw [← hdrop, List.length_drop]
  refine ⟨offset + start, (input.bytes.drop start).take length, ⟨by omega, ?_⟩, ?_, ?_⟩
  · rw [← List.drop_drop, hdrop]
  · rw [Input.storage, h.copied]
  · rw [Input.storage, horigin]

theorem isInPlace_left (h : Mirrors buffer input input') : input.isInPlace = false := by
  rw [isInPlace, h.copied]
  rfl

theorem isInPlace_right (h : Mirrors buffer input input') : input'.isInPlace = true := by
  obtain ⟨offset, horigin, -⟩ := h.placed
  rw [isInPlace, horigin]
  rfl

end Input.Mirrors

/-! ## Kinds -/

namespace Catalogue

variable (C : Catalogue)

/-- The kind in place of a kind in the copy. -/
def mirrored (k : Kind) : Kind := if C.isCompound k then k else k.twin

theorem base_mirrored (k : Kind) : (C.mirrored k).base = k.base := by
  unfold mirrored
  split <;> rfl

variable {C}

/-- By copy, kinds are what their index says. -/
theorem decodedKind_copied {input : Input} (h : input.isInPlace = false) (k : Kind) :
    C.decodedKind input k = k := by
  rw [decodedKind, h]
  rfl

/-- In place, they are what mirrors that. -/
theorem decodedKind_inPlace {input : Input} (h : input.isInPlace = true) {k : Kind}
    (hk : C.Registered k.base) : C.decodedKind input k = C.mirrored k := by
  rw [decodedKind_eq input hk, h, mirrored]
  cases C.isCompound k <;> rfl

end Catalogue

/-! ## Data -/

/-- A datum copied out of a buffer, and the datum decoded from the same place in the buffer. -/
inductive Datum.Mirrored (C : Catalogue) (buffer : Bytes) : Datum → Datum → Prop
  | scalar (s : Scalar) : Mirrored C buffer (.scalar s) (.scalar s)
  | text {bs : Bytes} {start length : Nat} (window : Window buffer bs start length)
      (valid : (Utf8.decode? bs).isSome) :
      Mirrored C buffer (.text (.owned bs)) (.text (.shared buffer start length))
  | bytes {bs : Bytes} {start length : Nat} (window : Window buffer bs start length) :
      Mirrored C buffer (.bytes (.owned bs)) (.bytes (.shared buffer start length))
  | plainText (form : Plain) (text : String) :
      Mirrored C buffer (.plainText form text) (.plainText form text)
  | plainBytes (form : Plain) (bytes : Bytes) :
      Mirrored C buffer (.plainBytes form bytes) (.plainBytes form bytes)
  | unit : Mirrored C buffer .unit .unit
  | boxed {d d' : Datum} (inner : Mirrored C buffer d d') : Mirrored C buffer (.boxed d) (.boxed d')
  | list {l l' : Listing Datum} (pairs : List (Entry Datum × Entry Datum))
      (firsts : l.entries = pairs.map Prod.fst) (seconds : l'.entries = pairs.map Prod.snd)
      (keyKind : C.Registered l.keyKind.base ∧ l'.keyKind = C.mirrored l.keyKind)
      (kind : ∀ z ∈ pairs, C.Registered z.1.kind.base ∧ z.2.kind = C.mirrored z.1.kind)
      (key : ∀ z ∈ pairs, Mirrored C buffer z.1.key z.2.key)
      (value : ∀ z ∈ pairs, Mirrored C buffer z.1.value z.2.value) :
      Mirrored C buffer (.list l) (.list l')
  | table {t t' : Table Datum} (pairs : List (Row Datum × Row Datum))
      (firsts : t.rows = pairs.map Prod.fst) (seconds : t'.rows = pairs.map Prod.snd)
      (keyKind : C.Registered t.keyKind.base ∧ t'.keyKind = C.mirrored t.keyKind)
      (capacity : t'.capacity = t.capacity) (lastAdded : t'.lastAdded = t.lastAdded.map C.mirrored)
      (nextSerial : t'.nextSerial = t.nextSerial)
      (kind : ∀ z ∈ pairs, C.Registered z.1.kind.base ∧ z.2.kind = C.mirrored z.1.kind)
      (place : ∀ z ∈ pairs, z.2.bucket = z.1.bucket ∧ z.2.handle = z.1.handle)
      (key : ∀ z ∈ pairs, Mirrored C buffer z.1.key z.2.key)
      (value : ∀ z ∈ pairs, Mirrored C buffer z.1.value z.2.value) :
      Mirrored C buffer (.table t) (.table t')

/-- Being mirrored as a likeness. -/
def Catalogue.mirroring (C : Catalogue) (buffer : Bytes) : Likeness where
  keeps := C.Registered
  kind := C.mirrored
  base_kind := C.base_mirrored
  form := Datum.Mirrored C buffer

namespace Datum.Mirrored

variable {C : Catalogue} {buffer : Bytes} {d d' : Datum}

/-- Mirrored data are mirrored out of their boxes. -/
theorem peel (h : Mirrored C buffer d d') : Mirrored C buffer d.peel d'.peel := by
  cases h with
  | boxed inner => exact inner
  | scalar s => exact .scalar s
  | text window valid => exact .text window valid
  | bytes window => exact .bytes window
  | plainText form text => exact .plainText form text
  | plainBytes form bytes => exact .plainBytes form bytes
  | unit => exact .unit
  | list pairs firsts seconds keyKind kind key value =>
    exact .list pairs firsts seconds keyKind kind key value
  | table pairs firsts seconds keyKind capacity lastAdded nextSerial kind place key value =>
    exact .table pairs firsts seconds keyKind capacity lastAdded nextSerial kind place key value

/-- A list or a table in a box has the parts that it has out of it. -/
private theorem alike_boxed {k : Kind} {p : Parts} (hp : k.parts? d = some p)
    (hboxed : k.parts? (.boxed d) = some p)
    (hboxed' : ∀ p', k.parts? d' = some p' → k.parts? (.boxed d') = some p')
    (h : Alike (C.mirroring buffer) d d') (form : Mirrored C buffer d d') :
    Alike (C.mirroring buffer) (.boxed d) (.boxed d') := by
  obtain ⟨q, pairs, hq, firsts, seconds, keyKind, alike⟩ := h.parts_of hp
  exact .of_pairs k hboxed (hboxed' q hq) firsts seconds keyKind alike (.boxed form)

/-- Mirrored data are alike. -/
theorem alike (h : Mirrored C buffer d d') : Alike (C.mirroring buffer) d d' := by
  induction h with
  | scalar s => exact .leaf ⟨rfl, rfl⟩ ⟨rfl, rfl⟩ ⟨fun _ => rfl, rfl, rfl⟩ (.scalar s)
  | text window valid =>
    refine .leaf ⟨rfl, rfl⟩ ⟨rfl, rfl⟩ ⟨fun _ => rfl, ?_, rfl⟩ (.text window valid)
    exact congrArg some window.shows.symm
  | bytes window =>
    refine .leaf ⟨rfl, rfl⟩ ⟨rfl, rfl⟩ ⟨fun _ => rfl, rfl, ?_⟩ (.bytes window)
    exact congrArg some window.shows.symm
  | plainText form text =>
    exact .leaf ⟨rfl, rfl⟩ ⟨rfl, rfl⟩ ⟨fun _ => rfl, rfl, rfl⟩ (.plainText form text)
  | plainBytes form bytes =>
    exact .leaf ⟨rfl, rfl⟩ ⟨rfl, rfl⟩ ⟨fun _ => rfl, rfl, rfl⟩ (.plainBytes form bytes)
  | unit => exact .leaf ⟨rfl, rfl⟩ ⟨rfl, rfl⟩ ⟨fun _ => rfl, rfl, rfl⟩ .unit
  | list pairs firsts seconds keyKind kind key value ihkey ihvalue =>
    exact .parts Kind.list rfl rfl pairs firsts seconds keyKind kind ihkey ihvalue
      (.list pairs firsts seconds keyKind kind key value)
  | @table t t' pairs firsts seconds keyKind capacity lastAdded nextSerial kind place key value
      ihkey ihvalue =>
    have entry : ∀ y ∈ pairs.map (Prod.map Row.toEntry Row.toEntry), ∃ z ∈ pairs,
        y = (z.1.toEntry, z.2.toEntry) := by
      intro y hy
      obtain ⟨z, hz, rfl⟩ := List.mem_map.1 hy
      exact ⟨z, hz, rfl⟩
    refine .parts Kind.table rfl rfl (pairs.map (Prod.map Row.toEntry Row.toEntry)) ?_ ?_ keyKind
      ?_ ?_ ?_
      (.table pairs firsts seconds keyKind capacity lastAdded nextSerial kind place key value)
    · show t.rows.map Row.toEntry = _
      rw [firsts, List.map_map, List.map_map]
      rfl
    · show t'.rows.map Row.toEntry = _
      rw [seconds, List.map_map, List.map_map]
      rfl
    · intro y hy
      obtain ⟨z, hz, rfl⟩ := entry y hy
      exact kind z hz
    · intro y hy
      obtain ⟨z, hz, rfl⟩ := entry y hy
      exact ihkey z hz
    · intro y hy
      obtain ⟨z, hz, rfl⟩ := entry y hy
      exact ihvalue z hz
  | boxed inner ih =>
    -- one box is seen through and a second is not, so it matters what lies inside
    cases inner with
    | scalar s => exact .leaf ⟨rfl, rfl⟩ ⟨rfl, rfl⟩ ⟨fun _ => rfl, rfl, rfl⟩ (.boxed (.scalar s))
    | text window valid =>
      exact .leaf ⟨rfl, rfl⟩ ⟨rfl, rfl⟩ ⟨fun _ => rfl, ih.views.text, rfl⟩ (.boxed (.text window valid))
    | bytes window =>
      exact .leaf ⟨rfl, rfl⟩ ⟨rfl, rfl⟩ ⟨fun _ => rfl, rfl, ih.views.bytes⟩ (.boxed (.bytes window))
    | plainText form text =>
      exact .leaf ⟨rfl, rfl⟩ ⟨rfl, rfl⟩ ⟨fun _ => rfl, rfl, rfl⟩ (.boxed (.plainText form text))
    | plainBytes form bytes =>
      exact .leaf ⟨rfl, rfl⟩ ⟨rfl, rfl⟩ ⟨fun _ => rfl, rfl, rfl⟩ (.boxed (.plainBytes form bytes))
    | unit => exact .leaf ⟨rfl, rfl⟩ ⟨rfl, rfl⟩ ⟨fun _ => rfl, rfl, rfl⟩ (.boxed .unit)
    | boxed inner =>
      exact .leaf ⟨rfl, rfl⟩ ⟨rfl, rfl⟩ ⟨fun _ => rfl, rfl, rfl⟩ (.boxed (.boxed inner))
    | list pairs firsts seconds keyKind kind key value =>
      exact alike_boxed (k := Kind.list) rfl rfl (fun _ h => h) ih
        (.list pairs firsts seconds keyKind kind key value)
    | table pairs firsts seconds keyKind capacity lastAdded nextSerial kind place key value =>
      exact alike_boxed (k := Kind.table) rfl rfl (fun _ h => h) ih
        (.table pairs firsts seconds keyKind capacity lastAdded nextSerial kind place key value)

end Datum.Mirrored

/-! ## Tables -/

/-- Entries with mirrored keys and values. -/
structure Entry.Mirrored (C : Catalogue) (buffer : Bytes) (e e' : Entry Datum) : Prop where
  registered : C.Registered e.kind.base
  kind : e'.kind = C.mirrored e.kind
  key : Datum.Mirrored C buffer e.key e'.key
  value : Datum.Mirrored C buffer e.value e'.value

/-- Two tables whose rows mirror one another in their places. -/
abbrev Table.Mirrored (C : Catalogue) (buffer : Bytes) (t t' : Table Datum) : Prop :=
  Datum.Mirrored C buffer (.table t) (.table t')

namespace Table.Mirrored

variable {C : Catalogue} {buffer : Bytes} {t t' : Table Datum}

theorem keyKind (h : t.Mirrored C buffer t') :
    C.Registered t.keyKind.base ∧ t'.keyKind = C.mirrored t.keyKind := by
  cases h with
  | table pairs firsts seconds keyKind => exact keyKind

theorem base_eq (h : t.Mirrored C buffer t') : t.keyKind.base = t'.keyKind.base := by
  rw [h.keyKind.2, C.base_mirrored]

theorem capacity (h : t.Mirrored C buffer t') : t'.capacity = t.capacity := by
  cases h with
  | table pairs firsts seconds keyKind capacity => exact capacity

/-- Mirrored keys are filed under one bucket. -/
theorem bucketOf_eq (hC : C.Respects (C.mirroring buffer)) (h : t.Mirrored C buffer t')
    {key key' : Datum} (hkey : Datum.Mirrored C buffer key key') :
    t.bucketOf C key = t'.bucketOf C key' := by
  have alike := hkey.peel.alike
  rw [bucketOf, bucketOf, alike.accepts_eq hC h.base_eq h.keyKind.1,
    alike.digest_eq hC h.base_eq h.keyKind.1, h.capacity]

/-- Mirrored keys go to one place among mirrored rows. -/
theorem placeFor_eq (hC : C.Respects (C.mirroring buffer)) (h : t.Mirrored C buffer t')
    {key key' : Datum} (hkey : Datum.Mirrored C buffer key key')
    {pairs : List (Row Datum × Row Datum)}
    (hpairs : ∀ z ∈ pairs, Datum.Mirrored C buffer z.1.key z.2.key) :
    t.placeFor C key (pairs.map Prod.fst) = t'.placeFor C key' (pairs.map Prod.snd) := by
  have compare : ∀ z ∈ pairs, t'.keyKind.order C z.2.key key' = t.keyKind.order C z.1.key key := by
    intro z hz
    rw [Kind.order_congr h.base_eq.symm, ← (hpairs z hz).alike.order_left hC h.keyKind.1,
      hkey.alike.order_right hC h.keyKind.1]
  have left : partitionPoint (fun r => t.keyKind.order C r.key key != .gt) (pairs.map Prod.fst) =
      partitionPoint (fun z => t.keyKind.order C z.1.key key != .gt) pairs :=
    partitionPoint_map_congr fun _ _ => rfl
  have right : partitionPoint (fun r => t'.keyKind.order C r.key key' != .gt) (pairs.map Prod.snd) =
      partitionPoint (fun z => t.keyKind.order C z.1.key key != .gt) pairs :=
    partitionPoint_map_congr fun z hz => by rw [compare z hz]
  exact left.trans right.symm

/-- The same buckets are picked from both. -/
private theorem filter_snd {pairs : List (Row Datum × Row Datum)}
    (place : ∀ z ∈ pairs, z.2.bucket = z.1.bucket ∧ z.2.handle = z.1.handle) (p : Nat → Bool) :
    (pairs.map Prod.snd).filter (fun r => p r.bucket) =
      (pairs.filter fun z => p z.1.bucket).map Prod.snd := by
  rw [List.filter_map]
  refine congrArg (List.map Prod.snd) (List.filter_congr fun z hz => ?_)
  exact congrArg p (place z hz).1

/-- Mirrored entries put in mirrored tables leave these mirrored. -/
theorem insert (hC : C.Respects (C.mirroring buffer)) (h : t.Mirrored C buffer t')
    {e e' : Entry Datum} (he : e.Mirrored C buffer e') :
    (t.insert C e).Mirrored C buffer (t'.insert C e') := by
  have hbucket := h.bucketOf_eq hC he.key
  -- taken from `h` before its rows are
  have same := @placeFor_eq C buffer t t' hC h _ _ he.key
  cases h with
  | table pairs firsts seconds keyKind capacity lastAdded nextSerial kind place key value =>
    -- the pairs stand in the same order as the rows
    obtain ⟨bucket, hb⟩ : ∃ bucket, t.bucketOf C e.key = bucket := ⟨_, rfl⟩
    obtain ⟨within, hwithin⟩ : ∃ within, pairs.filter (·.1.bucket = bucket) = within := ⟨_, rfl⟩
    have hsub : ∀ z ∈ within, z ∈ pairs := fun z hz => (List.mem_filter.1 (hwithin ▸ hz)).1
    have hleft : t.bucketRows bucket = within.map Prod.fst := by
      rw [bucketRows, firsts, List.filter_map, ← hwithin]
      rfl
    have hright : t'.bucketRows bucket = within.map Prod.snd := by
      rw [bucketRows, seconds, filter_snd place fun b => b = bucket, hwithin]
    have hplace : t.placeFor C e.key (t.bucketRows bucket) =
        t'.placeFor C e'.key (t'.bucketRows bucket) := by
      rw [hleft, hright]
      exact same fun z hz => key z (hsub z hz)
    obtain ⟨n, hn⟩ : ∃ n, t.placeFor C e.key (t.bucketRows bucket) = n := ⟨_, rfl⟩
    obtain ⟨new, hnew⟩ : ∃ new : Row Datum × Row Datum,
        (⟨e, bucket, t.nextHandle⟩, ⟨e', bucket, t'.nextHandle⟩) = new := ⟨_, rfl⟩
    -- so what is asked of each pair has to be shown of the new one only
    have old : ∀ z ∈ pairs.filter (·.1.bucket < bucket) ++ within.take n ++ new :: within.drop n ++
        pairs.filter (bucket < ·.1.bucket), z = new ∨ z ∈ pairs := by
      intro z hz
      simp only [List.mem_append, List.mem_cons] at hz
      rcases hz with ((hz | hz) | (hz | hz)) | hz
      · exact .inr (List.mem_filter.1 hz).1
      · exact .inr (hsub z (List.mem_of_mem_take hz))
      · exact .inl hz
      · exact .inr (hsub z (List.mem_of_mem_drop hz))
      · exact .inr (List.mem_filter.1 hz).1
    refine .table (pairs.filter (·.1.bucket < bucket) ++ within.take n ++ new :: within.drop n ++
      pairs.filter (bucket < ·.1.bucket)) ?_ ?_ keyKind capacity (congrArg some he.kind)
      (congrArg (· + 1) nextSerial) (fun z hz => ?_) (fun z hz => ?_) (fun z hz => ?_) fun z hz => ?_
    · simp only [Table.insert, hb, hn, firsts, List.map_append, List.map_cons, List.map_take,
        List.map_drop, ← hleft, ← hnew, List.filter_map]
      rfl
    · simp only [Table.insert, ← hbucket, hb, ← hplace, hn, seconds, List.map_append, List.map_cons,
        List.map_take, List.map_drop, ← hright, ← hnew]
      rw [filter_snd place fun b => b < bucket, filter_snd place fun b => bucket < b]
    · rcases old z hz with rfl | hz
      · rw [← hnew]
        exact ⟨he.registered, he.kind⟩
      · exact kind z hz
    · rcases old z hz with rfl | hz
      · rw [← hnew]
        exact ⟨rfl, congrArg Handle.mk nextSerial⟩
      · exact place z hz
    · rcases old z hz with rfl | hz
      · rw [← hnew]
        exact he.key
      · exact key z hz
    · rcases old z hz with rfl | hz
      · rw [← hnew]
        exact he.value
      · exact value z hz

/-- Mirrored keys are accepted alike, and so are mirrored values. -/
theorem accepts_eq (hC : C.Respects (C.mirroring buffer)) {K K' : Kind} (hK : C.Registered K.base)
    (hbase : K.base = K'.base) {e e' : Entry Datum} (he : e.Mirrored C buffer e') :
    K.accepts C e.key = K'.accepts C e'.key ∧ e.kind.accepts C e.value = e'.kind.accepts C e'.value :=
  ⟨he.key.alike.accepts_eq hC hbase hK,
    he.value.alike.accepts_eq hC ((C.mirroring buffer).base_eq he.kind) he.registered⟩

/-- An entry is taken by both tables or by neither, and leaves them mirrored. -/
theorem add (hC : C.Respects (C.mirroring buffer)) (h : t.Mirrored C buffer t')
    {e e' : Entry Datum} (he : e.Mirrored C buffer e') :
    ((t.add C e).toOption.getD t).Mirrored C buffer ((t'.add C e').toOption.getD t') := by
  obtain ⟨hkey, hvalue⟩ := accepts_eq hC h.keyKind.1 h.base_eq he
  rw [Table.add, Table.add, ← hkey, ← hvalue]
  split
  · exact h
  · split
    · exact h
    · exact h.insert hC he

/-- Entries put in one by one leave mirrored tables mirrored. -/
theorem addAll (hC : C.Respects (C.mirroring buffer)) (h : t.Mirrored C buffer t')
    {pairs : List (Entry Datum × Entry Datum)} (hpairs : ∀ z ∈ pairs, z.1.Mirrored C buffer z.2) :
    (t.addAll C (pairs.map Prod.fst)).Mirrored C buffer (t'.addAll C (pairs.map Prod.snd)) := by
  induction pairs generalizing t t' with
  | nil => exact h
  | cons z pairs ih =>
    exact ih (h.add hC (hpairs z List.mem_cons_self)) fun y hy => hpairs y (List.mem_cons_of_mem _ hy)

theorem empty {keyKind : Kind} (hk : C.Registered keyKind.base) (wanted : Nat) :
    (Table.empty keyKind wanted).Mirrored C buffer (Table.empty (C.mirrored keyKind) wanted) :=
  .table [] rfl rfl ⟨hk, rfl⟩ rfl rfl rfl (fun _ h => absurd h List.not_mem_nil)
    (fun _ h => absurd h List.not_mem_nil) (fun _ h => absurd h List.not_mem_nil)
    fun _ h => absurd h List.not_mem_nil

end Table.Mirrored

end OrderedTable
