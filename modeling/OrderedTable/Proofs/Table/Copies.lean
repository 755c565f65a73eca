import OrderedTable.Proofs.Datum.Whole
import OrderedTable.Proofs.Table.Refiling

/-!
# Copies

Copying a whole value loses nothing, provided that the tables in it had their keys read under one base since they
were made: the copy is the same but for its storage, and whole again (`Kind.Whole.exists_copy`). So a table and its
copy compare as equal, and they have one binary form and one text (`Table.copy_exact`).

For a copy is filled in the order of the original, and there every row goes behind those that came before
(`Table.Filed.refilled`). That needs the rows of the original to be where they belong. In a table whose keys were
read under another base for a while they may not be, and then its copy has them in another order
(`Table.copy_reorders`).
-/

namespace OrderedTable

variable {C : Catalogue} {k : Kind} {d d' : Datum}

/-! ## A table filled again -/

namespace Table

variable {t : Table Datum}

/-- Where rows stand in the buckets of their keys, these tell the buckets. -/
theorem buckets_eq (hplaced : ∀ r ∈ t.rows, r.bucket = t.bucketOf C r.key) :
    t.rows.map Row.bucket = t.entries.map fun e => t.bucketOf C e.key := by
  rw [entries, List.map_map]
  exact List.map_congr_left hplaced

/-- A table whose rows are where they belong, filled again with entries that are alike: it is the same but for its
storage. -/
theorem Filed.refilled (h : t.Filed C) (hs : t.Shaped) (hk : Builtin t.keyKind.base) {wanted : Nat}
    (hcapacity : (Table.empty t.keyKind wanted : Table Datum).capacity = t.capacity)
    {pairs : List (Entry Datum × Entry Datum)} (hfirsts : t.entries = pairs.map Prod.fst)
    (halike : ∀ z ∈ pairs, Entry.Alike .exact z.1 z.2)
    (haccepted : ∀ e ∈ t.entries, e.kind.accepts C e.value = true) :
    ((Table.empty t.keyKind wanted).addAll C (pairs.map Prod.snd)).entries = pairs.map Prod.snd ∧
      Datum.Alike .exact (.table t) (.table ((Table.empty t.keyKind wanted).addAll C (pairs.map Prod.snd))) := by
  have hC := C.respects_exact
  have hentries := h.addAll_alike hs C.lawful_builtin hC hk rfl hcapacity hfirsts halike haccepted
  have hplaced := addAll_placed (C := C) (.empty t.keyKind wanted) nofun (pairs.map Prod.snd)
  obtain ⟨hkeyKind, hbuckets⟩ := addAll_fields (C := C) (.empty t.keyKind wanted) (pairs.map Prod.snd)
  have hbuckets := hbuckets.trans hcapacity
  generalize (Table.empty t.keyKind wanted).addAll C (pairs.map Prod.snd) = u at *
  -- buckets follow from keys, and alike keys have one digest
  have hlayout : t.SameLayout u := by
    refine ⟨hbuckets, ?_⟩
    rw [buckets_eq hplaced, buckets_eq h.placed, hentries, hfirsts, List.map_map, List.map_map]
    refine List.map_congr_left fun z hz => ?_
    have hz' : z.1 ∈ t.entries := hfirsts ▸ List.mem_map_of_mem hz
    obtain ⟨r, hr, hrow⟩ := List.mem_map.1 hz'
    have haccepts : t.keyKind.accepts C z.1.key = true := hrow ▸ h.accepted r hr
    have haccepts' : t.keyKind.accepts C z.2.key = true :=
      ((halike z hz).key.accepts_eq hC rfl hk).symm.trans haccepts
    show u.bucketOf C z.2.key = t.bucketOf C z.1.key
    rw [bucketOf_congr (u := t) (congrArg Kind.base hkeyKind) hbuckets, bucketOf_accepted C.lawful_builtin hk haccepts,
      bucketOf_accepted C.lawful_builtin hk haccepts', (halike z hz).key.digest_eq hC rfl hk]
  refine ⟨hentries, .of_pairs Kind.table rfl rfl hfirsts hentries ⟨hk, hkeyKind⟩ halike ?_⟩
  rintro _ _ ⟨⟩ ⟨⟩
  exact hlayout

end Table

/-! ## Copies -/

/-- A copy of a value: the same but for its storage, and whole. -/
structure Kind.Copies (C : Catalogue) (k : Kind) (d d' : Datum) : Prop where
  copy : k.copy C d = some d'
  alike : Datum.Alike .exact d d'
  whole : k.Whole C (Table.Steady C) d'

/-- A copy of an entry, its key copied under the kind `K`. -/
structure Entry.Copies (C : Catalogue) (K : Kind) (e e' : Entry Datum) : Prop where
  key : K.Copies C e.key e'.key
  value : e.kind.Copies C e.value e'.value
  kind : e'.kind = e.kind

namespace Entry.Copies

variable {K : Kind} {e e' : Entry Datum}

/-- An entry and its copy are the same but for their storage. -/
theorem alike (h : e.Copies C K e') : Entry.Alike .exact e e' :=
  ⟨h.value.whole.within.1, h.kind, h.key.alike, h.value.alike⟩

/-- The copy is whole, as the entry was. -/
theorem whole (h : e.Copies C K e') :
    K.Whole C (Table.Steady C) e'.key ∧ e'.kind.Whole C (Table.Steady C) e'.value :=
  ⟨h.key.whole, h.kind ▸ h.value.whole⟩

/-- It is what copying the entry comes to. -/
theorem copied (h : e.Copies C K e') : e.copied C K = .ok e' := by
  rw [Entry.copied, h.key.copy, h.value.copy, ← h.kind]

/-- Entries that can be copied are all copied. -/
theorem forall₂ {es : List (Entry Datum)} (h : ∀ e ∈ es, ∃ e', e.Copies C K e') :
    List.Forall₂ (Entry.Copies C K) es ((es.map (Entry.map (K.copy C) (Kind.copy C))).filterMap Entry.whole?) := by
  rw [List.filterMap_map]
  refine forall₂_filterMap fun e he => ?_
  obtain ⟨e', hcopy⟩ := h e he
  refine ⟨e', ?_, hcopy⟩
  rw [Function.comp_apply, Entry.map, Entry.whole?, hcopy.key.copy, hcopy.value.copy, ← hcopy.kind]

end Entry.Copies

namespace Kind

/-- A leaf of a built-in kind that accepts it is copied to one that is seen in the same way. -/
theorem exists_copyLeaf (hk : Builtin k.base) (hflat : k.base.Flat) (h : k.accepts C d = true) :
    ∃ d', k.copyLeaf C d = some d' ∧ d'.IsLeaf ∧ d.SameViews d' := by
  -- what the kind accepts is seen as one thing, and the copy is seen as that
  rw [accepts] at h
  cases hb : k.base with
  | scalar s =>
    simp only [hb] at h
    obtain ⟨x, hx⟩ := Option.isSome_iff_exists.1 h
    have hpeel : d.peel = (Datum.scalar x).peel := (Datum.only_scalar hx).1
    exact ⟨.scalar x, by simp only [copyLeaf, hb, hx, Option.map_some], ⟨rfl, rfl⟩, .of_peel hpeel⟩
  | text caseBlind =>
    simp only [hb] at h
    obtain ⟨bs, hbs⟩ := Option.isSome_iff_exists.1 h
    obtain ⟨hscalar, hbytes, -⟩ := Datum.only_text hbs
    simp only [copyLeaf, hb, hbs]
    split
    · next s _ hpeel =>
      have hpeel : d.peel = (Datum.text s).peel := hpeel
      exact ⟨.text s, rfl, ⟨rfl, rfl⟩, .of_peel hpeel⟩
    · exact ⟨.text (.owned bs), rfl, ⟨rfl, rfl⟩, hscalar, hbs, hbytes⟩
  | bytes =>
    simp only [hb] at h
    obtain ⟨bs, hbs⟩ := Option.isSome_iff_exists.1 h
    obtain ⟨hscalar, htext, -⟩ := Datum.only_bytes hbs
    simp only [copyLeaf, hb, hbs]
    split
    · next s _ hpeel =>
      have hpeel : d.peel = (Datum.bytes s).peel := hpeel
      exact ⟨.bytes s, rfl, ⟨rfl, rfl⟩, .of_peel hpeel⟩
    · exact ⟨.bytes (.owned bs), rfl, ⟨rfl, rfl⟩, hscalar, htext, hbs⟩
  | list => exact absurd hb hflat.1
  | table => exact absurd hb hflat.2
  | extension id => exact absurd (hb ▸ hk) (not_builtin_extension id)

/-- A leaf is copied. -/
theorem copies_leaf (hk : Builtin k.base) (hflat : k.base.Flat) (h : k.accepts C d = true) :
    ∃ d', k.Copies C d d' := by
  obtain ⟨d', hcopy, hleaf, hviews⟩ := exists_copyLeaf hk hflat h
  have halike : Datum.Alike .exact d d' := by
    refine .leaf (isLeaf_of_accepts hk hflat.1 hflat.2 h) hleaf hviews fun t u _ hu => ?_
    cases hleaf.2.symm.trans hu
  refine ⟨d', ?_, halike, .leaf hk hflat ?_⟩
  · rw [copy, read_leaf (parts?_eq_none_of_base hflat.1 hflat.2 d)]
    exact hcopy
  · rw [← halike.accepts_eq C.respects_exact rfl hk, h]

/-- A list whose entries are copied is copied. -/
theorem copies_list {l : Listing Datum} (hk : k.base = .list) (hd : d.list? = some l)
    (keyKind : Builtin l.keyKind.base) (h : ∀ e ∈ l.entries, ∃ e', e.Copies C l.keyKind e') :
    ∃ d', k.Copies C d d' := by
  have hcopies := Entry.Copies.forall₂ h
  obtain ⟨es, hes⟩ : ∃ es, (l.entries.map (Entry.map (l.keyKind.copy C) (Kind.copy C))).filterMap
    Entry.whole? = es := ⟨_, rfl⟩
  rw [hes] at hcopies
  have hcopy : k.copy C d = some (.list ⟨l.keyKind, es⟩) := by
    rw [copy, read_list (copying C) hk hd, ← hes]
    rfl
  have halike : Datum.Alike .exact d (.list ⟨l.keyKind, es⟩) := by
    refine .of_entries k (parts?_of_list hk hd) (parts?_of_list hk rfl) ⟨keyKind, rfl⟩
      (hcopies.imp fun _ _ hcopy => hcopy.alike) ?_
    rintro _ _ _ ⟨⟩
  have hwhole : ∀ e' ∈ es, l.keyKind.Whole C (Table.Steady C) e'.key ∧
      e'.kind.Whole C (Table.Steady C) e'.value := by
    intro e' he'
    obtain ⟨e, -, hcopy⟩ := exists_of_forall₂ hcopies he'
    exact hcopy.whole
  exact ⟨_, hcopy, halike, .of_list hk rfl keyKind (fun e' he' => (hwhole e' he').1)
    fun e' he' => (hwhole e' he').2⟩

end Kind

/-- The copy of a table is filled with the copies of its entries. -/
theorem Table.copy_eq_addAll (t : Table Datum) : t.copy C = (Table.empty t.keyKind t.capacity).addAll C
    ((t.entries.map (Entry.map (t.keyKind.copy C) (Kind.copy C))).filterMap Entry.whole?) := by
  rw [← Kind.entries_map]
  rfl

/-- A steady table whose entries are copied has a copy that is the same but for its storage, and whole. -/
theorem Table.Steady.copy_alike {t : Table Datum} (h : t.Steady C) (keyKind : Builtin t.keyKind.base)
    (hkey : ∀ e ∈ t.entries, t.keyKind.Whole C (Table.Steady C) e.key)
    (hvalue : ∀ e ∈ t.entries, e.kind.Whole C (Table.Steady C) e.value)
    (hcopies : ∀ e ∈ t.entries, ∃ e', e.Copies C t.keyKind e') :
    Datum.Alike .exact (.table t) (.table (t.copy C)) ∧
      Kind.table.Whole C (Table.Steady C) (.table (t.copy C)) := by
  obtain ⟨pairs, hfirsts, hseconds, hpairs⟩ := exists_pairs_of_forall₂ (Entry.Copies.forall₂ hcopies)
  rw [t.copy_eq_addAll, hseconds]
  have hfiled := h.filed C.ranks_builtin fun e he => (hkey e he).within
  obtain ⟨-, halike⟩ := hfiled.refilled h.shaped keyKind (Nat.max_eq_left h.minCapacity_le) hfirsts
    (fun z hz => (hpairs z hz).alike) fun e he => (hvalue e he).accepted
  refine ⟨halike, .addAll keyKind (fun e' he' => ?_) t.capacity⟩
  obtain ⟨z, hz, rfl⟩ := List.mem_map.1 he'
  exact (hpairs z hz).whole

/-- Every whole value is copied. -/
theorem Kind.Whole.exists_copy (h : k.Whole C (Table.Steady C) d) : ∃ d', k.Copies C d d' := by
  -- along the value; tables are refilled with the copies of their entries
  induction h with
  | leaf builtin flat accepted => exact copies_leaf builtin flat accepted
  | @parts k d p parts keyKind tables key value ihkey ihvalue =>
    have hcopies : ∀ e ∈ p.entries, ∃ e', e.Copies C p.keyKind e' := by
      intro e he
      obtain ⟨key', hkey⟩ := ihkey e he
      obtain ⟨value', hvalue⟩ := ihvalue e he
      exact ⟨⟨key', value', e.kind⟩, hkey, hvalue, rfl⟩
    rcases parts?_eq_some parts with ⟨hk, l, hl, rfl⟩ | ⟨hk, t, ht, rfl⟩
    · exact copies_list hk hl keyKind hcopies
    · obtain ⟨halike, hwhole⟩ := (tables t ht).copy_alike keyKind key value hcopies
      have hcopy : k.copy C d = some (.table (t.copy C)) := read_table (copying C) hk ht
      -- the value may be a table in a box, so the parts are seen through it
      refine ⟨_, hcopy, ?_, ?_⟩
      · obtain ⟨p', pairs, hp', hfirsts, hseconds, hkeys, hpairs⟩ :=
          halike.parts_of (k := .table) (parts?_of_table rfl rfl)
        refine .of_pairs k parts ((parts?_congr hk _).trans hp') hfirsts hseconds hkeys hpairs
          fun u v hu hv => ?_
        cases ht.symm.trans hu
        exact halike.form t v rfl hv
      · obtain ⟨fit, keyKind, key, value⟩ := hwhole.table_inv rfl rfl
        exact .of_table hk rfl fit keyKind key value

/-! ## Tables -/

/-- The copy of a table of built-in kinds throughout, with keys and values that their kinds accept and tables in it
whose keys were read under one base: it has the kind of keys, the capacity and the sequence of entries of the table,
and so at every level, but for boxes and the form of text and bytes. The two compare as equal and have one binary
form and one text. -/
theorem Table.copy_exact {t : Table Datum} (h : Kind.table.Whole C (Table.Steady C) (.table t)) :
    (t.copy C).keyKind = t.keyKind ∧ (t.copy C).capacity = t.capacity ∧
      Datum.Alike .exact (.table t) (.table (t.copy C)) ∧
      t.order C (t.copy C) = .eq ∧ (t.copy C).order C t = .eq ∧
      (t.copy C).encode C = t.encode C ∧ (t.copy C).format C = t.format C := by
  obtain ⟨d, hcopy, halike, -⟩ := h.exists_copy
  obtain rfl : .table (t.copy C) = d := Option.some.inj ((Kind.read_table (copying C) rfl rfl).symm.trans hcopy)
  have hbuiltin : Builtin Kind.table.base := by decide
  have hself := Kind.order_self C.lawful_builtin.toOrders h.within
  refine ⟨?_, (halike.form _ _ rfl rfl).capacity, halike, ?_, ?_, ?_, ?_⟩
  · rw [t.copy_eq_addAll]
    exact (addAll_fields _ _).1
  · rw [← Kind.order_table]
    exact (halike.order_right C.respects_exact hbuiltin _).symm.trans hself
  · rw [← Kind.order_table]
    exact (halike.order_left C.respects_exact hbuiltin _).symm.trans hself
  · rw [← Kind.encode_table, ← halike.encode_eq not_builtin_extension rfl hbuiltin, Kind.encode_table]
  · rw [← Kind.format_table, ← halike.format_eq hbuiltin, Kind.format_table]

/-- A table with two rows under equal keys, which are lists: one has a table for its value, and the other a text in
a box that copies may share. -/
theorem Table.copy_exact_listed :
    let C := Catalogue.specimens
    let number (n : Nat) : Datum := .scalar (.int .i32 n)
    let key (name : String) : Datum := .list ⟨.text, [⟨.ofText name, number 1, .i32⟩]⟩
    let inner := (Table.empty .i32 0).addAll C [⟨number 7, number 2, .i32⟩, ⟨number 5, number 3, .i32⟩]
    let t := (Table.empty .list 100).addAll C
      [⟨key "a", .table inner, .table⟩, ⟨key "b", .boxed (.text (.shared [104, 105] 0 1)), Kind.text.twin⟩]
    Kind.table.Whole C (Table.Steady C) (.table t) ∧ t.size = 2 ∧ (t.copy C).capacity = 100 ∧
      t.order C (t.copy C) = .eq ∧ (t.copy C).encode C = t.encode C ∧ (t.copy C).format C = t.format C := by
  intro C number key inner t
  have hnumber : ∀ n, Kind.i32.Whole C (Table.Steady C) (number n) :=
    fun n => .scalar rfl (by decide) rfl
  have hkey : ∀ name, Kind.list.Whole C (Table.Steady C) (key name) := by
    intro name
    have htext : Builtin Kind.text.base ∧ Kind.text.base.Flat := by decide
    refine .of_list rfl rfl htext.1 (fun e he => ?_) fun e he => ?_
    · obtain rfl := List.mem_singleton.1 he
      exact .leaf htext.1 htext.2 rfl
    · obtain rfl := List.mem_singleton.1 he
      exact hnumber 1
  have hinner : Kind.table.Whole C (Table.Steady C) (.table inner) := by
    refine .addAll (by decide) (fun e he => ?_) 0
    simp only [List.mem_cons, List.not_mem_nil, or_false] at he
    rcases he with rfl | rfl
    · exact ⟨hnumber 7, hnumber 2⟩
    · exact ⟨hnumber 5, hnumber 3⟩
  have ht : Kind.table.Whole C (Table.Steady C) (.table t) := by
    refine .addAll (by decide) (fun e he => ?_) 100
    simp only [List.mem_cons, List.not_mem_nil, or_false] at he
    rcases he with rfl | rfl
    · exact ⟨hkey "a", hinner⟩
    · exact ⟨hkey "b", .leaf (by decide) (by decide) rfl⟩
  obtain ⟨-, hcapacity, -, horder, -, hencode, hformat⟩ := Table.copy_exact ht
  exact ⟨ht, by decide +kernel, hcapacity, horder, hencode, hformat⟩

/-! ## Keys that were read under another kind -/

/-- In the copy of such a table, the copy of the one that it holds has two values in another order. -/
theorem Table.copy_reorders :
    holder.Steady .specimens ∧
      Kind.table.Whole .specimens (Table.Reachable .specimens) (.table holder) ∧
      holder.order .specimens (holder.copy .specimens) ≠ .eq :=
  ⟨steady_holder, whole_holder reachable_misfiled steady_holder.reachable, by decide +kernel⟩

end OrderedTable
