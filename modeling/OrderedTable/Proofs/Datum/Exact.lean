import OrderedTable.Proofs.Datum.Rebuilding
import OrderedTable.Proofs.Wire.Written

/-!
# Data that are the same but for their storage

Two data are alike *exactly* (`Likeness.exact`) if all kinds in them are built in and the same, twins apart, and
the tables in them have as many buckets and their rows in the same ones. What may differ are boxes, and how text
and bytes are stored. This carries over from one to the next (`Datum.Alike.trans`), and the text of a value, which
shows buckets, does not tell such data apart (`Datum.Alike.format_eq`).
-/

namespace OrderedTable

/-- Two tables with as many buckets, and with their rows in the same ones. -/
structure Table.SameLayout {δ ε : Type} (t : Table δ) (u : Table ε) : Prop where
  capacity : u.capacity = t.capacity
  buckets : u.rows.map Row.bucket = t.rows.map Row.bucket

/-- What has the same kinds, all of them built in, and the same layout. -/
def Likeness.exact : Likeness where
  keeps := Builtin
  kind k := k
  base_kind _ := rfl
  form d d' := ∀ t u, d.table? = some t → d'.table? = some u → t.SameLayout u

/-- Extensions have no say in it, since no extension is built in. -/
theorem Catalogue.respects_exact (C : Catalogue) : C.Respects .exact :=
  fun id hid => absurd hid (not_builtin_extension id)

/-! ## From one to the next -/

namespace Datum

/-- Having the same views carries over from one to the next. -/
theorem SameViews.trans {a b c : Datum} (h : a.SameViews b) (h' : b.SameViews c) : a.SameViews c :=
  ⟨fun s => (h.scalar s).trans (h'.scalar s), h.text.trans h'.text, h.bytes.trans h'.bytes⟩

namespace Alike

variable {a b c : Datum}

/-- Lists of alike entries are composed entry by entry. -/
private theorem exists_entries {xs ys : List (Entry Datum × Entry Datum)}
    (hmiddle : xs.map Prod.snd = ys.map Prod.fst) (hxs : ∀ x ∈ xs, Entry.Alike .exact x.1 x.2)
    (hkey : ∀ x ∈ xs, ∀ c, Alike .exact x.2.key c → Alike .exact x.1.key c)
    (hvalue : ∀ x ∈ xs, ∀ c, Alike .exact x.2.value c → Alike .exact x.1.value c)
    (hys : ∀ y ∈ ys, Entry.Alike .exact y.1 y.2) :
    ∃ zs : List (Entry Datum × Entry Datum), zs.map Prod.fst = xs.map Prod.fst ∧
      zs.map Prod.snd = ys.map Prod.snd ∧ ∀ z ∈ zs, Entry.Alike .exact z.1 z.2 := by
  have hleft : List.Forall₂ (fun e f => (e, f) ∈ xs) (xs.map Prod.fst) (xs.map Prod.snd) :=
    forall₂_of_pairs fun _ hx => hx
  have hright : List.Forall₂ (Entry.Alike .exact) (ys.map Prod.fst) (ys.map Prod.snd) := forall₂_of_pairs hys
  rw [← hmiddle] at hright
  obtain ⟨zs, hfirsts, hseconds, hzs⟩ := exists_pairs_of_forall₂ (forall₂_comp
    (fun e f g hef hfg => (⟨(hxs _ hef).keeps, hfg.kind.trans (hxs _ hef).kind, hkey _ hef _ hfg.key,
      hvalue _ hef _ hfg.value⟩ : Entry.Alike .exact e g)) hleft hright)
  exact ⟨zs, hfirsts.symm, hseconds.symm, hzs⟩

/-- What is asked of tables is asked of the first and the last. -/
private theorem form_trans (h : Likeness.exact.form a b) (hab : a.table?.isSome = b.table?.isSome)
    (h' : Likeness.exact.form b c) : Likeness.exact.form a c := by
  intro t v ht hv
  rw [ht] at hab
  obtain ⟨u, hu⟩ := Option.isSome_iff_exists.1 hab.symm
  have htu : t.SameLayout u := h t u ht hu
  have huv : u.SameLayout v := h' u v hu hv
  exact ⟨huv.capacity.trans htu.capacity, huv.buckets.trans htu.buckets⟩

/-- What is alike to something alike is alike. -/
theorem trans (h : Alike .exact a b) (h' : Alike .exact b c) : Alike .exact a c := by
  have table := h.table?_isSome
  induction h generalizing c with
  | leaf left right views form =>
    cases h' with
    | leaf _ right' views' form' => exact .leaf left right' (views.trans views') (form_trans form table form')
    | parts k left' => cases (right.parts? k).symm.trans left'
  | @parts a b k p p' left right pairs firsts seconds keyKind kind key value form ihkey ihvalue =>
    obtain ⟨p'', pairs', hp'', hfirsts, hseconds, hkeys, hpairs⟩ := h'.parts_of right
    obtain ⟨zs, hzs, hzs', halike⟩ := exists_entries (seconds.symm.trans hfirsts)
      (fun z hz => ⟨(kind z hz).1, (kind z hz).2, key z hz, value z hz⟩)
      (fun z hz c hc => ihkey z hz hc (key z hz).table?_isSome)
      (fun z hz c hc => ihvalue z hz hc (value z hz).table?_isSome) hpairs
    exact .of_pairs k left hp'' (firsts.trans hzs.symm) (hseconds.trans hzs'.symm)
      ⟨keyKind.1, hkeys.2.trans keyKind.2⟩ halike (form_trans form table h'.form)

end Alike

end Datum

/-- So it is with entries. -/
theorem Entry.Alike.trans {e f g : Entry Datum} (h : Entry.Alike .exact e f) (h' : Entry.Alike .exact f g) :
    Entry.Alike .exact e g :=
  ⟨h.keeps, h'.kind.trans h.kind, h.key.trans h'.key, h.value.trans h'.value⟩

/-! ## The text of a value -/

/-- Tables with the same layout, and with the same entries under one kind of keys, are the same up to names. -/
theorem Table.SameLayout.nameless_eq {δ : Type} {t u : Table δ} (h : t.SameLayout u)
    (hkeyKind : u.keyKind = t.keyKind) (hentries : u.entries = t.entries) : u.nameless = t.nameless := by
  have hrows : ∀ v : Table δ, v.nameless.rows =
      (v.entries.zip (v.rows.map Row.bucket)).map fun z => ⟨z.1, z.2, ⟨0⟩⟩ := by
    intro v
    rw [entries, List.zip_map', List.map_map]
    rfl
  have hsame : u.nameless.rows = t.nameless.rows := by rw [hrows, hrows, hentries, h.buckets]
  simp only [nameless, h.capacity, hkeyKind] at hsame ⊢
  rw [hsame]

/-- So tables with the same texts in the same buckets have one text. -/
theorem Table.render_congr {t u : Table String} (h : t.SameLayout u) (hkeyKind : u.keyKind = t.keyKind)
    (hentries : u.entries = t.entries) : u.render = t.render :=
  calc u.render = u.nameless.render := u.render_nameless.symm
    _ = t.nameless.render := by rw [h.nameless_eq hkeyKind hentries]
    _ = t.render := t.render_nameless

/-- Whatever is put in the places of keys and values, rows stay where they are. -/
theorem Table.SameLayout.map {δ ε ζ η : Type} {t : Table δ} {u : Table ε} (h : t.SameLayout u)
    (f : Kind → δ → ζ) (g : Kind → ε → η) : (t.map f).SameLayout (u.map g) := by
  refine ⟨h.capacity, ?_⟩
  rw [Table.map, Table.map, List.map_map, List.map_map]
  exact h.buckets

namespace Datum

/-- The text of a datum is what its bytes spell. -/
theorem text?_eq (d : Datum) : d.text? = d.textBytes?.map fun bs => (Utf8.decode? bs).getD "" := by
  unfold text? textBytes?
  split
  · rfl
  · rw [Option.map_some, Utf8.decode?_encode]
    rfl
  · rfl

namespace Alike

variable {C : Catalogue} {d d' : Datum} {k : Kind}

/-- Alike leaves have one text. -/
theorem formatLeaf_eq (h : Alike .exact d d') (hk : Builtin k.base) :
    k.formatLeaf C d = k.formatLeaf C d' := by
  unfold Kind.formatLeaf
  cases hb : k.base with
  | scalar s => simp only [h.views.scalar s]
  | text caseBlind => simp only [text?_eq, h.views.text]
  | bytes => simp only [h.views.bytes]
  | list => rfl
  | table => rfl
  | extension id => exact absurd (hb ▸ hk) (not_builtin_extension id)

/-- What is alike exactly has the same text. -/
theorem format_eq (h : Alike .exact d d') (hk : Builtin k.base) : k.format C d = k.format C d' := by
  induction k, d using Kind.walk_induction generalizing d' with
  | leaf k d hp =>
    rw [Kind.format, Kind.format, Kind.read_leaf hp, Kind.read_leaf (h.parts?_eq_none hp)]
    exact h.formatLeaf_eq hk
  | parts k d p hp ih =>
    obtain ⟨p', pairs, hp', hfirsts, hseconds, hkeys, hpairs⟩ := h.parts_of hp
    have hkeyKind : p'.keyKind = p.keyKind := hkeys.2
    have hshown : p'.entries.map (Entry.map (p'.keyKind.format C) (Kind.format C)) =
        p.entries.map (Entry.map (p.keyKind.format C) (Kind.format C)) := by
      rw [hkeyKind, hseconds, hfirsts, List.map_map, List.map_map]
      refine List.map_congr_left fun z hz => ?_
      have alike := hpairs z hz
      have hmem : z.1 ∈ p.entries := hfirsts ▸ List.mem_map_of_mem hz
      have hkind : z.2.kind = z.1.kind := alike.kind
      show (⟨p.keyKind.format C z.2.key, z.2.kind.format C z.2.value, z.2.kind⟩ : Entry String) =
        ⟨p.keyKind.format C z.1.key, z.1.kind.format C z.1.value, z.1.kind⟩
      rw [hkind, (ih z.1 hmem).1 alike.key hkeys.1, (ih z.1 hmem).2 alike.value alike.keeps]
    rcases Kind.parts?_eq_some hp with ⟨hb, l, hl, rfl⟩ | ⟨hb, t, ht, rfl⟩
    · rcases Kind.parts?_eq_some hp' with ⟨-, m, hm, rfl⟩ | ⟨hb', -⟩
      · rw [Kind.format, Kind.format, Kind.read_list _ hb hl, Kind.read_list _ hb hm]
        exact congrArg (fun entries => Listing.render ⟨l.keyKind, entries⟩) hshown.symm
      · cases hb.symm.trans hb'
    · rcases Kind.parts?_eq_some hp' with ⟨hb', -⟩ | ⟨-, u, hu, rfl⟩
      · cases hb.symm.trans hb'
      · rw [Kind.format, Kind.format, Kind.read_table _ hb ht, Kind.read_table _ hb hu]
        have hlayout := (h.form t u ht hu).map (Kind.format C) (Kind.format C)
        refine (Table.render_congr hlayout hkeyKind ?_).symm
        rw [Kind.entries_map, Kind.entries_map]
        exact hshown

end Alike

end Datum

end OrderedTable
