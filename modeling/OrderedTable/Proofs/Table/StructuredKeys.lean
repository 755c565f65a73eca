import OrderedTable.Proofs.Order.Structural
import OrderedTable.Proofs.Table.Halving
import OrderedTable.Proofs.Table.Lookup

/-!
# Lists and tables as keys

A key is found by its digest first and by comparison then, so a key can stand for another one only if both
walks take the two as one. Comparison passes over everything that the digest passes over as long as kinds
that compare as equal are twins: then what compares as equal has one hash, and both keys find the same row in
every table (`Catalogue.Lawful.interchangeable`).

Two bases without an index that share a name compare as equal and are no twins. A comparison that meets them
ends there, before lengths and values are looked at; the digest goes on. So two lists may compare as equal and
not find each other (`Listing.namesakes_lost`).
-/

namespace OrderedTable

/-- Keys that stand for each other under a kind: they have one hash, which the kind itself defines, and in a
table whose rows stand where they belong, with bases among `P` in their keys, they find the same row. Where a
row has the one key, the other finds a row with an equal one. -/
structure Kind.Interchangeable (C : Catalogue) (P : Base → Prop) (k : Kind) (a b : Datum) : Prop where
  hash : ∃ h, k.hash? C a = some h ∧ k.hash? C b = some h
  found : ∀ t : Table Datum, t.keyKind.base = k.base → t.Filed C →
    (∀ r ∈ t.rows, t.keyKind.Within P r.key) → t.find? C a = t.find? C b
  finds : ∀ t : Table Datum, t.keyKind.base = k.base → t.Filed C →
    (∀ r ∈ t.rows, t.keyKind.Within P r.key) → ∀ r ∈ t.rows, r.key = a →
      ∃ s, t.find? C b = some s ∧ t.keyKind.order C s.key a = .eq

variable {C : Catalogue} {P : Base → Prop}

/-- Lists and tables are no extensions, so they ask nothing more of a catalogue. -/
theorem Catalogue.Lawful.with_structures (h : C.Lawful P) :
    C.Lawful fun b => P b ∨ b = .list ∨ b = .table where
  toOrders := h.toOrders.with_structures
  agrees id hid := by
    rcases hid with hid | hid | hid
    · exact h.agrees id hid
    · cases hid
    · cases hid

namespace Table

variable {t : Table Datum}

/-- Accepted keys that compare as equal find the same row. -/
theorem find?_congr (hC : C.Lawful P) (hrows : ∀ r ∈ t.rows, t.keyKind.Within P r.key)
    {key key' a b : Datum} (hkey : key.peel = a) (hkey' : key'.peel = b) (ha : t.keyKind.Within P a)
    (hb : t.keyKind.Within P b) (hacca : t.keyKind.accepts C a = true)
    (haccb : t.keyKind.accepts C b = true) (h : t.keyKind.order C a b = .eq) :
    t.find? C key = t.find? C key' := by
  have hbase : P t.keyKind.base := ha.1
  have hbucket : t.bucketOf C a = t.bucketOf C b := by
    rw [bucketOf_accepted hC hbase hacca, bucketOf_accepted hC hbase haccb,
      Kind.digest_eq_of_order hC _ _ _ ha hb h]
  have hrow : ∀ r ∈ t.bucketRows (t.bucketOf C b),
      t.keyKind.order C r.key a = t.keyKind.order C r.key b := by
    intro r hr
    have hcomposes := Kind.order_composes hC.toOrders _ _ _ _ (hrows r (mem_bucketRows.1 hr).1) ha hb
    exact (hcomposes.2.1 h).symm
  have hplace : partitionPoint (fun r : Row Datum => t.keyKind.order C r.key a == .lt)
      ((t.bucketRows (t.bucketOf C b)).map id) =
        partitionPoint (fun r => t.keyKind.order C r.key b == .lt) (t.bucketRows (t.bucketOf C b)) :=
    partitionPoint_map_congr fun r hr => by rw [id, hrow r hr]
  rw [List.map_id] at hplace
  simp only [find?, hkey, hkey', hacca, haccb, if_true, hbucket, hplace]
  generalize partitionPoint _ _ = place
  cases hget : (t.bucketRows (t.bucketOf C b))[place]? with
  | none => rfl
  | some r => simp only [Option.filter_some, hrow r (List.mem_of_getElem? hget)]

end Table

namespace Kind

variable {k : Kind} {a b : Datum}

/-- Where the parts of a value are digested, the kind defines the hash. -/
theorem hash?_parts {p : Parts} (h : k.parts? a = some p) : k.hash? C a = some (p.digest C) := by
  rw [← digest_parts h]
  rcases parts?_eq_some h with ⟨hk, l, hl, -⟩ | ⟨hk, t, ht, -⟩
  · simp [hash?, hk, hl]
  · simp [hash?, hk, ht]

/-- Lists, or tables, that compare as equal stand for each other as keys. -/
theorem interchangeable_of_order (hC : C.Lawful P) {p q : Parts} (hpa : k.parts? a = some p)
    (hpb : k.parts? b = some q) (ha : k.Within P a) (hb : k.Within P b) (hapeel : a.peel = a)
    (hbpeel : b.peel = b) (h : k.order C a b = .eq) : k.Interchangeable C P a b := by
  have hdigest := digest_eq_of_order hC k a b ha hb h
  have under : ∀ t : Table Datum, t.keyKind.base = k.base →
      (t.keyKind.Within P a ∧ t.keyKind.accepts C a = true) ∧
        (t.keyKind.Within P b ∧ t.keyKind.accepts C b = true) ∧ t.keyKind.order C a b = .eq := by
    intro t hbase
    refine ⟨⟨ha.congr hbase.symm, ?_⟩, ⟨hb.congr hbase.symm, ?_⟩, ?_⟩
    · rw [accepts_congr hbase, accepts_parts hpa]
    · rw [accepts_congr hbase, accepts_parts hpb]
    · rw [order_congr hbase, h]
  refine ⟨⟨p.digest C, hash?_parts hpa, ?_⟩, fun t hbase _ hrows => ?_, fun t hbase hfiled hrows r hr hra => ?_⟩
  · rw [hash?_parts hpb, ← digest_parts hpb, ← hdigest, digest_parts hpa]
  · obtain ⟨⟨hta, hacca⟩, ⟨htb, haccb⟩, hab⟩ := under t hbase
    exact Table.find?_congr hC hrows hapeel hbpeel hta htb hacca haccb hab
  · obtain ⟨⟨hta, -⟩, ⟨htb, haccb⟩, hab⟩ := under t hbase
    obtain ⟨hnone, hsome⟩ := hfiled.find?_spec hC hrows (hbpeel.symm ▸ htb : t.keyKind.Within P b.peel)
      (by rw [hbpeel]; exact haccb)
    rw [hbpeel] at hnone hsome
    cases hfind : t.find? C b with
    | none => exact absurd (hra ▸ hab) (hnone hfind r hr)
    | some s =>
      obtain ⟨hs, hsb, -⟩ := hsome s hfind
      have hcomposes := order_composes hC.toOrders _ _ _ _ (hrows s hs) hta htb
      exact ⟨s, rfl, (hcomposes.2.1 hab).symm.trans hsb⟩

end Kind

/-- Lists that compare as equal, and tables that do, have one hash and stand for each other as keys, as far as
the bases among their kinds can be told apart and extensions among them are lawful. -/
theorem Catalogue.Lawful.interchangeable (hC : C.Lawful P) :
    let Q := fun b => P b ∨ b = Base.list ∨ b = Base.table
    (∀ l m : Listing Datum, l.parts.Within P → m.parts.Within P → l.order C m = .eq →
      Kind.list.Interchangeable C Q (.list l) (.list m)) ∧
    ∀ t u : Table Datum, t.parts.Within P → u.parts.Within P → t.order C u = .eq →
      Kind.table.Interchangeable C Q (.table t) (.table u) := by
  intro Q
  have within : ∀ {k : Kind} {a : Datum} {p : Parts}, Q k.base → k.parts? a = some p → p.Within P →
      k.Within Q a := fun hk hpa hp =>
    .of_parts hpa hk (.inl hp.1) fun e he => ⟨.inl (hp.2 e he).1, fun b hb => .inl ((hp.2 e he).2 b hb)⟩
  refine ⟨fun l m hl hm h => ?_, fun t u ht hu h => ?_⟩
  · exact Kind.interchangeable_of_order hC.with_structures rfl rfl (within (.inr (.inl rfl)) rfl hl)
      (within (.inr (.inl rfl)) rfl hm) rfl rfl (Kind.order_list l m ▸ h)
  · exact Kind.interchangeable_of_order hC.with_structures rfl rfl (within (.inr (.inr rfl)) rfl ht)
      (within (.inr (.inr rfl)) rfl hu) rfl rfl (Kind.order_table t u ▸ h)

/-- The registered bases and one more, if all of these are lawful. -/
theorem Catalogue.Lawful.with_unindexed (h : C.Lawful C.Registered) {id : Nat}
    (hordered : (C.extension id).Ordered) (hagrees : (C.extension id).Agrees) :
    C.Lawful fun b => C.Registered b ∨ b = .extension id where
  apart a b ha hb hnone hnone' _ := by
    have unindexed : ∀ b, (C.Registered b ∨ b = .extension id) → C.baseIndex? b = none →
        b = .extension id := fun b hb hnone => hb.resolve_left fun hb => hb.baseIndex?_ne_none hnone
    rw [unindexed a ha hnone, unindexed b hb hnone']
  extension id' hid := by
    rcases hid with hid | hid
    · exact h.extension id' hid
    · cases hid
      exact hordered
  agrees id' hid := by
    rcases hid with hid | hid
    · exact h.agrees id' hid
    · cases hid
      exact hagrees

instance (P : Base → Prop) [DecidablePred P] (k : Kind) (d : Datum) : Decidable (k.Within P d) :=
  inferInstanceAs (Decidable (_ ∧ _))

instance (P : Base → Prop) [DecidablePred P] (p : Parts) : Decidable (p.Within P) :=
  inferInstanceAs (Decidable (_ ∧ _))

/-- Twins take the place of each other, a value that is foreign to its kind and one under a kind without an
index are there on both sides, and the keys differ. -/
theorem Listing.interchangeable_motley :
    let P := fun b => Catalogue.specimens.Registered b ∨ b = .extension 5
    let l := Listing.motley .i32
    let m : Listing Datum :=
      ⟨.text, (Listing.motley Kind.i32.twin).entries.map fun e => ⟨.unit, e.value, e.kind⟩⟩
    Catalogue.specimens.Lawful P ∧ l.parts.Within P ∧ m.parts.Within P ∧
      l.order Catalogue.specimens m = .eq ∧
      Kind.list.Interchangeable Catalogue.specimens (fun b => P b ∨ b = .list ∨ b = .table) (.list l)
        (.list m) := by
  intro P l m
  have hP : Catalogue.specimens.Lawful P :=
    Catalogue.specimens_lawful.with_unindexed (Extension.ordered_of_i32 rfl)
      (Extension.agrees_integer "ghost_b")
  have hl : l.parts.Within P := by decide +kernel
  have hm : m.parts.Within P := by decide +kernel
  have horder : l.order Catalogue.specimens m = .eq := by decide +kernel
  exact ⟨hP, hl, hm, horder, hP.interchangeable.1 l m hl hm horder⟩

/-- Two lists whose keys are of kinds without an index, with one name. They compare as equal, though one is
empty and the other one is not; their hashes differ, and a table that holds the one does not find the other. -/
theorem Listing.namesakes_lost :
    let C := Catalogue.specimens
    let l : Listing Datum := ⟨.owning (.extension 4), []⟩
    let m : Listing Datum := ⟨.owning (.extension 6),
      [⟨.scalar (.int .i32 1), .scalar (.int .i32 2), .i32⟩]⟩
    let t := (Table.empty .list 0).insert C ⟨.list l, .scalar (.int .i32 5), .i32⟩
    l.order C m = .eq ∧ m.order C l = .eq ∧ Kind.list.hash? C (.list l) ≠ Kind.list.hash? C (.list m) ∧
      (t.find? C (.list l)).isSome = true ∧ (t.find? C (.list m)).isSome = false := by
  decide +kernel

end OrderedTable
