import OrderedTable.Proofs.Datum.Alike
import OrderedTable.Proofs.Table.Filing

/-!
# Filling a table in the order of another

A table whose rows stand where they belong is built again from its entries in global order: each of them
goes behind all that came before (`Table.insert_last`). The entries may be others, as long as their keys are
alike and they are accepted (`Table.Filed.addAll_in_place`).
-/

namespace OrderedTable.Table

variable {C : Catalogue} {S : Likeness} {t u : Table Datum}

/-- An entry goes to the end of a table if no row belongs behind it. -/
theorem insert_last (h : t.Shaped) {e : Entry Datum}
    (hlast : ∀ r ∈ t.rows, r.bucket ≤ t.bucketOf C e.key ∧
      (r.bucket = t.bucketOf C e.key → t.keyKind.order C r.key e.key ≠ .gt)) :
    (t.insert C e).rows = t.rows ++ [t.newRow C e] := by
  obtain ⟨rows, hrows⟩ : ∃ rows, t.bucketRows (t.bucketOf C e.key) = rows := ⟨_, rfl⟩
  -- halving goes to the end of the bucket
  have hplace : t.placeFor C e.key rows = rows.length := by
    have hall : ∀ r ∈ rows, (t.keyKind.order C r.key e.key != .gt) = true := by
      intro r hr
      obtain ⟨hr, hbucket⟩ := mem_bucketRows.1 (hrows ▸ hr)
      exact bne_iff_ne.2 ((hlast r hr).2 hbucket)
    have hpoint := partitionPoint_append hall fun r (hr : r ∈ []) => absurd hr List.not_mem_nil
    rwa [List.append_nil] at hpoint
  -- neither a row of the bucket nor a later bucket is behind the place
  have hbehind : t.behind C e.key = [] := by
    rw [behind, hrows, hplace, List.drop_length, List.nil_append]
    refine List.filter_eq_nil_iff.2 fun r hr => ?_
    have hle := (hlast r hr).1
    rw [decide_eq_true_eq]
    omega
  have hahead := h.ahead_append_behind (C := C) e.key
  rw [hbehind, List.append_nil] at hahead
  rw [rows_insert, hbehind, hahead]

/-- An entry that may stand in the place of a row. -/
structure Replaces (C : Catalogue) (S : Likeness) (u : Table Datum) (r : Row Datum)
    (e : Entry Datum) : Prop where
  key : Datum.Alike S r.key e.key
  bucket : u.bucketOf C e.key = r.bucket
  keyAccepted : u.keyKind.accepts C e.key = true
  valueAccepted : e.kind.accepts C e.value = true

/-- Rows in their order, as they stand in a table. -/
def InPlace (C : Catalogue) (k : Kind) (r s : Row Datum) : Prop :=
  r.bucket ≤ s.bucket ∧ (r.bucket = s.bucket → k.order C r.key s.key ≠ .gt)

/-- Entries in the places of rows, in the order of these rows, are put in one behind the other. -/
private theorem addAll_in_order (hC : C.Respects S) {k : Kind} (hk : S.keeps k.base)
    {pairs : List (Row Datum × Entry Datum)} (hsorted : (pairs.map Prod.fst).Pairwise (InPlace C k))
    (hu : u.Shaped) (hbase : u.keyKind.base = k.base) (hpairs : ∀ z ∈ pairs, Replaces C S u z.1 z.2)
    (hbefore : ∀ r ∈ u.rows, ∀ z ∈ pairs, InPlace C k r z.1) :
    (u.addAll C (pairs.map Prod.snd)).entries = u.entries ++ pairs.map Prod.snd := by
  -- on the entries to come: each goes behind all rows, and then stands before the rest
  induction pairs generalizing u with
  | nil => exact (List.append_nil _).symm
  | cons z pairs ih =>
    have hz := hpairs z List.mem_cons_self
    obtain ⟨hhead, htail⟩ := List.pairwise_cons.1 hsorted
    have hrows : (u.insert C z.2).rows = u.rows ++ [u.newRow C z.2] := by
      refine insert_last hu fun r hr => ?_
      obtain ⟨hle, horder⟩ := hbefore r hr z List.mem_cons_self
      rw [hz.bucket, Kind.order_congr hbase, ← hz.key.order_right hC hk]
      exact ⟨hle, horder⟩
    have hentries : (u.insert C z.2).entries = u.entries ++ [z.2] := by
      rw [entries, entries, hrows, List.map_append]
      rfl
    have hrest := ih (u := u.insert C z.2) htail (hu.insert z.2) hbase
      (fun y hy =>
        have hy := hpairs y (List.mem_cons_of_mem _ hy)
        ⟨hy.key, hy.bucket, hy.keyAccepted, hy.valueAccepted⟩)
      fun r hr y hy => by
        rw [hrows] at hr
        rcases List.mem_append.1 hr with hr | hr
        · exact hbefore r hr y (List.mem_cons_of_mem _ hy)
        · -- the new row stands where the row stood that it takes the place of
          obtain rfl := List.mem_singleton.1 hr
          obtain ⟨hle, horder⟩ := hhead y.1 (List.mem_map_of_mem hy)
          show u.bucketOf C z.2.key ≤ _ ∧ (u.bucketOf C z.2.key = _ → k.order C z.2.key _ ≠ .gt)
          rw [hz.bucket, ← hz.key.order_left hC hk]
          exact ⟨hle, horder⟩
    rw [List.map_cons, addAll_cons hz.keyAccepted hz.valueAccepted, hrest, hentries, List.append_assoc]
    rfl

/-- A table filled, in the order of another, with entries whose keys are alike and whose values are accepted has them in
that order. -/
theorem Filed.addAll_in_place (h : t.Filed C) (hs : t.Shaped) (hL : C.Lawful S.keeps) (hC : C.Respects S)
    (hk : S.keeps t.keyKind.base) {keyKind : Kind} (hbase : t.keyKind.base = keyKind.base)
    {wanted : Nat} (hcapacity : (Table.empty keyKind wanted : Table Datum).capacity = t.capacity)
    {pairs : List (Entry Datum × Entry Datum)} (hfirsts : t.entries = pairs.map Prod.fst)
    (halike : ∀ z ∈ pairs, Datum.Alike S z.1.key z.2.key)
    (haccepted : ∀ z ∈ pairs, z.2.kind.accepts C z.2.value = true) :
    ((Table.empty keyKind wanted).addAll C (pairs.map Prod.snd)).entries = pairs.map Prod.snd := by
  have hlength : t.rows.length = (pairs.map Prod.snd).length := by
    have := congrArg List.length hfirsts
    simpa [entries] using this
  -- rows go with the entries that take their places
  have hzip : pairs = (t.rows.zip (pairs.map Prod.snd)).map (Prod.map Row.toEntry id) := by
    rw [← List.zip_map_left]
    exact List.zip_of_prod hfirsts.symm rfl
  obtain ⟨rows, hrows⟩ : ∃ rows, t.rows.zip (pairs.map Prod.snd) = rows := ⟨_, rfl⟩
  have hleft : rows.map Prod.fst = t.rows := by
    rw [← hrows, List.map_fst_zip (Nat.le_of_eq hlength)]
  have hright : rows.map Prod.snd = pairs.map Prod.snd := by
    rw [← hrows, List.map_snd_zip (Nat.le_of_eq hlength.symm)]
  have hreplaces : ∀ z ∈ rows, Replaces C S (Table.empty keyKind wanted) z.1 z.2 := by
    intro z hz
    have hr : z.1 ∈ t.rows := hleft ▸ List.mem_map_of_mem hz
    have hz : (z.1.toEntry, z.2) ∈ pairs := by
      rw [hzip, hrows]
      exact List.mem_map.2 ⟨z, hz, rfl⟩
    have hkey := h.accepted z.1 hr
    have hkey' : (Table.empty keyKind wanted : Table Datum).keyKind.accepts C z.2.key = true :=
      ((halike _ hz).accepts_eq hC hbase hk).symm.trans hkey
    refine ⟨halike _ hz, ?_, hkey', haccepted _ hz⟩
    -- equal digests lead to equal buckets because there are as many buckets in both
    rw [h.placed z.1 hr, bucketOf_accepted hL hk hkey, bucketOf_accepted hL (hbase ▸ hk) hkey',
      hcapacity, (halike _ hz).digest_eq hC hbase hk]
    rfl
  have hsorted : (rows.map Prod.fst).Pairwise (InPlace C t.keyKind) :=
    hleft ▸ hs.sorted.imp₂ (fun _ _ hle horder => ⟨hle, horder⟩) h.increasing
  have hfilled := addAll_in_order hC hk hsorted (.empty keyKind wanted) hbase.symm hreplaces
    fun r (hr : r ∈ []) => absurd hr List.not_mem_nil
  rw [hright] at hfilled
  exact hfilled

/-- So it has entries that are alike altogether, if the other table has accepted values only. -/
theorem Filed.addAll_alike (h : t.Filed C) (hs : t.Shaped) (hL : C.Lawful S.keeps) (hC : C.Respects S)
    (hk : S.keeps t.keyKind.base) {keyKind : Kind} (hbase : t.keyKind.base = keyKind.base)
    {wanted : Nat} (hcapacity : (Table.empty keyKind wanted : Table Datum).capacity = t.capacity)
    {pairs : List (Entry Datum × Entry Datum)} (hfirsts : t.entries = pairs.map Prod.fst)
    (halike : ∀ z ∈ pairs, Entry.Alike S z.1 z.2)
    (haccepted : ∀ e ∈ t.entries, e.kind.accepts C e.value = true) :
    ((Table.empty keyKind wanted).addAll C (pairs.map Prod.snd)).entries = pairs.map Prod.snd := by
  refine h.addAll_in_place hs hL hC hk hbase hcapacity hfirsts (fun z hz => (halike z hz).key) fun z hz => ?_
  have hz' := halike z hz
  rw [← hz'.value.accepts_eq hC (S.base_eq hz'.kind) hz'.keeps]
  exact haccepted z.1 (hfirsts ▸ List.mem_map_of_mem hz)

end OrderedTable.Table
