import OrderedTable.Proofs.Table.Halving
import OrderedTable.Proofs.Table.Lookup
import OrderedTable.Proofs.Table.History

/-!
# Tables with other keys and values in the same places

Where a new row stands depends on how keys are digested and compared, and on nothing else of them. So a table
may be filled first and have its keys and values replaced afterwards, or the other way round, as long as the
replacements are accepted, digested and compared as what they replace (`Table.addAll_map`).
-/

namespace OrderedTable.Table

variable {C : Catalogue} {t : Table Datum} {g : Kind → Datum → Datum}

/-- Rows whose keys and values were replaced are in the buckets in which they were. -/
theorem bucketRows_map (bucket : Nat) :
    (t.map g).bucketRows bucket = (t.bucketRows bucket).map (Row.map (g t.keyKind) g) := by
  rw [bucketRows, map, List.filter_map]
  rfl

/-- An entry goes to the same place among rows that are replaced along with it. -/
theorem insert_map {e : Entry Datum} (hbucket : (t.map g).bucketOf C (g t.keyKind e.key) = t.bucketOf C e.key)
    (horder : ∀ r ∈ t.rows,
      t.keyKind.order C (g t.keyKind r.key) (g t.keyKind e.key) = t.keyKind.order C r.key e.key) :
    (t.map g).insert C (e.map (g t.keyKind) g) = (t.insert C e).map g := by
  have hplace : (t.map g).placeFor C (g t.keyKind e.key)
      ((t.bucketRows (t.bucketOf C e.key)).map (Row.map (g t.keyKind) g)) =
        t.placeFor C e.key (t.bucketRows (t.bucketOf C e.key)) := by
    refine partitionPoint_map_congr fun r hr => ?_
    exact congrArg (· != .gt) (horder r (mem_bucketRows.1 hr).1)
  have hrow : ∀ bucket handle, (⟨e.map (g t.keyKind) g, bucket, handle⟩ : Row Datum) =
      Row.map (g t.keyKind) g ⟨e, bucket, handle⟩ := fun _ _ => rfl
  have hkey : (e.map (g t.keyKind) g).key = g t.keyKind e.key := rfl
  rw [insert, insert, hkey, hbucket, bucketRows_map, hplace, hrow]
  simp only [map, List.filter_map, List.map_append, List.map_cons, List.map_take, List.map_drop]
  rfl

/-- Replacements that are accepted, digested and compared as the keys that they replace. -/
structure Unseen (C : Catalogue) (k : Kind) (g : Datum → Datum) (among : Datum → Prop) : Prop where
  accepts : ∀ d, among d → k.accepts C d = true ∧ k.accepts C (g d) = true
  digest : ∀ d, among d → k.digest C (g d) = k.digest C d
  order : ∀ a b, among a → among b → k.order C (g a) (g b) = k.order C a b

/-- So is a run of entries, put in one after another. -/
theorem addAll_map {P : Base → Prop} (hC : C.Lawful P) (hs : t.Shaped) (hbase : P t.keyKind.base)
    {among : Datum → Prop} (hg : Unseen C t.keyKind (g t.keyKind) among) (hrows : ∀ r ∈ t.rows, among r.key)
    {entries : List (Entry Datum)} (hkeys : ∀ e ∈ entries, among e.key)
    (hvalues : ∀ e ∈ entries, e.kind.accepts C e.value = true ∧ e.kind.accepts C (g e.kind e.value) = true) :
    (t.map g).addAll C (entries.map (Entry.map (g t.keyKind) g)) = (t.addAll C entries).map g := by
  -- the table grows, and the keys in it stay among those that are replaced unseen
  induction entries generalizing t with
  | nil => rfl
  | cons e entries ih =>
    have hkey := hkeys e List.mem_cons_self
    obtain ⟨haccepts, haccepts'⟩ := hg.accepts _ hkey
    obtain ⟨hvalue, hvalue'⟩ := hvalues e List.mem_cons_self
    have hbucket : (t.map g).bucketOf C (g t.keyKind e.key) = t.bucketOf C e.key := by
      rw [bucketOf_accepted hC hbase haccepts, bucketOf_accepted (t := t.map g) hC hbase haccepts']
      exact congrArg (fun digest : UInt64 => digest.toNat % t.capacity) (hg.digest _ hkey)
    have hinsert := insert_map hbucket fun r hr => hg.order _ _ (hrows r hr) hkey
    rw [List.map_cons, addAll_cons (t := t.map g) haccepts' hvalue' _, addAll_cons haccepts hvalue, hinsert]
    refine ih (t := t.insert C e) (hs.insert e) hbase hg (fun r hr => ?_)
      (fun f hf => hkeys f (List.mem_cons_of_mem _ hf)) fun f hf => hvalues f (List.mem_cons_of_mem _ hf)
    rcases (hs.mem_insert e).1 hr with rfl | hr
    · exact hkey
    · exact hrows r hr

end OrderedTable.Table
