import OrderedTable.Proofs.Order.Pivot
import OrderedTable.Proofs.Table.Assembly
import OrderedTable.Proofs.Table.Canonical

/-!
# Entries gathered in a table

A table into which entries are put one after another has them gathered by bucket and by key. Whatever the buckets
are, entries with equal keys stand in the order in which they came, and a key finds the first of them
(`Table.gathered_addAll`).
-/

namespace OrderedTable

variable {C : Catalogue} {P : Base → Prop}

/-- A ledger has entries that are accepted behind those that it had. -/
theorem Ledger.entries_run_add {g : Ledger} {es : List (Entry Datum)}
    (h : ∀ e ∈ es, g.keyKind.accepts C e.key = true ∧ e.kind.accepts C e.value = true) :
    (g.run C (es.map .add)).items.map Item.entry = g.items.map Item.entry ++ es ∧
      (g.run C (es.map .add)).keyKind = g.keyKind := by
  induction es generalizing g with
  | nil => exact ⟨(List.append_nil _).symm, rfl⟩
  | cons e es ih =>
    obtain ⟨⟨hkey, hvalue⟩, hes⟩ := List.forall_mem_cons.1 h
    -- an accepted entry goes to the end of the ledger
    have hadd : (g.perform C (.add e)).1 = g.append e := by
      rw [perform, add, hkey, hvalue]
      rfl
    obtain ⟨hitems, hkeyKind⟩ := ih (g := g.append e) hes
    have hrun : g.run C ((e :: es).map .add) = (g.append e).run C (es.map .add) := by
      rw [← hadd]
      rfl
    rw [hrun]
    refine ⟨hitems.trans ?_, hkeyKind⟩
    rw [append, List.map_append, List.append_assoc]
    rfl

/-- A base neither of lists nor of tables. -/
def Base.Flat (b : Base) : Prop := b ≠ .list ∧ b ≠ .table

instance (b : Base) : Decidable b.Flat := inferInstanceAs (Decidable (_ ∧ _))

/-- Whatever a value is, under a flat base no other base is looked at. -/
theorem Base.Flat.within {K : Kind} (h : K.base.Flat) (hP : P K.base) (d : Datum) : K.Within P d :=
  (Kind.within_leaf (Kind.parts?_eq_none_of_base h.1 h.2 d)).2 hP

namespace Table

variable {t : Table Datum}

/-- A table that has gathered entries: it has as many buckets as they ask for, entries with equal keys stand in the
order in which they came, and a key finds the first of those with an equal key. -/
structure Gathered (C : Catalogue) (t : Table Datum) (K : Kind) (es : List (Entry Datum)) : Prop where
  keyKind : t.keyKind = K
  capacity : t.capacity = max es.length minCapacity
  holds : t.entries.Perm es
  stable : ∀ key, t.entries.filter (fun e => K.order C e.key key = .eq) =
    es.filter fun e => K.order C e.key key = .eq
  finds : ∀ key, (t.find? C key).map Row.toEntry =
    if K.accepts C key.peel then es.find? fun e => K.order C e.key key.peel = .eq else none

/-- Where rows are where they belong, a key finds the first entry with an equal key in global order. -/
theorem Kept.find?_eq (hk : t.Kept C P) (hC : C.Lawful P) {key : Datum} (hkey : t.keyKind.Within P key.peel) :
    (t.find? C key).map Row.toEntry = if t.keyKind.accepts C key.peel then
      t.entries.find? fun e => t.keyKind.order C e.key key.peel = .eq else none := by
  -- a key that is not accepted is not looked for
  by_cases haccepts : t.keyKind.accepts C key.peel = true
  · rw [if_pos haccepts, entries, List.find?_map, hk.filed.find?_eq hC hk.within hkey haccepts]
    rfl
  · rw [if_neg haccepts, find?]
    simp only [haccepts]
    rfl

/-- That holds of every key there is, as rows of registered kinds equal none of other kinds. -/
theorem Kept.find?_eq_of_ranks (hk : t.Kept C P) (hC : C.Lawful P) (hR : C.Ranks P) (key : Datum) :
    (t.find? C key).map Row.toEntry = if t.keyKind.accepts C key.peel then
      t.entries.find? fun e => t.keyKind.order C e.key key.peel = .eq else none := by
  -- a key of other kinds equals none of the rows
  by_cases hkey : t.keyKind.Within P key.peel
  · exact hk.find?_eq hC hkey
  · have hne : ∀ r ∈ t.rows, t.keyKind.order C r.key key.peel ≠ .eq :=
      fun r hr heq => hkey (.of_order_eq hR (hk.within r hr) heq)
    have hnone : t.find? C key = none := by
      unfold find?
      dsimp only
      split
      · refine Option.filter_eq_none_iff.2 fun r hr => ?_
        rw [decide_eq_true_eq]
        exact hne r (mem_bucketRows.1 (List.mem_of_getElem? hr)).1
      · rfl
    rw [hnone, entries, List.find?_map, List.find?_eq_none.2 fun r hr => by simpa using hne r hr]
    simp

/-- A table whose keys are neither lists nor tables has its rows where they belong as long as its keys are read under
one base. -/
theorem Source.kept_run (hstart : Source C t) (hC : C.Lawful P) (hP : P t.keyKind.base)
    (hflat : t.keyKind.base.Flat) {ops : List Operation} (hops : ∀ op ∈ ops, op.KeepsBase t.keyKind.base) :
    (t.run C ops).Kept C P := by
  have hordered : ∀ id, t.keyKind.base = .extension id → (C.extension id).Ordered :=
    fun id hid => hC.extension id (hid ▸ hP)
  have horders : ∀ first, first <+: ops → C.Orders (t.run C first).Mentions := fun first hfirst =>
    orders_run hflat.1 hflat.2 hordered fun op hop => hops op (hfirst.mem hop)
  have hbase := run_base (C := C) t hops
  have hfiled : t.Filed C := hstart.filed (horders [] List.nil_prefix)
  refine ⟨hbase ▸ hP, hstart.shaped.run ops, hfiled.run hstart.shaped hops horders, fun r _ => ?_⟩
  rw [← hbase] at hflat hP
  exact hflat.within hP r.key

/-- Entries that are put into an empty table stand where they belong, those with equal keys in the order in which they
came, however many buckets there are. -/
theorem kept_addAll (hC : C.Lawful P) (hR : C.Ranks P) {K : Kind} (hK : P K.base) (wanted : Nat)
    {es : List (Entry Datum)} (hkeys : ∀ e ∈ es, K.Within P e.key)
    (hes : ∀ e ∈ es, K.accepts C e.key = true ∧ e.kind.accepts C e.value = true) :
    ((Table.empty K wanted).addAll C es).Kept C P ∧
      ((Table.empty K wanted).addAll C es).entries.Perm es ∧
      ∀ key, ((Table.empty K wanted).addAll C es).entries.filter (fun e => K.order C e.key key = .eq) =
        es.filter fun e => K.order C e.key key = .eq := by
  -- the table is that of a history, whose ledger has the entries in their order
  have hops : ∀ op ∈ es.map Operation.add, op.KeysWithin P K := by
    intro op hop
    obtain ⟨e, he, rfl⟩ := List.mem_map.1 hop
    refine ⟨nofun, fun key hkey => ?_⟩
    obtain rfl := Option.some.inj hkey
    exact (hkeys e he).peel (hes e he).1
  obtain ⟨⟨htallies, hkept, -⟩, -⟩ := run_tallies hC hK wanted hops
  obtain ⟨hkeyKind, -⟩ := addAll_fields (C := C) (.empty K wanted) es
  have hholds := addAll_perm (t := .empty K wanted) (.empty K wanted) hes
  rw [← addAll_eq_run] at htallies hkept
  obtain ⟨hitems, hledger⟩ := Ledger.entries_run_add (g := .empty K) hes
  generalize (Table.empty K wanted).addAll C es = t at *
  generalize (Ledger.empty K).run C (es.map .add) = g at *
  obtain rfl : t.keyKind = K := hkeyKind
  refine ⟨hkept, hholds, fun key => ?_⟩
  by_cases hkey : t.keyKind.Within P key
  · have hitems : es = g.items.map Item.entry := hitems.symm
    rw [htallies.filter_entries hC hkept hkey, Ledger.queue, htallies.keyKind, hitems, List.filter_map]
    rfl
  · -- nothing equals a key of other kinds
    have hnone : ∀ e ∈ es, ¬ decide (t.keyKind.order C e.key key = .eq) = true := by
      intro e he heq
      exact hkey (.of_order_eq hR (hkeys e he) (of_decide_eq_true heq))
    rw [List.filter_eq_nil_iff.2 hnone,
      List.filter_eq_nil_iff.2 fun e he => hnone e (hholds.mem_iff.1 he)]

/-- Entries that are put into an empty table with a bucket for each are gathered. -/
theorem gathered_addAll (hC : C.Lawful P) (hR : C.Ranks P) {K : Kind} (hK : P K.base) {es : List (Entry Datum)}
    (hkeys : ∀ e ∈ es, K.Within P e.key)
    (hes : ∀ e ∈ es, K.accepts C e.key = true ∧ e.kind.accepts C e.value = true) :
    ((Table.empty K es.length).addAll C es).Gathered C K es := by
  obtain ⟨hkept, hholds, hstable⟩ := kept_addAll hC hR hK es.length hkeys hes
  obtain ⟨hkeyKind, hcapacity⟩ := addAll_fields (C := C) (.empty K es.length) es
  generalize (Table.empty K es.length).addAll C es = t at *
  obtain rfl : t.keyKind = K := hkeyKind
  refine ⟨rfl, hcapacity, hholds, hstable, fun key => ?_⟩
  -- the first in global order is the first that came
  rw [hkept.find?_eq_of_ranks hC hR]
  split
  · rw [← List.head?_filter, ← List.head?_filter, hstable]
  · rfl

end Table

end OrderedTable
