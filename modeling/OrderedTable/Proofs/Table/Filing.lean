import OrderedTable.Proofs.Order.Agreement
import OrderedTable.Proofs.Table.Halving
import OrderedTable.Proofs.Table.History

/-!
# Rows in the buckets of their keys

As long as the keys are read under one base that orders them, every row stands in the bucket of its
key, and a bucket stands in increasing order of its keys, equal keys in the order of their age
(`Table.Filed`). Any number of rows may have been removed in between: what is left of a row of rows in
order is in order.

`Table.Mentions` are the bases that comparing the keys looks at; they have to be such that the keys can
be ordered (`Catalogue.Orders`) whenever a row is put in.
-/

namespace OrderedTable

namespace Kind

variable {C : Catalogue}

/-- Twins accept the same. -/
theorem accepts_congr {k k' : Kind} (h : k.base = k'.base) (d : Datum) :
    k.accepts C d = k'.accepts C d := by
  rw [accepts, accepts, h]

end Kind

namespace Table

variable {C : Catalogue} {t u : Table Datum}

/-- The bases that comparing the keys of a table looks at. -/
def Mentions (t : Table Datum) (b : Base) : Prop :=
  b = t.keyKind.base ∨ ∃ r ∈ t.rows, b ∈ t.keyKind.mentions r.key

/-- Each key of a table keeps to the bases that the table mentions. -/
theorem Mentions.within {r : Row Datum} (hr : r ∈ t.rows) : t.keyKind.Within t.Mentions r.key :=
  ⟨.inl rfl, fun _ hb => .inr ⟨r, hr, hb⟩⟩

/-- Keys that are neither lists nor tables mention their kind alone. -/
theorem Mentions.eq_base (hlist : t.keyKind.base ≠ .list) (htable : t.keyKind.base ≠ .table)
    {b : Base} (h : t.Mentions b) : b = t.keyKind.base := by
  rcases h with h | ⟨r, -, hb⟩
  · exact h
  · rw [Kind.mentions_leaf (Kind.parts?_eq_none_of_base hlist htable r.key)] at hb
    cases hb

/-- Every row stands in the bucket of its key, which the kind of the keys accepts, and a bucket stands
in the order of its keys, and of the age of equal ones. -/
structure Filed (C : Catalogue) (t : Table Datum) : Prop where
  accepted : ∀ r ∈ t.rows, t.keyKind.accepts C r.key = true
  placed : ∀ r ∈ t.rows, r.bucket = t.bucketOf C r.key
  increasing : t.rows.Pairwise fun r s =>
    r.bucket = s.bucket → t.keyKind.order C r.key s.key ≠ .gt
  aged : t.rows.Pairwise fun r s =>
    r.bucket = s.bucket → t.keyKind.order C r.key s.key = .eq → r.handle.serial < s.handle.serial

/-- The bucket of a key depends on the base of the keys and on how many buckets there are. -/
theorem bucketOf_congr (hbase : t.keyKind.base = u.keyKind.base) (hcap : t.capacity = u.capacity)
    (key : Datum) : t.bucketOf C key = u.bucketOf C key := by
  rw [bucketOf, bucketOf, Kind.accepts_congr hbase, Kind.digest_congr hbase, hcap]

/-- A key that is accepted belongs where its digest says, in a box or out of it. -/
theorem bucketOf_accepted {P : Base → Prop} (hC : C.Lawful P) (hbase : P t.keyKind.base) {key : Datum}
    (h : t.keyKind.accepts C key = true) :
    t.bucketOf C key = (t.keyKind.digest C key).toNat % t.capacity := by
  rw [bucketOf, if_pos (Kind.accepts_peel hC hbase h), Kind.digest_peel hC hbase h]

namespace Filed

theorem empty (keyKind : Kind) (wanted : Nat) : (Table.empty keyKind wanted).Filed C :=
  ⟨by rintro r ⟨⟩, by rintro r ⟨⟩, .nil, .nil⟩

/-- The rows of a bucket stand in the order of their keys. -/
theorem bucketRows_increasing (h : t.Filed C) (bucket : Nat) :
    (t.bucketRows bucket).Pairwise fun r s => t.keyKind.order C r.key s.key ≠ .gt := by
  refine (h.increasing.filter _).imp_of_mem fun hr hs hrs => hrs ?_
  have hr := (List.mem_filter.1 hr).2
  have hs := (List.mem_filter.1 hs).2
  simp only [decide_eq_true_eq] at hr hs
  exact hr.trans hs.symm

/-- In the bucket of a new row, the rows ahead have keys that are not greater, and those behind have
greater ones. -/
theorem place_spec (h : t.Filed C) {P : Base → Prop} (hP : C.Orders P) {key : Datum}
    (hrows : ∀ r ∈ t.rows, t.keyKind.Within P r.key) (hkey : t.keyKind.Within P key) :
    (∀ r ∈ t.ahead C key, r.bucket = t.bucketOf C key → t.keyKind.order C r.key key ≠ .gt) ∧
      ∀ r ∈ t.behind C key, t.bucketOf C key = r.bucket → t.keyKind.order C r.key key = .gt := by
  -- halving finds the place because the rows that are not greater come first
  have hsorted : (t.bucketRows (t.bucketOf C key)).Pairwise fun r s =>
      t.keyKind.order C s.key key != .gt → t.keyKind.order C r.key key != .gt := by
    refine (h.bucketRows_increasing _).imp_of_mem fun {r s} hr hs hrs hskey => ?_
    have hr := hrows r (mem_bucketRows.1 hr).1
    have hs := hrows s (mem_bucketRows.1 hs).1
    rw [bne_iff_ne] at hskey ⊢
    exact (Kind.order_composes hP _ _ _ _ hr hs hkey).ne_gt hrs hskey
  obtain ⟨hahead, hbehind⟩ := partitionPoint_spec hsorted
  -- ahead and behind reach into other buckets, where nothing is claimed
  constructor
  · intro r hr hbucket
    rcases List.mem_append.1 hr with hr | hr
    · have hlt := (List.mem_filter.1 hr).2
      rw [decide_eq_true_eq, hbucket] at hlt
      exact absurd hlt (Nat.lt_irrefl _)
    · exact bne_iff_ne.1 (hahead r hr)
  · intro r hr hbucket
    rcases List.mem_append.1 hr with hr | hr
    · simpa using hbehind r hr
    · have hlt := (List.mem_filter.1 hr).2
      rw [decide_eq_true_eq, hbucket] at hlt
      exact absurd hlt (Nat.lt_irrefl _)

/-- A new row stands where it belongs, and the others stay where they do. -/
theorem insert (h : t.Filed C) (hs : t.Shaped) {P : Base → Prop} (hP : C.Orders P)
    {e : Entry Datum} (hrows : ∀ r ∈ t.rows, t.keyKind.Within P r.key)
    (hkey : t.keyKind.Within P e.key) (haccepts : t.keyKind.accepts C e.key = true) :
    (t.insert C e).Filed C := by
  obtain ⟨hahead, hbehind⟩ := h.place_spec hP hrows hkey
  -- turned around, the rows behind have keys that are greater than the new one
  have behind_lt : ∀ r ∈ t.behind C e.key, t.bucketOf C e.key = r.bucket →
      t.keyKind.order C e.key r.key = .lt := by
    intro r hr hbucket
    rw [Kind.order_swap hP _ _ _ (hrows r (hs.mem_of_mem_behind hr)) hkey, hbehind r hr hbucket]
    rfl
  refine ⟨?_, ?_, ?_, ?_⟩
  · intro r hr
    rcases (hs.mem_insert e).1 hr with rfl | hr
    · exact haccepts
    · exact h.accepted r hr
  · intro r hr
    rcases (hs.mem_insert e).1 hr with rfl | hr
    · rfl
    · exact h.placed r hr
  · refine hs.pairwise_insert e h.increasing hahead fun r hr hbucket => ?_
    show t.keyKind.order C e.key r.key ≠ .gt
    rw [behind_lt r hr hbucket]
    decide
  · refine hs.pairwise_insert e h.aged (fun r hr _ _ => ?_) fun r hr hbucket heq => ?_
    · exact hs.serial_lt r (hs.mem_of_mem_ahead hr)
    · have hlt := behind_lt r hr hbucket
      rw [show t.keyKind.order C e.key r.key = .eq from heq] at hlt
      cases hlt

/-- Of rows in order, those that are left are in order. -/
theorem erase (h : t.Filed C) (handle : Handle) : (t.erase handle).Filed C where
  accepted r hr := h.accepted r (List.mem_filter.1 hr).1
  placed r hr := h.placed r (List.mem_filter.1 hr).1
  increasing := h.increasing.filter _
  aged := h.aged.filter _

/-- A row may be changed where it stands, but for its key, its bucket and its handle. -/
theorem modify (h : t.Filed C) (handle : Handle) {change : Row Datum → Row Datum}
    (hkey : ∀ r, (change r).key = r.key) (hbucket : ∀ r, (change r).bucket = r.bucket)
    (hhandle : ∀ r, (change r).handle = r.handle) : (t.modify handle change).Filed C := by
  have key := changed_eq (f := (·.key)) hkey handle
  have bucket := changed_eq hbucket handle
  have name := changed_eq hhandle handle
  refine ⟨?_, ?_, ?_, ?_⟩
  · intro r hr
    obtain ⟨s, hs, rfl⟩ := List.mem_map.1 hr
    rw [key]
    exact h.accepted s hs
  · intro r hr
    obtain ⟨s, hs, rfl⟩ := List.mem_map.1 hr
    rw [bucket, key]
    exact h.placed s hs
  · refine List.pairwise_map.2 (h.increasing.imp fun {r s} hrs => ?_)
    rw [bucket, bucket, key, key]
    exact hrs
  · refine List.pairwise_map.2 (h.aged.imp fun {r s} hrs => ?_)
    rw [bucket, bucket, key, key, name, name]
    exact hrs

theorem clear : t.clear.Filed C :=
  ⟨by rintro r ⟨⟩, by rintro r ⟨⟩, .nil, .nil⟩

/-- The keys may be read under the twin. -/
theorem setKeyKind (h : t.Filed C) {k : Kind} (hk : k.base = t.keyKind.base) :
    (t.setKeyKind k).Filed C where
  accepted r hr := (Kind.accepts_congr hk r.key).trans (h.accepted r hr)
  placed r hr := (h.placed r hr).trans (@bucketOf_congr C t (t.setKeyKind k) hk.symm rfl r.key)
  increasing := h.increasing.imp fun hrs hb => by
    rw [show (t.setKeyKind k).keyKind = k from rfl, Kind.order_congr hk]
    exact hrs hb
  aged := h.aged.imp fun hrs hb heq => by
    rw [show (t.setKeyKind k).keyKind = k from rfl, Kind.order_congr hk] at heq
    exact hrs hb heq

end Filed

/-! ## Along a history -/

/-- An operation that keeps the base of the keys leaves a table with keys of that base. -/
theorem Change.base_eq {op : Operation} (h : Change C t op u)
    (hop : op.KeepsBase t.keyKind.base) : u.keyKind.base = t.keyKind.base := by
  cases h with
  | setKeyKind k => exact hop k rfl
  | _ => rfl

/-- A change keeps rows where they belong, if the keys after it can be ordered. -/
theorem Change.filed {op : Operation} (h : Change C t op u) (hs : t.Shaped)
    (hop : op.KeepsBase t.keyKind.base) (hu : C.Orders u.Mentions) (ht : t.Filed C) : u.Filed C := by
  cases h with
  | none => exact ht
  | @insert op e key _ _ hk _ =>
    -- the keys to be compared are the old ones and the new one, all of them in the new table
    refine ht.insert hs hu (fun r hr => ?_) ?_ hk
    · exact Mentions.within (t := t.insert C e) ((hs.mem_insert e).2 (.inr hr))
    · exact Mentions.within (t := t.insert C e) (r := t.newRow C e) ((hs.mem_insert e).2 (.inl rfl))
  | erase _ handle => exact ht.erase handle
  | modify _ handle change key bucket name => exact ht.modify handle key bucket name
  | clear => exact .clear
  | setKeyKind k => exact ht.setKeyKind (hop k rfl)

/-- And so does a history of such operations. -/
theorem run_base (t : Table Datum) {ops : List Operation}
    (hops : ∀ op ∈ ops, op.KeepsBase t.keyKind.base) :
    (t.run C ops).keyKind.base = t.keyKind.base := by
  have keeps : ∀ (u : Table Datum) (op : Operation), op.KeepsBase t.keyKind.base →
      u.keyKind.base = t.keyKind.base → (u.perform C op).1.keyKind.base = t.keyKind.base := by
    intro u op hop hu
    rw [(perform_change u op).base_eq (hu ▸ hop), hu]
  exact runWith_induction keeps hops rfl

/-- Keys that are neither lists nor tables can be ordered at every moment. -/
theorem orders_run (hlist : t.keyKind.base ≠ .list) (htable : t.keyKind.base ≠ .table)
    (hextension : ∀ id, t.keyKind.base = .extension id → (C.extension id).Ordered)
    {ops : List Operation} (hops : ∀ op ∈ ops, op.KeepsBase t.keyKind.base) :
    C.Orders (t.run C ops).Mentions := by
  have hbase := run_base (C := C) t hops
  -- the table mentions the base of its keys and no other
  have single : ∀ b, (t.run C ops).Mentions b → b = t.keyKind.base := by
    intro b hb
    rw [← hbase] at hlist htable ⊢
    exact hb.eq_base hlist htable
  refine ⟨fun a b ha hb _ _ _ => (single a ha).trans (single b hb).symm, fun id hid => ?_⟩
  exact hextension id (single _ hid).symm

/-- Rows stay where they belong, if the keys can be ordered at every moment of a history. -/
theorem Filed.run (h : t.Filed C) (hs : t.Shaped) {ops : List Operation}
    (hops : ∀ op ∈ ops, op.KeepsBase t.keyKind.base)
    (hP : ∀ first, first <+: ops → C.Orders (t.run C first).Mentions) : (t.run C ops).Filed C := by
  -- step by step, since the keys have to be ordered at every moment
  induction ops generalizing t with
  | nil => exact h
  | cons op ops ih =>
    have hchange := perform_change (C := C) t op
    have hop := hops op List.mem_cons_self
    have hbase := hchange.base_eq hop
    have hafter := hchange.filed hs hop (hP [op] ⟨ops, rfl⟩) h
    refine @ih (t.perform C op).1 hafter (hchange.shaped hs) (fun op' h' => ?_) fun first hfirst => ?_
    · rw [hbase]
      exact hops op' (List.mem_cons_of_mem _ h')
    · exact hP (op :: first) ((List.prefix_cons_inj op).2 hfirst)

/-- Putting entries in takes no key away. -/
theorem Mentions.run_add (hs : t.Shaped) (added : List (Entry Datum)) {b : Base}
    (h : t.Mentions b) : (t.run C (added.map .add)).Mentions b := by
  -- an entry that is refused leaves the table, and one that is put in leaves the rows it had
  induction added generalizing t with
  | nil => exact h
  | cons e added ih =>
    rw [List.map_cons, run_cons, perform_add]
    cases hadd : t.add C e with
    | error fault => exact ih hs h
    | ok u =>
      obtain ⟨-, -, rfl⟩ := add_eq_ok hadd
      refine ih (hs.insert e) ?_
      rcases h with h | ⟨r, hr, hb⟩
      · exact .inl h
      · exact .inr ⟨r, (hs.mem_insert e).2 (.inr hr), hb⟩

/-- A table into which entries were put, and nothing else was done to it, has its rows where they
belong. -/
theorem filed_run_add {keyKind : Kind} {wanted : Nat} {added : List (Entry Datum)}
    (hP : C.Orders ((Table.empty keyKind wanted).run C (added.map .add)).Mentions) :
    ((Table.empty keyKind wanted).run C (added.map .add)).Filed C := by
  have hs : (Table.empty keyKind wanted : Table Datum).Shaped := .empty keyKind wanted
  refine (Filed.empty keyKind wanted).run hs (fun op hop => ?_) fun first hfirst => hP.mono ?_
  · obtain ⟨e, -, rfl⟩ := List.mem_map.1 hop
    intro k hk
    cases hk
  · -- what was mentioned on the way is mentioned in the end
    obtain ⟨rest, hrest⟩ := hfirst
    obtain ⟨before, after, rfl, rfl, rfl⟩ := List.map_eq_append_iff.1 hrest.symm
    intro b hb
    rw [List.map_append, run_append]
    exact hb.run_add (hs.run _) after

/-- Tables start out with their rows where they belong. -/
theorem Source.filed (h : Source C t) (hP : C.Orders t.Mentions) : t.Filed C := by
  obtain ⟨keyKind, wanted, added, rfl⟩ := h.exists_history
  exact filed_run_add hP

end Table

end OrderedTable
