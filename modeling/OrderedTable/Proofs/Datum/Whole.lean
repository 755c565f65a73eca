import OrderedTable.Proofs.Datum.Exact
import OrderedTable.Proofs.Table.Gathering
import OrderedTable.Proofs.Table.Grading

/-!
# Whole values

A value is *whole* if all kinds in it are built in and every key and value, at every level, is accepted by its kind;
of the tables in it something more may be asked (`Kind.Whole`), most often that they are `Table.Steady`. A table that
is filled with whole entries is whole (`Kind.Whole.addAll`).
-/

namespace OrderedTable

/-- A value of built-in kinds throughout that its kind accepts, and so with all keys and values in it. Of tables
in it, itself among them, the property `ok` is asked. -/
inductive Kind.Whole (C : Catalogue) (ok : Table Datum → Prop) : Kind → Datum → Prop
  | leaf {k : Kind} {d : Datum} (builtin : Builtin k.base) (flat : k.base.Flat)
      (accepted : k.accepts C d = true) : Whole C ok k d
  | parts {k : Kind} {d : Datum} {p : Parts} (parts : k.parts? d = some p) (keyKind : Builtin p.keyKind.base)
      (tables : ∀ t, d.table? = some t → ok t) (key : ∀ e ∈ p.entries, Whole C ok p.keyKind e.key)
      (value : ∀ e ∈ p.entries, Whole C ok e.kind e.value) : Whole C ok k d

variable {C : Catalogue} {ok : Table Datum → Prop} {k : Kind} {d d' : Datum}

namespace Kind.Whole

/-- Built-in kinds are all that a whole value mentions. -/
theorem within (h : k.Whole C ok d) : k.Within Builtin d := by
  induction h with
  | @leaf k d builtin flat => exact flat.within builtin d
  | @parts k d p parts keyKind _ _ _ _ ihvalue =>
    refine .of_parts parts ?_ keyKind ihvalue
    rcases parts?_eq_some parts with ⟨hk, -⟩ | ⟨hk, -⟩ <;> exact hk ▸ by decide

/-- A whole value is accepted by its kind. -/
theorem accepted (h : k.Whole C ok d) : k.accepts C d = true := by
  cases h with
  | leaf _ _ accepted => exact accepted
  | parts parts => exact accepts_parts parts

/-- A list is whole if its keys and values are. -/
theorem of_list {l : Listing Datum} (hk : k.base = .list) (hd : d.list? = some l)
    (keyKind : Builtin l.keyKind.base) (key : ∀ e ∈ l.entries, l.keyKind.Whole C ok e.key)
    (value : ∀ e ∈ l.entries, e.kind.Whole C ok e.value) : k.Whole C ok d := by
  refine .parts (parts?_of_list hk hd) keyKind (fun t ht => ?_) key value
  rcases Datum.list?_eq_some_iff.1 hd with rfl | rfl <;> cases ht

/-- A table is whole if it is fit and its keys and values are whole. -/
theorem of_table {t : Table Datum} (hk : k.base = .table) (hd : d.table? = some t) (fit : ok t)
    (keyKind : Builtin t.keyKind.base) (key : ∀ e ∈ t.entries, t.keyKind.Whole C ok e.key)
    (value : ∀ e ∈ t.entries, e.kind.Whole C ok e.value) : k.Whole C ok d := by
  refine .parts (parts?_of_table hk hd) keyKind (fun u hu => ?_) key value
  cases hd.symm.trans hu
  exact fit

/-- What makes a table a whole value. -/
theorem table_inv {t : Table Datum} (h : k.Whole C ok d) (hk : k.base = .table) (hd : d.table? = some t) :
    ok t ∧ Builtin t.keyKind.base ∧ (∀ e ∈ t.entries, t.keyKind.Whole C ok e.key) ∧
      ∀ e ∈ t.entries, e.kind.Whole C ok e.value := by
  cases h with
  | leaf _ flat => exact absurd hk flat.2
  | parts parts keyKind tables key value =>
    cases (parts?_of_table hk hd).symm.trans parts
    exact ⟨tables t hd, keyKind, key, value⟩

/-- What makes a list a whole value. -/
theorem list_inv {l : Listing Datum} (h : k.Whole C ok d) (hk : k.base = .list) (hd : d.list? = some l) :
    Builtin l.keyKind.base ∧ (∀ e ∈ l.entries, l.keyKind.Whole C ok e.key) ∧
      ∀ e ∈ l.entries, e.kind.Whole C ok e.value := by
  cases h with
  | leaf _ flat => exact absurd hk flat.1
  | parts parts keyKind _ key value =>
    cases (parts?_of_list hk hd).symm.trans parts
    exact ⟨keyKind, key, value⟩

/-- A whole value is alike to itself. -/
theorem alike_self (h : k.Whole C ok d) : Datum.Alike .exact d d := by
  have form : ∀ d, Likeness.exact.form d d := by
    intro d t u ht hu
    cases ht.symm.trans hu
    exact ⟨rfl, rfl⟩
  induction h with
  | leaf builtin flat accepted =>
    have hleaf := isLeaf_of_accepts builtin flat.1 flat.2 accepted
    exact .leaf hleaf hleaf (.of_peel rfl) (form _)
  | @parts k d p parts keyKind _ _ value ihkey ihvalue =>
    refine .of_entries k parts parts ⟨keyKind, rfl⟩ (List.forall₂_same.2 fun e he => ?_) (form _)
    exact ⟨(value e he).within.1, rfl, ihkey e he, ihvalue e he⟩

end Kind.Whole

/-! ## Tables -/

/-- A table that is filled with whole entries is whole. -/
theorem Kind.Whole.addAll {K : Kind} {es : List (Entry Datum)} (hK : Builtin K.base)
    (hes : ∀ e ∈ es, K.Whole C (Table.Steady C) e.key ∧ e.kind.Whole C (Table.Steady C) e.value)
    (wanted : Nat) :
    Kind.table.Whole C (Table.Steady C) (.table ((Table.empty K wanted).addAll C es)) := by
  obtain ⟨p, hp, rfl, hentries⟩ := Table.exists_parts_addAll C K wanted es
  refine .parts hp hK (fun t ht => ?_) (fun e he => (hes e (hentries e he)).1) fun e he =>
    (hes e (hentries e he)).2
  obtain rfl := Option.some.inj ht
  exact .addAll C p.keyKind wanted es

/-- A value that a kind of scalars accepts is whole. -/
theorem Kind.Whole.scalar {s : ScalarKind} (hk : k.base = .scalar s) (hbuiltin : Builtin k.base)
    (accepted : k.accepts C d = true) : k.Whole C ok d :=
  .leaf hbuiltin ⟨by simp [hk], by simp [hk]⟩ accepted

/-- A table of numbers by number is whole. -/
theorem Kind.Whole.numbers {t : Table Datum} (fit : ok t) (hk : t.keyKind = .i32)
    (h : t.entries.all (fun e => Kind.i32.accepts C e.key && decide (e.kind = .i32) &&
      Kind.i32.accepts C e.value) = true) : Kind.table.Whole C ok (.table t) := by
  have hentry : ∀ e ∈ t.entries, Kind.i32.Whole C ok e.key ∧ e.kind.Whole C ok e.value := by
    intro e he
    have haccepted := List.all_eq_true.1 h e he
    simp only [Bool.and_eq_true, decide_eq_true_eq] at haccepted
    obtain ⟨⟨hkey, hkind⟩, hvalue⟩ := haccepted
    rw [hkind]
    exact ⟨.scalar rfl (by decide) hkey, .scalar rfl (by decide) hvalue⟩
  refine .of_table rfl rfl fit (by rw [hk]; decide) (fun e he => ?_) fun e he => (hentry e he).2
  rw [hk]
  exact (hentry e he).1

/-- A table that some history led to, whatever its keys were read under on the way. -/
def Table.Reachable (C : Catalogue) (t : Table Datum) : Prop :=
  ∃ (start : Table Datum) (ops : List Operation), start.Source C ∧ t = start.run C ops

/-- Keeping to one base is one way to come about. -/
theorem Table.Steady.reachable {t : Table Datum} (h : t.Steady C) : t.Reachable C := by
  obtain ⟨start, ops, hstart, -, rfl⟩ := h
  exact ⟨start, ops, hstart, rfl⟩

/-- A table of numbers that had text for keys for a while: a text that stood between two numbers left them in the
wrong order. -/
def Table.misfiled : Table Datum :=
  let number (n : Nat) : Datum := .scalar (.int .i32 n)
  (Table.empty .i32 0).run .specimens [.add ⟨number 7, number 1, .i32⟩, .setKeyKind .text,
    .add ⟨.ofText "h", number 2, .i32⟩, .setKeyKind .i32, .add ⟨number 5, number 3, .i32⟩, .setKeyKind .text,
    .remove (.ofText "h"), .setKeyKind .i32]

/-- A table that holds it, and whose own keys were read under one kind all the time. -/
def Table.holder : Table Datum :=
  (Table.empty .i32 0).addAll .specimens [⟨.scalar (.int .i32 1), .table misfiled, .table⟩]

/-- Its history starts from an empty table. -/
theorem Table.reachable_misfiled : misfiled.Reachable .specimens := ⟨_, _, .empty .i32 0, rfl⟩

/-- It was filled and nothing else. -/
theorem Table.steady_holder : holder.Steady .specimens := .addAll .specimens .i32 0 _

/-- Both tables hold what their kinds accept, at every level. -/
theorem Table.whole_holder (inner : ok misfiled) (outer : ok holder) :
    Kind.table.Whole .specimens ok (.table holder) := by
  have hmisfiled : Kind.table.Whole .specimens ok (.table misfiled) :=
    .numbers inner (by decide +kernel) (by decide +kernel)
  have hkeyKind : holder.keyKind = .i32 := (addAll_fields _ _).1
  have hentry : ∀ e ∈ holder.entries, e = ⟨.scalar (.int .i32 1), .table misfiled, .table⟩ :=
    fun e he => List.mem_singleton.1 (mem_entries_addAll he)
  have hi32 : Builtin Kind.i32.base := by decide
  refine .of_table rfl rfl outer (hkeyKind ▸ hi32) (fun e he => ?_) fun e he => ?_
  · rw [hkeyKind, hentry e he]
    exact .scalar rfl hi32 rfl
  · rw [hentry e he]
    exact hmisfiled

end OrderedTable
