import OrderedTable.Proofs.Table.Alongside
import OrderedTable.Proofs.Table.Copies

/-!
# Tables and lists

A table is made of a whole list without a loss: every entry is put in, those with equal keys stay in their order, and
a key finds the first of them. Lists among the values become tables in their turn (`Entry.tabled`). A whole table is
written into a list and made of it again as it was, if it has as many buckets as its entries ask for and no list among
its values (`Table.list_conversion`).

What is put in are copies. They go where the entries themselves would go (`Table.Alongside.addAll`), and of these it
is known how they are gathered (`Table.gathered_addAll`).
-/

namespace OrderedTable

variable {C : Catalogue}

/-- An entry with a nested list has the table of that list instead, under the kind of tables. -/
def Entry.tabled (C : Catalogue) (e : Entry Datum) : Entry Datum :=
  match e.value with
  | .list l => ⟨e.key, .table (.ofListing C l), .table⟩
  | _ => e

/-- Where a value is accepted by a built-in kind, all that compare as equal with it are. -/
theorem Kind.accepts_of_order_eq {k : Kind} {a b : Datum} (hk : Builtin k.base) (h : k.order C a b = .eq)
    (ha : k.accepts C a = true) : k.accepts C b = true := by
  have views : ∀ {α : Type} {order : α → α → Ordering} {x y : Option α},
      orderViews order x y = .eq → x.isSome = true → y.isSome = true := by
    intro α order x y hxy hx
    rcases orderViews_eq_eq hxy with ⟨rfl, -⟩ | ⟨a, b, -, rfl, -⟩
    · cases hx
    · rfl
  -- by whether the values have parts, which is so of both or of none
  cases hpa : k.parts? a with
  | some p =>
    cases hpb : k.parts? b with
    | some q => exact accepts_parts hpb
    | none => rw [order_parts_leaf hpa hpb] at h; cases h
  | none =>
    rw [order_of_leaf hpa, orderLeaf] at h
    rw [accepts] at ha ⊢
    cases hb : k.base with
    | scalar s => rw [hb] at h ha; exact views h ha
    | text caseBlind => rw [hb] at h ha; exact views h ha
    | bytes => rw [hb] at h ha; exact views h ha
    | list => rw [hb, list?_eq_none_of_parts? hpa hb] at ha; cases ha
    | table => rw [hb, table?_eq_none_of_parts? hpa hb] at ha; cases ha
    | extension id => exact absurd (hb ▸ hk) (not_builtin_extension id)

/-! ## What is put in -/

/-- What an entry is put in as: the same but for its storage and a nested list, and whole. -/
structure Entry.TakenAs (C : Catalogue) (K : Kind) (e e' : Entry Datum) : Prop where
  alike : Entry.Alike .exact (e.tabled C) e'
  key : K.Whole C (Table.Steady C) e'.key
  value : e'.kind.Whole C (Table.Steady C) e'.value

namespace Entry

variable {K : Kind} {e : Entry Datum}

/-- An entry that has no nested list is copied. -/
theorem taken_of_not_list (h : ∀ l, e.value ≠ .list l) :
    e.taken C K = (e.copied C K).toOption ∧ e.tabled C = e := by
  rw [taken, tabled]
  cases hv : e.value with
  | list l => exact absurd hv (h l)
  | _ => exact ⟨rfl, rfl⟩

/-- The key is kept. -/
theorem key_tabled (e : Entry Datum) : (e.tabled C).key = e.key := by
  rw [tabled]
  split <;> rfl

/-- An entry with a whole key and a whole value is copied. -/
theorem exists_copies (hkey : K.Whole C (Table.Steady C) e.key)
    (hvalue : e.kind.Whole C (Table.Steady C) e.value) : ∃ e', e.Copies C K e' := by
  obtain ⟨key, hkey⟩ := hkey.exists_copy
  obtain ⟨value, hvalue⟩ := hvalue.exists_copy
  exact ⟨⟨key, value, e.kind⟩, hkey, hvalue, rfl⟩

/-- Every entry with a whole key and a whole value is put in. -/
theorem exists_taken (hkey : K.Whole C (Table.Steady C) e.key)
    (hvalue : e.kind.Whole C (Table.Steady C) e.value)
    (htables : ∀ l, e.value = .list l → Kind.table.Whole C (Table.Steady C) (.table (.ofListing C l))) :
    ∃ e', e.taken C K = some e' ∧ e.TakenAs C K e' := by
  -- a nested list is made into its table, and all else is copied
  by_cases hlist : ∃ l, e.value = .list l
  · obtain ⟨l, hl⟩ := hlist
    have htable := htables l hl
    obtain ⟨key, hcopy, halike, hwhole⟩ := hkey.exists_copy
    refine ⟨⟨key, .table (.ofListing C l), .table⟩, ?_, ?_, hwhole, htable⟩
    · rw [taken, hl, hcopy]
      rfl
    · rw [tabled, hl]
      exact ⟨htable.within.1, rfl, halike, htable.alike_self⟩
  · obtain ⟨htaken, htabled⟩ := taken_of_not_list (C := C) (K := K) (not_exists.1 hlist)
    obtain ⟨e', he'⟩ := exists_copies hkey hvalue
    refine ⟨e', ?_, ?_, he'.whole.1, he'.whole.2⟩
    · rw [htaken, he'.copied]
      rfl
    · rw [htabled]
      exact he'.alike

end Entry

/-- The table that is made of a whole list is whole. -/
theorem Kind.Whole.ofListing {k : Kind} {d : Datum} (h : k.Whole C (Table.Steady C) d) {l : Listing Datum}
    (hd : d = .list l) : Kind.table.Whole C (Table.Steady C) (.table (.ofListing C l)) := by
  -- along the list, so that nested lists are made into whole tables first
  induction h generalizing l with
  | @leaf k d builtin flat accepted =>
    have hleaf := isLeaf_of_accepts builtin flat.1 flat.2 accepted
    rw [hd] at hleaf
    cases hleaf.1
  | @parts k d p parts keyKind tables key value _ ihvalue =>
    rcases parts?_eq_some parts with ⟨-, m, hm, rfl⟩ | ⟨-, t, ht, -⟩
    · rw [hd] at hm
      obtain rfl : l = m := Option.some.inj hm
      have htaken := forall₂_filterMap fun e he =>
        Entry.exists_taken (key e he) (value e he) fun l hl => ihvalue e he hl
      rw [Table.ofListing_eq_addAll]
      refine .addAll keyKind (fun e' he' => ?_) _
      obtain ⟨e, -, he⟩ := exists_of_forall₂ htaken he'
      exact ⟨he.key, he.value⟩
    · rw [hd] at ht
      cases ht

/-- A value under no kind of lists is no list. -/
theorem Kind.Whole.ne_list {ok : Table Datum → Prop} {k : Kind} {d : Datum} (h : k.Whole C ok d)
    (hk : k.base ≠ .list) (l : Listing Datum) : d ≠ .list l := by
  rintro rfl
  cases h with
  | leaf builtin flat accepted => cases (isLeaf_of_accepts builtin flat.1 flat.2 accepted).1
  | parts parts =>
    rcases parts?_eq_some parts with ⟨hlist, -⟩ | ⟨-, t, ht, -⟩
    · exact hk hlist
    · cases ht

namespace Table

variable {t : Table Datum}

/-- A whole table has its rows where they belong. -/
theorem kept_of_whole (h : Kind.table.Whole C (Table.Steady C) (.table t)) : t.Kept C Builtin := by
  obtain ⟨hsteady, hk, hkey, -⟩ := h.table_inv rfl rfl
  refine ⟨hk, hsteady.shaped, hsteady.filed C.ranks_builtin fun e he => (hkey e he).within, fun r hr => ?_⟩
  exact (hkey r.toEntry (List.mem_map_of_mem hr)).within

/-- In a whole table a key finds the first entry with an equal key. -/
theorem find?_of_whole (h : Kind.table.Whole C (Table.Steady C) (.table t)) (key : Datum) :
    (t.find? C key).map Row.toEntry = t.entries.find? fun e => t.keyKind.order C e.key key.peel = .eq := by
  obtain ⟨-, hk, hkey, -⟩ := h.table_inv rfl rfl
  rw [(kept_of_whole h).find?_eq_of_ranks C.lawful_builtin C.ranks_builtin]
  split
  · rfl
  · next haccepts =>
    -- an entry with a key equal to this would have it accepted
    refine (List.find?_eq_none.2 fun e he heq => haccepts ?_).symm
    exact Kind.accepts_of_order_eq hk (of_decide_eq_true heq) (hkey e he).accepted

/-- A whole table is written into a list entry by entry. -/
theorem toListing_copies (h : Kind.table.Whole C (Table.Steady C) (.table t)) :
    (t.toListing C).keyKind = t.keyKind ∧
      List.Forall₂ (Entry.Copies C t.keyKind) t.entries (t.toListing C).entries := by
  obtain ⟨-, -, hkey, hvalue⟩ := h.table_inv rfl rfl
  have hcopies := Entry.Copies.forall₂ fun e he => Entry.exists_copies (hkey e he) (hvalue e he)
  rw [← Kind.entries_map] at hcopies
  exact ⟨rfl, hcopies⟩

/-! ## A table made of a list -/

/-- The entries that a list would have put into a table, with the tables of its nested lists. -/
theorem gathered_tabled {l : Listing Datum} (h : Kind.list.Whole C (Table.Steady C) (.list l)) :
    ∃ u : Table Datum, u.Gathered C l.keyKind (l.entries.map (Entry.tabled C)) ∧
      u.Alongside .exact (ofListing C l) := by
  obtain ⟨hk, hkey, hvalue⟩ := h.list_inv rfl rfl
  have hC := C.respects_exact
  have taken : ∀ e ∈ l.entries, ∃ e', e.taken C l.keyKind = some e' ∧ e.TakenAs C l.keyKind e' :=
    fun e he => Entry.exists_taken (hkey e he) (hvalue e he) fun m hm => (hvalue e he).ofListing hm
  have halike : List.Forall₂ (Entry.Alike .exact) (l.entries.map (Entry.tabled C))
      (l.entries.filterMap (Entry.taken C l.keyKind)) :=
    List.forall₂_map_left_iff.2 ((forall₂_filterMap taken).imp fun _ _ htaken => htaken.alike)
  have hkeys : ∀ f ∈ l.entries.map (Entry.tabled C), l.keyKind.Whole C (Table.Steady C) f.key := by
    intro f hf
    obtain ⟨e, he, rfl⟩ := List.mem_map.1 hf
    rw [Entry.key_tabled]
    exact hkey e he
  have haccepts : ∀ f ∈ l.entries.map (Entry.tabled C),
      l.keyKind.accepts C f.key = true ∧ f.kind.accepts C f.value = true := by
    intro f hf
    refine ⟨(hkeys f hf).accepted, ?_⟩
    obtain ⟨e, he, rfl⟩ := List.mem_map.1 hf
    obtain ⟨e', -, htaken⟩ := taken e he
    have hbase := Likeness.exact.base_eq htaken.alike.kind
    exact (htaken.alike.value.accepts_eq hC hbase htaken.alike.keeps).trans htaken.value.accepted
  -- the table of the list is filled alongside one that takes the entries themselves
  have hstart : (Table.empty l.keyKind l.entries.length).Alongside .exact (.empty l.keyKind l.entries.length) :=
    ⟨rfl, rfl, .nil⟩
  refine ⟨_, gathered_addAll C.lawful_builtin C.ranks_builtin hk (fun f hf => (hkeys f hf).within) haccepts, ?_⟩
  rw [ofListing_eq_addAll, List.length_map]
  exact hstart.addAll C.lawful_builtin hC hk halike haccepts

/-- A table that was made of a list without a loss: it has the kind of keys and as many buckets as the list asks
for. Written into a list again, it has the entries of the list, those with equal keys in their order; and a key finds
the first entry with an equal key. -/
structure MadeOf (C : Catalogue) (t : Table Datum) (l : Listing Datum) : Prop where
  keyKind : t.keyKind = l.keyKind
  capacity : t.capacity = max l.entries.length minCapacity
  listedKind : (t.toListing C).keyKind = l.keyKind
  listed : ∃ es : List (Entry Datum), es.Perm (l.entries.map (Entry.tabled C)) ∧
    (∀ key, es.filter (fun e => l.keyKind.order C e.key key = .eq) =
      (l.entries.map (Entry.tabled C)).filter fun e => l.keyKind.order C e.key key = .eq) ∧
    List.Forall₂ (Entry.Alike .exact) es (t.toListing C).entries
  finds : ∀ key, Option.Rel (Entry.Alike .exact)
    ((l.entries.map (Entry.tabled C)).find? fun e => l.keyKind.order C e.key key.peel = .eq)
    ((t.find? C key).map Row.toEntry)

/-- A whole list is made into a table without a loss. -/
theorem madeOf_ofListing {l : Listing Datum} (h : Kind.list.Whole C (Table.Steady C) (.list l)) :
    (ofListing C l).MadeOf C l := by
  obtain ⟨u, hgathered, hbeside⟩ := gathered_tabled h
  have hwhole := h.ofListing rfl
  have hfields := addAll_fields (C := C) (.empty l.keyKind l.entries.length)
    (l.entries.filterMap (Entry.taken C l.keyKind))
  rw [← ofListing_eq_addAll] at hfields
  obtain ⟨hkeyKind, hcapacity⟩ : (ofListing C l).keyKind = l.keyKind ∧
    (ofListing C l).capacity = max l.entries.length minCapacity := hfields
  obtain ⟨hlisted, hcopies⟩ := toListing_copies hwhole
  obtain ⟨hk, -⟩ := h.list_inv rfl rfl
  refine ⟨hkeyKind, hcapacity, hlisted.trans hkeyKind,
    ⟨u.entries, hgathered.holds, hgathered.stable, ?_⟩, fun key => ?_⟩
  · exact forall₂_comp (fun e f g hef hfg => hef.trans hfg.alike) hbeside.entries hcopies
  · -- the first entry with a key is the same in both, as entries with equal keys keep their order
    have hfirst : (l.entries.map (Entry.tabled C)).find? (fun e => l.keyKind.order C e.key key.peel = .eq) =
        u.entries.find? fun e => l.keyKind.order C e.key key.peel = .eq := by
      rw [← List.head?_filter, ← List.head?_filter, hgathered.stable]
    rw [find?_of_whole hwhole, hfirst, hkeyKind]
    refine find?_rel (fun e f hef => ?_) hbeside.entries
    rw [hef.key.order_left C.respects_exact hk]

/-! ## There and back -/

/-- A whole table with as many buckets as its entries ask for and no list among its values, written into a list and
made of it again. -/
theorem ofListing_toListing (h : Kind.table.Whole C (Table.Steady C) (.table t))
    (hcapacity : t.capacity = max t.size minCapacity) (hlists : ∀ e ∈ t.entries, e.kind.base ≠ .list) :
    Datum.Alike .exact (.table t) (.table (ofListing C (t.toListing C))) := by
  obtain ⟨hsteady, hk, hkey, hvalue⟩ := h.table_inv rfl rfl
  obtain ⟨hkeyKind, hcopies⟩ := toListing_copies h
  have taken : ∀ f ∈ (t.toListing C).entries, ∃ g, f.taken C t.keyKind = some g ∧ Entry.Alike .exact f g := by
    intro f hf
    obtain ⟨e, he, hcopy⟩ := exists_of_forall₂ hcopies hf
    obtain ⟨hfkey, hfvalue⟩ := hcopy.whole
    have hplain := hfvalue.ne_list (hcopy.kind ▸ hlists e he)
    obtain ⟨g, hg⟩ := Entry.exists_copies hfkey hfvalue
    refine ⟨g, ?_, hg.alike⟩
    rw [(Entry.taken_of_not_list hplain).1, hg.copied]
    rfl
  have halike := forall₂_comp (fun e f g hef hfg => hef.alike.trans hfg) hcopies (forall₂_filterMap taken)
  obtain ⟨pairs, hfirsts, hseconds, hpairs⟩ := exists_pairs_of_forall₂ halike
  -- as many buckets are asked for as the table had
  have hbuckets : (Table.empty t.keyKind (t.toListing C).entries.length : Table Datum).capacity = t.capacity := by
    rw [hcapacity, ← hcopies.length_eq, entries, List.length_map]
    rfl
  have hfiled := (kept_of_whole h).filed
  rw [ofListing_eq_addAll, hkeyKind, hseconds]
  exact (hfiled.refilled hsteady.shaped hk hbuckets hfirsts hpairs fun e he => (hvalue e he).accepted).2

/-- Lists of built-in kinds throughout, with keys and values that their kinds accept, and tables in them whose keys
were read under one base, are made into tables without a loss, and so at every level of nested lists. Tables of that
sort, with as many buckets as their entries ask for and no list among their values, are written into lists and made of
these again as they were. -/
theorem list_conversion (C : Catalogue) :
    (∀ l : Listing Datum, Kind.list.Whole C (Table.Steady C) (.list l) → (ofListing C l).MadeOf C l) ∧
      ∀ t : Table Datum, Kind.table.Whole C (Table.Steady C) (.table t) →
        t.capacity = max t.size minCapacity → (∀ e ∈ t.entries, e.kind.base ≠ .list) →
          Datum.Alike .exact (.table t) (.table (ofListing C (t.toListing C))) :=
  ⟨fun _ h => madeOf_ofListing h, fun _ h hcapacity hlists => ofListing_toListing h hcapacity hlists⟩

/-- A list with two entries under equal keys, the first of which holds a list, and a table that holds a table. -/
theorem list_conversion_nested :
    let C := Catalogue.specimens
    let number (n : Nat) : Datum := .scalar (.int .i32 n)
    let l : Listing Datum := ⟨.text, [⟨.ofText "b", number 1, .i32⟩,
      ⟨.ofText "a", .list ⟨.i32, [⟨number 7, number 2, .i32⟩]⟩, .list⟩, ⟨.boxed (.ofText "a"), number 3, .i32⟩]⟩
    let inner := (Table.empty .i32 100).addAll C [⟨number 7, number 2, .i32⟩, ⟨number 7, number 3, .i32⟩]
    let t := (Table.empty .i32 0).addAll C [⟨number 9, .table inner, .table⟩, ⟨number 8, number 4, .i32⟩]
    Kind.list.Whole C (Table.Steady C) (.list l) ∧ (ofListing C l).MadeOf C l ∧
      Kind.table.Whole C (Table.Steady C) (.table t) ∧ t.capacity = max t.size minCapacity ∧
      (∀ e ∈ t.entries, e.kind.base ≠ .list) ∧
      Datum.Alike .exact (.table t) (.table (ofListing C (t.toListing C))) := by
  intro C number l inner t
  have hi32 : Builtin Kind.i32.base := by decide
  have htext : Builtin Kind.text.base ∧ Kind.text.base.Flat := by decide
  have hnumber : ∀ n, Kind.i32.Whole C (Table.Steady C) (number n) := fun n => .scalar rfl hi32 rfl
  have hl : Kind.list.Whole C (Table.Steady C) (.list l) := by
    have hnested : Kind.list.Whole C (Table.Steady C) (.list ⟨.i32, [⟨number 7, number 2, .i32⟩]⟩) := by
      refine .of_list rfl rfl hi32 (fun e he => ?_) fun e he => ?_
      · obtain rfl := List.mem_singleton.1 he
        exact hnumber 7
      · obtain rfl := List.mem_singleton.1 he
        exact hnumber 2
    refine .of_list rfl rfl htext.1 (fun e he => ?_) fun e he => ?_
    · simp only [l, List.mem_cons, List.not_mem_nil, or_false] at he
      rcases he with rfl | rfl | rfl <;> exact .leaf htext.1 htext.2 rfl
    · simp only [l, List.mem_cons, List.not_mem_nil, or_false] at he
      rcases he with rfl | rfl | rfl
      · exact hnumber 1
      · exact hnested
      · exact hnumber 3
  -- the table inside has more buckets than it asks for, and two entries under equal keys
  have hinner : Kind.table.Whole C (Table.Steady C) (.table inner) := by
    refine .addAll hi32 (fun e he => ?_) 100
    simp only [List.mem_cons, List.not_mem_nil, or_false] at he
    rcases he with rfl | rfl
    · exact ⟨hnumber 7, hnumber 2⟩
    · exact ⟨hnumber 7, hnumber 3⟩
  have ht : Kind.table.Whole C (Table.Steady C) (.table t) := by
    refine .addAll hi32 (fun e he => ?_) 0
    simp only [List.mem_cons, List.not_mem_nil, or_false] at he
    rcases he with rfl | rfl
    · exact ⟨hnumber 9, hinner⟩
    · exact ⟨hnumber 8, hnumber 4⟩
  have hcapacity : t.capacity = max t.size minCapacity := by decide +kernel
  have hlists : ∀ e ∈ t.entries, e.kind.base ≠ .list := by
    intro e he
    have he := mem_entries_addAll he
    simp only [List.mem_cons, List.not_mem_nil, or_false] at he
    rcases he with rfl | rfl <;> exact nofun
  exact ⟨hl, (list_conversion C).1 l hl, ht, hcapacity, hlists, (list_conversion C).2 t ht hcapacity hlists⟩

/-- A key that is a list with a value that its kind does not accept is not copied whole, so that it is not found in
the table that is made of a list. And a table that holds one with its rows in the wrong order is not made again as it
was. -/
theorem list_conversion_loses :
    let C := Catalogue.specimens
    let number (n : Nat) : Datum := .scalar (.int .i32 n)
    let key : Datum := .list ⟨.i32, [⟨number 1, .ofText "x", .i32⟩]⟩
    let l : Listing Datum := ⟨.list, [⟨key, number 5, .i32⟩]⟩
    (l.keyKind.accepts C key = true ∧ Kind.i32.accepts C (number 5) = true ∧
      l.keyKind.order C key key = .eq ∧ ((ofListing C l).find? C key).isNone) ∧
    holder.Steady C ∧ Kind.table.Whole C (Table.Reachable C) (.table holder) ∧
      holder.capacity = max holder.size minCapacity ∧ (∀ e ∈ holder.entries, e.kind.base ≠ .list) ∧
      ¬ Datum.Alike .exact (.table holder) (.table (ofListing C (holder.toListing C))) := by
  intro C number key l
  have hwhole : Kind.table.Whole C (Table.Reachable C) (.table holder) :=
    whole_holder reachable_misfiled steady_holder.reachable
  have hlists : ∀ e ∈ holder.entries, e.kind.base ≠ .list := by
    intro e he
    obtain rfl := List.mem_singleton.1 (mem_entries_addAll he)
    exact nofun
  have horder : holder.order C (ofListing C (holder.toListing C)) ≠ .eq := by decide +kernel
  -- the key is accepted, as it is a list, though the value in it is not
  refine ⟨by decide +kernel, steady_holder, hwhole, by decide +kernel, hlists, fun halike => horder ?_⟩
  -- what is alike compares as equal
  have hbuiltin : Builtin Kind.table.base := by decide
  rw [← Kind.order_table, ← halike.order_right C.respects_exact hbuiltin]
  exact Kind.order_self C.lawful_builtin.toOrders hwhole.within

end Table

end OrderedTable
