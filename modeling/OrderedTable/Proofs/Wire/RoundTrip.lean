import OrderedTable.Proofs.Datum.Whole
import OrderedTable.Proofs.Table.Refiling
import OrderedTable.Proofs.Wire.Written

/-!
# The binary form read back

A table is `Portable` if all kinds in it are built in, every key and value is accepted by its kind, every
table in it had its keys read under one base ever since it was made and is as large as its entries ask for,
and lists and tables do not lie too deep inside one another. Such a table has a binary form, and this form is
read back as a table with the same sequence of keys and values, by copy and in place
(`Table.binary_round_trip`).

Every value travels (`Kind.Portable.travels`), by induction on the levels of nesting. A table that is read
is filled anew, in global order: `Table.Filed.addAll_alike` says that this puts every row where it was. A table
inside another whose keys were read under another kind for a while may have rows elsewhere, and these come back in
another order (`Table.binary_round_trip_reorders`).
-/

namespace OrderedTable

open Wire

/-- A value that can be written and read back, with lists and tables at most so many levels deep. (What
is asked of text holds of all text that the library keeps.) -/
inductive Kind.Portable (C : Catalogue) : (levels : Nat) → Kind → Datum → Prop
  | leaf {levels : Nat} {k : Kind} {d : Datum} (builtin : Builtin k.base) (list : k.base ≠ .list)
      (table : k.base ≠ .table) (accepted : k.accepts C d = true)
      (text : ∀ s, d.peel = .text s → (Utf8.decode? s.bytes).isSome) : Portable C levels k d
  | list {levels : Nat} {k : Kind} {d : Datum} {l : Listing Datum} (base : k.base = .list)
      (seen : d.list? = some l) (keyKind : Builtin l.keyKind.base)
      (key : ∀ e ∈ l.entries, Portable C levels l.keyKind e.key)
      (value : ∀ e ∈ l.entries, Portable C levels e.kind e.value) : Portable C (levels + 1) k d
  | table {levels : Nat} {k : Kind} {d : Datum} {t : Table Datum} (base : k.base = .table)
      (seen : d.table? = some t) (steady : t.Steady C)
      (capacity : t.capacity = max t.size Table.minCapacity) (keyKind : Builtin t.keyKind.base)
      (key : ∀ e ∈ t.entries, Portable C levels t.keyKind e.key)
      (value : ∀ e ∈ t.entries, Portable C levels e.kind e.value) : Portable C (levels + 1) k d

variable {C : Catalogue}

/-! ## Values -/

namespace Kind

variable {levels : Nat} {k : Kind} {d : Datum}

/-- Built-in kinds are all that a portable value mentions. -/
theorem Portable.within (h : k.Portable C levels d) : k.Within Builtin d := by
  induction h with
  | @leaf levels k d builtin list table =>
    exact (within_leaf (parts?_eq_none_of_base list table d)).2 builtin
  | list base seen keyKind _ _ _ ihvalue =>
    exact .of_parts (parts?_of_list base seen) (by rw [base]; decide) keyKind ihvalue
  | table base seen _ _ keyKind _ _ _ ihvalue =>
    exact .of_parts (parts?_of_table base seen) (by rw [base]; decide) keyKind ihvalue

end Kind

section
variable {decode : Decoder} {K : Kind} {body : Bytes} {input : Input} {rest : Bytes}

/-- A block of a table's entries is read as a table with alike entries in the same order. -/
theorem Wire.Body.readTable {t : Table Datum} (h : Body C decode t.keyKind t.entries body)
    (hk : Builtin t.keyKind.base) (hsteady : t.Steady C)
    (hcapacity : t.capacity = max t.size Table.minCapacity)
    (hkeys : ∀ e ∈ t.entries, t.keyKind.Within Builtin e.key) {index : Nat}
    (hindex : C.wireIndex t.keyKind = .ok index) (hsound : input.Sound)
    (hbytes : input.bytes = header index t.entries.length ++ body ++ rest)
    (hlimit : (header index t.entries.length ++ body).length < limit) :
    ∃ block u, Wire.readBlock C decode (tableAdmits C) input = .ok block ∧
      block.toTable C = ⟨u, (header index t.entries.length ++ body).length, none⟩ ∧
      Datum.Alike (C.rebinding input.isInPlace) (.table t) (.table u) ∧ u.capacity = t.capacity := by
  have hC := C.respects_rebinding input.isInPlace
  have hadmits : ∀ e ∈ t.entries, ∀ e', Entry.Alike (C.rebinding input.isInPlace) e e' →
      tableAdmits C t.keyKind.owner e' = true := by
    intro e he e' halike
    obtain ⟨hkey, hvalue⟩ := h.accepted he
    have hbase : t.keyKind.base = t.keyKind.owner.base := rfl
    rw [tableAdmits, ← halike.key.accepts_eq hC hbase hk, hkey,
      ← halike.value.accepts_eq hC ((C.rebinding _).base_eq halike.kind) halike.keeps, hvalue]
    rfl
  obtain ⟨pairs, hfirsts, halike, hread⟩ := h.readBlock (tableAdmits C) hk hindex hsound hbytes hlimit hadmits
  -- as many buckets are asked for as the table had
  have hbuckets : (Table.empty (C.rebound input.isInPlace t.keyKind) t.entries.length :
      Table Datum).capacity = t.capacity := by
    rw [hcapacity, Table.size, Table.entries, List.length_map]
    rfl
  have hentries := (hsteady.filed C.ranks_builtin hkeys).addAll_alike hsteady.shaped C.lawful_builtin
    hC hk (C.base_rebound input.isInPlace t.keyKind).symm hbuckets hfirsts halike
    fun e he => (h.accepted he).2
  refine ⟨_, _, hread, rfl, ?_, (Table.addAll_fields _ _).2.trans hbuckets⟩
  exact .of_pairs Kind.table rfl rfl hfirsts hentries ⟨hk, (Table.addAll_fields _ _).1⟩ halike trivial

/-- A block of a list's entries is read as a list with alike entries in the same order. -/
theorem Wire.Body.readListing {l : Listing Datum} (h : Body C decode l.keyKind l.entries body)
    (hk : Builtin l.keyKind.base) {index : Nat} (hindex : C.wireIndex l.keyKind = .ok index)
    (hsound : input.Sound) (hbytes : input.bytes = header index l.entries.length ++ body ++ rest)
    (hlimit : (header index l.entries.length ++ body).length < limit) :
    ∃ block m, Wire.readBlock C decode (fun _ _ => true) input = .ok block ∧
      block.toListing = ⟨m, (header index l.entries.length ++ body).length, none⟩ ∧
      Datum.Alike (C.rebinding input.isInPlace) (.list l) (.list m) := by
  obtain ⟨pairs, hfirsts, halike, hread⟩ := h.readBlock (fun _ _ => true) hk hindex hsound hbytes
    hlimit fun _ _ _ _ => rfl
  exact ⟨_, _, hread, rfl, .of_pairs Kind.list rfl rfl hfirsts rfl ⟨hk, rfl⟩ halike trivial⟩

end

/-- Every value that is portable travels. -/
theorem Kind.Portable.travels {levels : Nat} {k : Kind} {d : Datum} (h : k.Portable C levels d) :
    ∃ bs, k.Travels C (Kind.decodeWithin C levels) d bs := by
  induction h with
  | @leaf levels k d builtin list table accepted text =>
    exact travels_leaf builtin list table accepted text levels
  | @list levels k d l base seen keyKind key value ihkey ihvalue =>
    obtain ⟨body, hbody⟩ := Body.exists_of_travels ihkey ihvalue
    obtain ⟨index, hindex, -⟩ := C.kindNumbered_wireIndex keyKind
    have hparts := parts?_of_list base seen
    refine ⟨header index l.entries.length ++ body, by rw [base]; decide, ?_,
      hbody.encode_eq hparts rfl rfl hindex, ?_, fun hlimit input rest hsound hbytes => ?_⟩
    · exact accepts_parts hparts
    · rw [List.length_append, length_header]
      exact Nat.add_pos_left (by decide) _
    · obtain ⟨block, m, hread, hlisting, halike⟩ :=
        hbody.readListing keyKind hindex hsound.nested hbytes hlimit
      refine ⟨.list m, ?_, halike.of_parts (k := Kind.list) rfl (parts?_of_list rfl seen)⟩
      have hconsumed := congrArg Decoded.consumed hlisting
      rw [decodeWithin_list (k := k.owner) base, hread, ok_bind, hlisting]
      exact congrArg (fun n => Except.ok (Datum.list m, n)) hconsumed
  | @table levels k d t base seen steady capacity keyKind key value ihkey ihvalue =>
    obtain ⟨body, hbody⟩ := Body.exists_of_travels ihkey ihvalue
    obtain ⟨index, hindex, -⟩ := C.kindNumbered_wireIndex keyKind
    have hparts := parts?_of_table base seen
    refine ⟨header index t.entries.length ++ body, by rw [base]; decide, ?_,
      hbody.encode_eq hparts rfl rfl hindex, ?_, fun hlimit input rest hsound hbytes => ?_⟩
    · exact accepts_parts hparts
    · rw [List.length_append, length_header]
      exact Nat.add_pos_left (by decide) _
    · obtain ⟨block, u, hread, htable, halike, -⟩ := hbody.readTable keyKind steady capacity
        (fun e he => (key e he).within) hindex hsound.nested hbytes hlimit
      refine ⟨.table u, ?_, halike.of_parts (k := Kind.table) rfl (parts?_of_table rfl seen)⟩
      have hconsumed := congrArg Decoded.consumed htable
      rw [decodeWithin_table (k := k.owner) base, hread, ok_bind, htable]
      exact congrArg (fun n => Except.ok (Datum.table u, n)) hconsumed

/-! ## Tables -/

/-- The binary form of a portable table is read back, by copy and in place, as a table with as many
buckets and with the same keys and values in the same order: whole, up to the last byte. The two tables
compare as equal, and have one binary form. (The length of a byte string is always less than `limit`.) -/
theorem Table.binary_round_trip {t : Table Datum} (h : Kind.table.Portable C (maxNesting + 1) (.table t)) :
    ∃ bs, t.encode C = .ok bs ∧ (bs.length < limit →
      ∀ input, input = .copied bs ∨ input = .inPlace bs →
        ∃ d, Table.decode C input = .ok d ∧ d.isComplete = true ∧ d.consumed = bs.length ∧
          Datum.Alike (C.rebinding input.isInPlace) (.table t) (.table d.value) ∧
          d.value.capacity = t.capacity ∧ t.order C d.value = .eq ∧ d.value.order C t = .eq ∧
          d.value.encode C = .ok bs) := by
  have hwithin := h.within
  cases h with
  | leaf _ _ table => exact absurd rfl table
  | list base => cases base
  | @table _ _ _ t' _ seen steady capacity keyKind key value =>
    obtain rfl : t = t' := Option.some.inj seen
    obtain ⟨body, hbody⟩ := Body.exists_of_travels (fun e he => (key e he).travels)
      fun e he => (value e he).travels
    obtain ⟨index, hindex, -⟩ := C.kindNumbered_wireIndex keyKind
    have hencode := (Kind.encode_table t).symm.trans
      (hbody.encode_eq (k := Kind.table) (d := .table t) rfl rfl rfl hindex)
    have hbuiltin : Builtin Kind.table.base := by decide
    refine ⟨header index t.entries.length ++ body, hencode, fun hlimit input hinput => ?_⟩
    have hinput : input.Sound ∧ input.depth = 0 ∧
        input.bytes = header index t.entries.length ++ body ++ [] := by
      rcases hinput with rfl | rfl
      · exact ⟨.copied _, rfl, (List.append_nil _).symm⟩
      · exact ⟨.inPlace _, rfl, (List.append_nil _).symm⟩
    obtain ⟨hsound, hdepth, hbytes⟩ := hinput
    obtain ⟨block, u, hread, htable, halike, hcapacity⟩ := hbody.readTable keyKind steady capacity
      (fun e he => (key e he).within) hindex hsound hbytes hlimit
    have hC := C.respects_rebinding input.isInPlace
    have hself := Kind.order_self C.lawful_builtin.toOrders hwithin
    refine ⟨⟨u, (header index t.entries.length ++ body).length, none⟩, ?_, rfl, rfl, halike, hcapacity,
      ?_, ?_, ?_⟩
    · -- the outermost block is read at depth 0, with all levels left for what lies in it
      have hlevels : ∀ k n, Kind.decode C k (input.advance n) =
          Kind.decodeWithin C maxNesting k (input.advance n) := by
        intro k n
        show Kind.decodeWithin C (maxNesting - input.depth) k _ = _
        rw [hdepth]
        rfl
      rw [Table.decode, readBlock_congr hlevels, hread]
      exact congrArg Except.ok htable
    · rw [← Kind.order_table]
      exact (halike.order_right hC hbuiltin _).symm.trans hself
    · rw [← Kind.order_table]
      exact (halike.order_left hC hbuiltin _).symm.trans hself
    · rw [← Kind.encode_table, ← halike.encode_eq not_builtin_extension rfl hbuiltin,
        Kind.encode_table, hencode]

/-- A scalar that its kind accepts is portable. -/
theorem Kind.Portable.scalar {levels : Nat} {k : Kind} {s : ScalarKind} (hk : k.base = .scalar s)
    (builtin : Builtin k.base) {x : Scalar} (accepted : k.accepts C (.scalar x) = true) :
    k.Portable C levels (.scalar x) :=
  .leaf builtin (by simp [hk]) (by simp [hk]) accepted (by rintro _ ⟨⟩)

/-- Any bytes are portable. -/
theorem Kind.Portable.ofBytes (levels : Nat) (bs : Bytes) : Kind.bytes.Portable C levels (.ofBytes bs) :=
  .leaf (by decide) (by decide) (by decide) rfl (by rintro _ ⟨⟩)

/-- A table of numbers from which the first one was removed. -/
def Table.thinned : Table Datum :=
  let number (n : Nat) : Datum := .scalar (.int .i32 n)
  (Table.empty .i32 0).run .specimens [.add ⟨number 1, number 10, .i32⟩, .add ⟨number 2, number 20, .i32⟩,
    .remove (number 1)]

/-- A table with a list, a table and a number under its keys, the number under the borrowing kind and under a key
that is there already. -/
def Table.mixed : Table Datum :=
  (Table.empty .bytes 0).addAll .specimens
    [⟨.ofBytes [1], .list ⟨.bytes, [⟨.ofBytes [2], .scalar (.int .i32 7), .i32⟩]⟩, .list⟩,
      ⟨.ofBytes [3], .table thinned, .table⟩, ⟨.ofBytes [1], .scalar (.int .i32 9), Kind.i32.twin⟩]

/-- The nested table had an entry removed, and the kinds are mixed: the table is portable, and comes back. -/
theorem Table.binary_round_trip_mixed :
    Kind.table.Portable .specimens (maxNesting + 1) (.table mixed) ∧
      ∃ bs, mixed.encode .specimens = .ok bs ∧ bs.length < limit ∧
        ∀ input, input = .copied bs ∨ input = .inPlace bs →
          ∃ d, Table.decode .specimens input = .ok d ∧ d.isComplete = true ∧ d.consumed = bs.length ∧
            Datum.Alike (Catalogue.specimens.rebinding input.isInPlace) (.table mixed) (.table d.value) ∧
            d.value.capacity = mixed.capacity ∧ mixed.order .specimens d.value = .eq ∧
            d.value.order .specimens mixed = .eq ∧ d.value.encode .specimens = .ok bs := by
  have hnumber : ∀ {levels : Nat} (k : Kind) (n : Nat), k = .i32 ∨ k = Kind.i32.twin →
      k.Portable .specimens levels (.scalar (.int .i32 n)) := by
    rintro levels k n (rfl | rfl)
    · exact .scalar rfl (by decide) rfl
    · exact .scalar rfl (by decide) rfl
  have hthinned : Kind.table.Portable .specimens maxNesting (.table thinned) := by
    have hentries : thinned.entries = [⟨.scalar (.int .i32 2), .scalar (.int .i32 20), .i32⟩] := rfl
    have hsteady : thinned.Steady .specimens := by
      refine ⟨.empty .i32 0, _, .empty .i32 0, ?_, rfl⟩
      simp [Operation.KeepsBase, Operation.keyKind?]
    refine .table rfl rfl hsteady (by decide +kernel) (by decide +kernel) ?_ ?_
    · rw [hentries]
      exact List.forall_mem_singleton.2 (hnumber _ 2 (.inl rfl))
    · rw [hentries]
      exact List.forall_mem_singleton.2 (hnumber _ 20 (.inl rfl))
  have hportable : Kind.table.Portable .specimens (maxNesting + 1) (.table mixed) := by
    have hkeyKind : mixed.keyKind = .bytes := (addAll_fields _ _).1
    refine .table rfl rfl (.addAll .specimens .bytes 0 _) (by decide +kernel) (hkeyKind ▸ by decide) ?_ ?_
    · intro e he
      rw [hkeyKind]
      have hmem := mem_entries_addAll he
      simp only [List.mem_cons, List.not_mem_nil, or_false] at hmem
      rcases hmem with rfl | rfl | rfl <;> exact .ofBytes _ _
    · intro e he
      have hmem := mem_entries_addAll he
      simp only [List.mem_cons, List.not_mem_nil, or_false] at hmem
      rcases hmem with rfl | rfl | rfl
      · refine .list rfl rfl (by decide) ?_ ?_
        · exact List.forall_mem_singleton.2 (.ofBytes _ _)
        · exact List.forall_mem_singleton.2 (hnumber _ 7 (.inl rfl))
      · exact hthinned
      · exact hnumber _ 9 (.inr rfl)
  obtain ⟨bs, hencode, hread⟩ := Table.binary_round_trip hportable
  have hlength : (mixed.encode .specimens).toOption.map List.length = some 110 := by decide +kernel
  have hlimit : bs.length < limit := by
    rw [hencode] at hlength
    rw [Option.some.inj hlength]
    decide
  exact ⟨hportable, bs, hencode, hlimit, hread hlimit⟩

/-- A table that is put together by insertions alone may hold one whose keys were read under another kind for a
while. That one is read in another order than it was written in, so the tables do not compare as equal. -/
theorem Table.binary_round_trip_reorders :
    (∃ added : List (Entry Datum), holder = (Table.empty .i32 0).run .specimens (added.map .add)) ∧
      Kind.table.Whole .specimens
        (fun t => t.Reachable .specimens ∧ t.capacity = max t.size Table.minCapacity) (.table holder) ∧
      ∃ bs d, holder.encode .specimens = .ok bs ∧ Table.decode .specimens (.copied bs) = .ok d ∧
        d.isComplete = true ∧ d.consumed = bs.length ∧ holder.order .specimens d.value ≠ .eq := by
  refine ⟨⟨_, addAll_eq_run _ _⟩, ?_, ?_⟩
  · exact whole_holder ⟨reachable_misfiled, by decide +kernel⟩ ⟨steady_holder.reachable, by decide +kernel⟩
  · have hread : (holder.encode .specimens).toOption.any (fun bs =>
        (Table.decode .specimens (.copied bs)).toOption.any fun d =>
          d.isComplete && d.consumed == bs.length && holder.order .specimens d.value != .eq) = true := by
      decide +kernel
    obtain ⟨bs, hencode, hread⟩ := ok_of_any hread
    obtain ⟨d, hdecode, hread⟩ := ok_of_any hread
    simp only [Bool.and_eq_true, beq_iff_eq, bne_iff_ne] at hread
    exact ⟨bs, d, hencode, hdecode, hread.1.1, hread.1.2, hread.2⟩

end OrderedTable
