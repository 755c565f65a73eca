import OrderedTable.Kind.Copy

/-!
# Tables and lists

`Table.toListing` copies the entries of a table into a list, in global order. `Table.ofListing` builds
a table from a list; a list among the values becomes a table in its turn, under the kind of tables.
-/

namespace OrderedTable

variable (C : Catalogue)

/-- The entries of a table, copied, in global order. -/
def Table.toListing (t : Table Datum) : Listing Datum :=
  Listing.gather ⟨t.keyKind, (t.map (Kind.copy C)).entries⟩

mutual

/-- The table with the entries of a list, as many buckets wanted as there are entries. -/
def Table.ofListing : Listing Datum → Table Datum
  | ⟨keyKind, entries⟩ => Table.takeEntries (.empty keyKind entries.length) entries

/-- A table with the entries of a list put in one after another. The key beside a nested list is
copied or, if it cannot be, replaced by the initial value of its kind; any other entry is copied. An
entry that is refused is left out. -/
def Table.takeEntries (t : Table Datum) : List (Entry Datum) → Table Datum
  | [] => t
  | ⟨key, .list l, _⟩ :: rest =>
    let key := (t.keyKind.copy C key).getD (t.keyKind.initial C)
    let added := t.add C ⟨key, .table (Table.ofListing l), .table⟩
    Table.takeEntries (added.toOption.getD t) rest
  | e :: rest => Table.takeEntries ((t.addCopied C e).toOption.getD t) rest

end

end OrderedTable
