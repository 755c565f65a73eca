import OrderedTable.Catalogue.Basic
import OrderedTable.Text.Quoted

/-!
# Diagnostic text

A short account of a datum, a list or a table for those who look for a mistake. A datum shows itself
only as far as it is or spells a text; a table shows its extent and none of its rows.
-/

namespace OrderedTable

/-- A text shows itself in quotes, anything else only that it is there. -/
def Datum.summary (d : Datum) : String :=
  match d.spelling? with
  | some spelling => "Value(" ++ Text.quoted spelling ++ ")"
  | none => "Value \x7b .. \x7d"

/-- The text that bytes spell, in quotes. -/
def Bytes.summary (bs : Bytes) : String := "ByteBuf(" ++ Text.quoted (Utf8.decodeLossy bs) ++ ")"

variable (C : Catalogue)

/-- The key, the value and the kind of an entry. -/
def Entry.summary (e : Entry Datum) : String :=
  "ListNode \x7b key: " ++ e.key.summary ++ ", value: " ++ e.value.summary ++ ", ty: " ++
    C.name e.kind ++ " \x7d"

/-- The kind of the keys and all entries of a list. -/
def Listing.summary (l : Listing Datum) : String :=
  "List \x7b key_type: " ++ Text.quoted (C.name l.keyKind) ++ ", nodes: [" ++
    String.intercalate ", " (l.entries.map (Entry.summary C)) ++ "] \x7d"

/-- The kind of the keys of a table and its extent. -/
def Table.summary (t : Table Datum) : String :=
  "HashTable \x7b key_type: " ++ Text.quoted (C.name t.keyKind) ++ ", len: " ++ toString t.size ++
    ", capacity: " ++ toString t.capacity ++ ", .. \x7d"

end OrderedTable
