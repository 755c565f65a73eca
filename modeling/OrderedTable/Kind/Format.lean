import OrderedTable.Catalogue.Basic
import OrderedTable.Datum.Reading
import OrderedTable.Text.Lines

/-!
# The text of a value

A scalar is written in base ten, a text as it is, bytes as the text they spell. A list is written in
brackets on one line. A table takes several lines: its size, its capacity, and then every bucket that
is not empty with one line per entry; a text of several lines inside it keeps the margin of its line.
A value that the kind does not accept has the empty text.
-/

namespace OrderedTable

/-- The list of keys and values whose texts are given. -/
def Listing.render (l : Listing String) : String :=
  "[" ++ String.intercalate ", " (l.entries.map fun e => e.key ++ " = " ++ e.value) ++ "]"

/-- The line of a row whose texts are given, without its margin. -/
def Row.render (r : Row String) : String :=
  Text.indented "    " r.key ++ " = " ++ Text.indented "    " r.value

/-- The lines of a bucket, or nothing if it is empty. -/
def Table.renderBucket (t : Table String) (bucket : Nat) : String :=
  match t.bucketRows bucket with
  | [] => ""
  | rows =>
    "  table[" ++ toString bucket ++ "]=\x7b\n" ++
      String.join (rows.map fun r => "    " ++ r.render ++ "\n") ++ "  \x7d\n"

/-- The table of keys and values whose texts are given. -/
def Table.render (t : Table String) : String :=
  "\x7b\n  size=" ++ toString t.size ++ "\n  tableSize=" ++ toString t.capacity ++ "\n" ++
    String.join ((List.range t.capacity).map t.renderBucket) ++ "\x7d"

variable (C : Catalogue)

/-- The text of a value that is no list or table. -/
def Kind.formatLeaf (k : Kind) (d : Datum) : String :=
  match k.base with
  | .scalar s => ((d.scalarOf? s).map Scalar.text).getD ""
  | .text _ => d.text?.getD ""
  | .bytes => (d.bytes?.map Utf8.decodeLossy).getD ""
  | .list | .table => ""
  | .extension id => (C.extension id).format d

/-- The reading that makes a text of a value. -/
def formatting : Reading String := ⟨Kind.formatLeaf C, Listing.render, Table.render⟩

/-- The text of a value. -/
def Kind.format (k : Kind) (d : Datum) : String := k.read (formatting C) d

/-- The text of a list. -/
def Listing.format (l : Listing Datum) : String := (l.map (Kind.format C)).render

/-- The text of a table. -/
def Table.format (t : Table Datum) : String := (t.map (Kind.format C)).render

/-- The bytes of a value: a byte string itself, of anything else its text. -/
def Kind.toBytes (k : Kind) (d : Datum) : Bytes :=
  match k.base with
  | .bytes => d.bytes?.getD []
  | _ => Utf8.encode (k.format C d)

end OrderedTable
