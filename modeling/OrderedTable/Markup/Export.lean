import OrderedTable.Kind.Format

/-!
# Writing XML

A value becomes an element. The content of a scalar, text or byte string is its text with the three
characters of markup escaped; that of a list or table is one element per entry, named by the text of
the entry's key. A list or table kind writes nothing for a value that it does not accept.
-/

namespace OrderedTable

namespace Markup

/-- A character as it stands in content. -/
def escapeChar (c : Char) : List Char :=
  match c with
  | '&' => ['&', 'a', 'm', 'p', ';']
  | '<' => ['&', 'l', 't', ';']
  | '>' => ['&', 'g', 't', ';']
  | c => [c]

/-- A text as it stands in content. -/
def escape (text : String) : String := String.ofList (text.toList.flatMap escapeChar)

/-- The element with a name and content. -/
def element (name content : String) : String := "<" ++ name ++ ">" ++ content ++ "</" ++ name ++ ">"

/-- What a value is in an element: its text, should it be a key, and the element of a given name. -/
structure Part where
  text : String
  element : String → String

/-- The elements of entries, each named by the text of its key. -/
def contentOf (entries : List (Entry Part)) : String :=
  String.join (entries.map fun e => e.value.element e.key.text)

end Markup

open Markup

variable (C : Catalogue)

/-- The element of a value that is no list or table. -/
def Kind.toXmlLeaf (k : Kind) (d : Datum) (name : String) : String :=
  match k.base with
  | .scalar _ | .text _ | .bytes => element name (escape (k.formatLeaf C d))
  | .list | .table => ""
  | .extension id => (C.extension id).toXml d name

/-- The reading that makes elements of values. -/
def exporting : Reading Part where
  leaf k d := ⟨k.formatLeaf C d, k.toXmlLeaf C d⟩
  list l := ⟨(l.map fun _ p => p.text).render, fun name => element name (contentOf l.entries)⟩
  table t := ⟨(t.map fun _ p => p.text).render, fun name => element name (contentOf t.entries)⟩

/-- The element of a value. -/
def Kind.toXml (k : Kind) (d : Datum) (name : String) : String := (k.read (exporting C) d).element name

/-- The element of a table. -/
def Table.toXml (t : Table Datum) (name : String) : String :=
  ((exporting C).table (t.map (Kind.read (exporting C)))).element name

end OrderedTable
