/-!
# Lines

A text falls into lines at its line feeds. A carriage return before a line feed belongs to the line
end, and a text that ends with a line feed has no empty last line.

`Text.indented` writes a text of several lines so that every line but the first starts at a given
margin.
-/

namespace OrderedTable.Text

/-- The line whose characters are given last first, without a carriage return at its end. -/
def closedLine : List Char → List Char
  | '\r' :: line => line.reverse
  | line => line.reverse

/-- The lines of a text, where `line` holds the characters of the line begun, last first. -/
def linesFrom (line : List Char) : List Char → List (List Char)
  | [] => if line.isEmpty then [] else [line.reverse]
  | '\n' :: cs => closedLine line :: linesFrom [] cs
  | c :: cs => linesFrom (c :: line) cs

/-- The lines of a text. -/
def lines (text : String) : List String :=
  (linesFrom [] text.toList).map String.ofList

/-- The text with `margin` before each of its lines but the first. -/
def indented (margin text : String) : String :=
  String.intercalate ("\n" ++ margin) (lines text)

end OrderedTable.Text
