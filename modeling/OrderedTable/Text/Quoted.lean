import OrderedTable.Text.Shown

/-!
# Quoted text

A text between double quotes, as diagnostic output shows it: every character that would not be seen
as itself, and the quote and the backslash, is written as an escape.
-/

namespace OrderedTable.Text

/-- A character as it stands between quotes. -/
def escaped (c : Char) : List Char :=
  match c with
  | '\x00' => ['\\', '0']
  | '\t' => ['\\', 't']
  | '\n' => ['\\', 'n']
  | '\r' => ['\\', 'r']
  | '"' => ['\\', '"']
  | '\\' => ['\\', '\\']
  | c => if isShown c then [c] else ['\\', 'u', '\x7b'] ++ Nat.toDigits 16 c.toNat ++ ['\x7d']

/-- A text between quotes. -/
def quoted (text : String) : String :=
  String.ofList ('"' :: text.toList.flatMap escaped ++ ['"'])

end OrderedTable.Text
