import GoTrees.Text.Hidden

/-!
# Quoted text in messages

A text in a message stands between double quotes, with quotes, backslashes, line ends, tabs and the
null character escaped, and every hidden character written by its hexadecimal number.
-/

namespace GoTrees.Text

/-- The lower-case hexadecimal number of a character, without leading zeros. -/
def hexNumber (c : Char) : List Char := Nat.toDigits 16 c.toNat

/-- A character as a message shows it. -/
def escapeChar (c : Char) : List Char :=
  match c with
  | '"' => ['\\', '"']
  | '\\' => ['\\', '\\']
  | '\n' => ['\\', 'n']
  | '\r' => ['\\', 'r']
  | '\t' => ['\\', 't']
  | '\x00' => ['\\', '0']
  | c => if isHidden c then ['\\', 'u', '\x7b'] ++ hexNumber c ++ ['\x7d'] else [c]

/-- A text as a message shows it. -/
def escaped (s : String) : String := .ofList ('"' :: s.toList.flatMap escapeChar ++ ['"'])

end GoTrees.Text
