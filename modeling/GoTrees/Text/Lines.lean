/-!
# Lines of a text

A line ends at a line feed; one carriage return right before the line feed belongs to the line end.
A text that ends in a line feed has no empty line after it.
-/

namespace GoTrees.Text

/-- Puts a character in front of the first line. -/
def consLine (c : Char) : List (List Char) → List (List Char)
  | [] => [[c]]
  | line :: lines => (c :: line) :: lines

/-- The lines of the characters, without their line ends. -/
def lineChars : List Char → List (List Char)
  | [] => []
  | '\n' :: cs => [] :: lineChars cs
  | '\r' :: '\n' :: cs => [] :: lineChars cs
  | c :: cs => consLine c (lineChars cs)

/-- The lines of `s`, without their line ends. -/
def lines (s : String) : List String := (lineChars s.toList).map .ofList

/-- Each line followed by a line feed. -/
def unlines (ls : List String) : String := String.join (ls.map (· ++ "\n"))

end GoTrees.Text
