/-!
# Identifiers

A word of the type and literal grammars: an ASCII letter or an underscore, then letters, digits and
underscores.
-/

namespace GoTrees.Text

def isLetter (c : Char) : Bool := ('a' ≤ c && c ≤ 'z') || ('A' ≤ c && c ≤ 'Z')

/-- A character an identifier may start with. -/
def isWordStart (c : Char) : Bool := isLetter c || c == '_'

/-- A character an identifier may go on with. -/
def isWordChar (c : Char) : Bool := isWordStart c || ('0' ≤ c && c ≤ '9')

/-- The longest identifier at the front, and the rest. -/
def identifier? : List Char → Option (List Char × List Char)
  | [] => none
  | c :: cs =>
    if isWordStart c then some (c :: cs.takeWhile isWordChar, cs.dropWhile isWordChar) else none

end GoTrees.Text
