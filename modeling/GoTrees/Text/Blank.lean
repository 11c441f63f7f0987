/-!
# Blank characters

White space in the sense of the Unicode property `White_Space`, and the trimming of texts. Grammars
that take only spaces and tabs as separators use `isSpace`; `isBreakOrSpace` adds line ends.
-/

namespace GoTrees.Text

/-- The code points with the property `White_Space`, as inclusive ranges in ascending order. -/
def blankRanges : List (Nat × Nat) :=
  [(0x9, 0xd), (0x20, 0x20), (0x85, 0x85), (0xa0, 0xa0), (0x1680, 0x1680), (0x2000, 0x200a),
   (0x2028, 0x2029), (0x202f, 0x202f), (0x205f, 0x205f), (0x3000, 0x3000)]

/-- White space of any script. -/
def isBlank (c : Char) : Bool := blankRanges.any fun (lo, hi) => lo ≤ c.toNat && c.toNat ≤ hi

def isSpace (c : Char) : Bool := c == ' ' || c == '\t'

/-- A space, a tab or a character of a line end. -/
def isBreakOrSpace (c : Char) : Bool := isSpace c || c == '\r' || c == '\n'

/-- Drops the characters of `p` from the end. -/
def trimEndBy (p : Char → Bool) (cs : List Char) : List Char := (cs.reverse.dropWhile p).reverse

/-- Drops the characters of `p` from both ends. -/
def trimBy (p : Char → Bool) (cs : List Char) : List Char := trimEndBy p (cs.dropWhile p)

/-- The text without blanks at its ends. -/
def trim (s : String) : String := .ofList (trimBy isBlank s.toList)

/-- The text without blanks at its end. -/
def trimEnd (s : String) : String := .ofList (trimEndBy isBlank s.toList)

/-- The text without the character `c` at its ends. -/
def trimChar (s : String) (c : Char) : String := .ofList (trimBy (· == c) s.toList)

/-- The blanks that `s` starts with. -/
def leadingBlanks (s : String) : String := .ofList (s.toList.takeWhile isBlank)

/-- Is there nothing but blanks? -/
def isBlankText (s : String) : Bool := s.toList.all isBlank

end GoTrees.Text
