/-!
# Reading positions

A source is what is left of a text, with the place where it starts. A text ends at its first null
character, and a carriage return before a line feed is dropped. Line feeds and the carriage returns that
are left break lines, but only a line feed starts to count columns anew.
-/

namespace GoTrees.Yaml

/-- A place in a text, counted from zero. -/
structure Mark where
  index : Nat := 0
  line : Nat := 0
  column : Nat := 0
  deriving DecidableEq, Repr

/-- The place after a character. -/
def Mark.after (m : Mark) (c : Char) : Mark :=
  if c == '\n' then { index := m.index + 1, line := m.line + 1, column := 0 }
  else { m with index := m.index + 1, column := m.column + 1 }

/-! ### Kinds of characters -/

/-- Blanks within a line. -/
def isGap (c : Char) : Bool := c == ' ' || c == '\t'

/-- Ends of lines. -/
def isBreak (c : Char) : Bool := c == '\n' || c == '\r'

/-- Characters that have a meaning in brackets. -/
def isFlowMark (c : Char) : Bool := c == ',' || c == '[' || c == ']' || c == '\x7b' || c == '\x7d'

def isNameChar (c : Char) : Bool := c.isAlphanum || c == '_' || c == '-'

/-- Does a line end here? -/
def breakFollows (cs : List Char) : Bool := cs.head?.all isBreak

/-- Does a word end here? -/
def gapFollows (cs : List Char) : Bool := cs.head?.all fun c => isGap c || isBreak c

/-- Does a character with a meaning in brackets follow? -/
def flowMarkFollows (cs : List Char) : Bool := cs.head?.any isFlowMark

/-- Are these three of one character that stand alone? -/
def startsWithMarker (mark : Char) (cs : List Char) : Bool :=
  cs.take 3 == [mark, mark, mark] && gapFollows (cs.drop 3)

/-- Is there a line between documents at this place? -/
def markerFollows (m : Mark) (cs : List Char) : Bool :=
  m.column == 0 && (startsWithMarker '-' cs || startsWithMarker '.' cs)

/-! ### Sources -/

/-- What is left of a text. -/
structure Source where
  rest : List Char
  mark : Mark := {}
  deriving Repr

/-- The characters up to the first null character, with lines that end in one character. -/
def normalized : List Char → List Char
  | [] => []
  | '\x00' :: _ => []
  | '\r' :: '\n' :: cs => '\n' :: normalized cs
  | c :: cs => c :: normalized cs

namespace Source

/-- A whole text. -/
def ofText (text : String) : Source := { rest := normalized text.toList }

/-- What is left after some more characters. -/
def advance (s : Source) (count : Nat) : Source where
  rest := s.rest.drop count
  mark := (s.rest.take count).foldl Mark.after s.mark

/-- What is left after the characters of a kind. -/
def skipWhile (s : Source) (p : Char → Bool) : Source := s.advance (s.rest.takeWhile p).length

/-- The characters of a kind, and what is left after them. -/
def span (s : Source) (p : Char → Bool) : String × Source :=
  (.ofList (s.rest.takeWhile p), s.skipWhile p)

/-- Past blanks and a comment to the end of the line, which has to follow, and past the break. -/
def endLine? (s : Source) : Option Source :=
  let s := s.skipWhile isGap
  let s := if s.rest.head? == some '#' then s.skipWhile fun c => !isBreak c else s
  if breakFollows s.rest then some (s.advance 1) else none

end Source

end GoTrees.Yaml
