import GoTrees.Text.Blank
import GoTrees.Text.Lines
import GoTrees.Text.Search

/-!
# Hand-written blocks

A generated file may hold marked blocks: a begin marker followed by a key, the body, and an end marker.
Merging a regenerated file with the existing copy keeps the bodies that stand in the existing copy under
the same key; everything else is taken from the regenerated file. Both scans are machines over the
lines with two states, outside and inside a block.

        outside ──begin──▶ inside
        outside ◀──end──── inside   (a begin marker inside a block belongs to its body)
-/

namespace GoTrees.Merge

open Text

/-- What a begin marker says, before its key. -/
def beginText : String := "<<< BEGIN WRITING YOUR CODE"

/-- What an end marker says. -/
def endText : String := "<<< END WRITING YOUR CODE"

/-- The begin marker, before its key. -/
def beginMarker : String := "// " ++ beginText

def endMarker : String := "// " ++ endText

/-- The key of the block that a line begins. -/
def beginKey? (line : String) : Option String := (afterLead? (trim line) beginMarker).map trim

/-- Does a line end a block? -/
def isEnd (line : String) : Bool := trim line == endMarker

/-- A block with its key. -/
structure Block where
  key : String
  body : List String
  deriving DecidableEq, Repr

/-- The blocks among lines; `current` is the block that the lines start in. A block without an end
marker runs to the end of the text. -/
def blocksFrom : Option Block → List String → List Block
  | none, [] => []
  | some block, [] => [block]
  | none, line :: rest =>
    match beginKey? line with
    | some key => blocksFrom (some ⟨key, []⟩) rest
    | none => blocksFrom none rest
  | some block, line :: rest =>
    if isEnd line then block :: blocksFrom none rest
    else blocksFrom (some { block with body := block.body ++ [line] }) rest

def blocks (text : String) : List Block := blocksFrom none (lines text)

/-- Inside a block: the indentation of its markers, and whether its own body is kept. -/
structure Inside where
  indent : String
  keepsBody : Bool
  deriving DecidableEq, Repr

/-- The end marker of a block. -/
def Inside.close (s : Inside) : String := s.indent ++ endMarker

/-- The lines of a regenerated file with the bodies of `kept` blocks in place of their own. -/
def mergeFrom (kept : List Block) : Option Inside → List String → List String
  | none, [] => []
  | some s, [] => [s.close]
  | none, line :: rest =>
    match beginKey? line with
    | none => line :: mergeFrom kept none rest
    | some key =>
      match kept.find? (·.key == key) with
      | some block =>
        line :: block.body ++ mergeFrom kept (some ⟨leadingBlanks line, false⟩) rest
      | none => line :: mergeFrom kept (some ⟨leadingBlanks line, true⟩) rest
  | some s, line :: rest =>
    if isEnd line then s.close :: mergeFrom kept none rest
    else if s.keepsBody then line :: mergeFrom kept (some s) rest
    else mergeFrom kept (some s) rest

/-- The regenerated text with the hand-written blocks of the existing one. -/
def merge (existing generated : String) : String :=
  unlines (mergeFrom (blocks existing) none (lines generated))

end GoTrees.Merge
