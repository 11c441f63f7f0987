import GoTrees.Go.Code
import GoTrees.Text.Blank

/-!
# Columns

Rows are laid out in columns as wide as their widest entry. The width is measured in bytes of UTF-8,
and an entry is padded by the characters it has less than that.
-/

namespace GoTrees.Go

/-- Pads a text with spaces to a number of characters. -/
def padded (s : String) (width : Nat) : String :=
  s ++ .ofList (List.replicate (width - s.length) ' ')

def columnWidth (entries : List String) : Nat :=
  (entries.map String.utf8ByteSize).foldl max 0

def twoColumns (rows : List Row) : List String :=
  let width := columnWidth (rows.map Row.name)
  rows.map fun r => padded r.name width ++ " " ++ r.type

/-- Names, types and comments in three columns; a row without a comment ends after its type. -/
def threeColumns (rows : List Row) : List String :=
  let nameWidth := columnWidth (rows.map Row.name)
  let typeWidth := columnWidth (rows.map Row.type)
  rows.map fun r =>
    if r.comment.isEmpty then Text.trimEnd (padded r.name nameWidth ++ " " ++ r.type)
    else padded r.name nameWidth ++ " " ++ padded r.type typeWidth ++ " // " ++ r.comment

end GoTrees.Go
