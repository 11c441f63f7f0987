/-!
# Indented text

A sheet is a text under construction with a depth of indentation. Lines are indented by one tab for
each level; an empty line is not indented at all.
-/

namespace GoTrees.Go

/-- A text under construction. -/
structure Sheet where
  text : String := ""
  depth : Nat := 0
  deriving DecidableEq, Repr

namespace Sheet

/-- The tabs in front of a line. -/
def tabs (depth : Nat) : String := .ofList (List.replicate depth '\t')

/-- What a line adds to the text at a depth. -/
def lineText (depth : Nat) (line : String) : String :=
  (if line.isEmpty then "" else tabs depth ++ line) ++ "\n"

def line (s : Sheet) (line : String) : Sheet :=
  { s with text := s.text ++ lineText s.depth line }

def lines (s : Sheet) (ls : List String) : Sheet := ls.foldl line s

def blank (s : Sheet) : Sheet := { s with text := s.text ++ "\n" }

/-- One level deeper. -/
def indent (s : Sheet) : Sheet := { s with depth := s.depth + 1 }

/-- One level back, but not beyond the margin. -/
def dedent (s : Sheet) : Sheet := { s with depth := s.depth - 1 }

/-- A body one level deeper between an opening and a closing line. -/
def block (s : Sheet) (opening closing : String) (body : Sheet → Sheet) : Sheet :=
  ((body (s.line opening).indent).dedent).line closing

/-- Adds the text of another sheet as it is. -/
def append (s t : Sheet) : Sheet := { s with text := s.text ++ t.text }

end Sheet

end GoTrees.Go
