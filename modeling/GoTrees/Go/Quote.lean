/-!
# Go string literals

A text between double quotes, with quotes, backslashes, line ends and tabs escaped.
-/

namespace GoTrees.Go

/-- A character inside a string literal. -/
def quoteChar (c : Char) : List Char :=
  match c with
  | '"' => ['\\', '"']
  | '\\' => ['\\', '\\']
  | '\n' => ['\\', 'n']
  | '\r' => ['\\', 'r']
  | '\t' => ['\\', 't']
  | c => [c]

def quote (s : String) : String := .ofList ('"' :: s.toList.flatMap quoteChar ++ ['"'])

end GoTrees.Go
