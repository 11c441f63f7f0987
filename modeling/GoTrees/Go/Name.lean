import GoTrees.NamePath
import GoTrees.Text.Upper

/-!
# Go names

Exported Go names are in Pascal case: the parts of a name between underscores, each with its first
letter in upper case. The other letters stay as they are.
-/

namespace GoTrees.Go

/-- A `snake_case` or `camelCase` name as an exported Go name. -/
def pascalCase (name : String) : String :=
  .ofList ((Text.splitChars (· == '_') name.toList).flatMap Text.upperFirst)

/-- The Go field or method name of a catalog member. -/
def memberName (name : String) : String := pascalCase (basicName name)

end GoTrees.Go
