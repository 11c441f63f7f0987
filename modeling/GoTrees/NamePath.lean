import GoTrees.Text.Search

/-!
# Qualified names

Catalog names may be qualified by namespaces, `game::ai::Player`. The basic name is the part after
the last `::`, the namespace the part before it.
-/

namespace GoTrees

/-- The name of the running agent's implicit base type. -/
def agentBase : String := "behaviac::Agent"

/-- The part of a name after its last `::`. -/
def basicName (name : String) : String :=
  match Text.splitLast name "::" with
  | some (_, basic) => basic
  | none => name

/-- The part of a name before its last `::`, empty if there is none. -/
def namespaceOf (name : String) : String :=
  match Text.splitLast name "::" with
  | some (space, _) => space
  | none => ""

end GoTrees
