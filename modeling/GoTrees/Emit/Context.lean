import GoTrees.Catalog.Classify
import GoTrees.Emit.Basic
import GoTrees.Emit.Literal
import GoTrees.Go.Name

/-!
# Names and types seen from a tree file

Tree files see the types of the catalog through the alias of the generated types package, unless a type
has a namespace, which is then its package. Members of the running agent are reached through the
variable `agent`, asserted to the class that has them.
-/

namespace GoTrees

open Go

/-- What the code of a tree is emitted against. -/
structure Context where
  catalog : Catalog
  config : Config := {}
  /-- The agent type that the tree runs on. -/
  agentType : String := agentBase
  deriving Repr

/-- The variable that holds the running agent. -/
def agentVar : Expr := .name "agent"

namespace Context

/-- Needs the runtime package `bt` if the text refers to it. -/
def notePackages (text : String) : Emit Unit :=
  if Text.contains text "bt." then .usePackage "bt" else pure ()

/-- The Go path of a class of the catalog. -/
def classPath (className : String) : Emit String :=
  if Text.contains className "::" then pure (Text.replace className "::" ".")
  else do
    Emit.require .types
    return typesAlias ++ "." ++ className

/-- Is the class the base that every agent has? -/
def isAgentBase (className : String) : Bool := className.isEmpty || className == agentBase

/-- An agent expression asserted to a class. -/
def assertedAgent (agent : Expr) (className : String) : Emit Expr :=
  if isAgentBase className then pure agent
  else do return .asserted agent ("*" ++ (← classPath className))

/-- The running agent as an instance of a class. -/
def receiver (className : String) : Emit Expr := assertedAgent agentVar className

def isCatalogType (x : Context) (name : String) : Bool :=
  (x.catalog.enum? name).isSome || (x.catalog.struct? name).isSome || (x.catalog.agent? name).isSome

/-- The mark of a slice type in front of a Go type, and the rest. -/
def splitSlice (type : String) : String × String :=
  match Text.afterLead? type "[]" with
  | some element => ("[]", element)
  | none => ("", type)

def goType (x : Context) (native : String) : Emit String := do
  let type := GoType.ofNative x.config.renames native
  notePackages type
  let (mark, element) := splitSlice type
  if !Text.contains element "." && x.isCatalogType element then do
    Emit.require .types
    return mark ++ typesAlias ++ "." ++ element
  else
    return type

/-- The Go literal for a default value of a native type. -/
def defaultLiteral (x : Context) (native : String) (text : Option String) : Emit (Option Expr) := do
  let type ← x.goType native
  let literal := literalFor (x.catalog.classify native) type text
  match literal with
  | some e => notePackages e.text
  | none => pure ()
  return literal

end Context

end GoTrees
