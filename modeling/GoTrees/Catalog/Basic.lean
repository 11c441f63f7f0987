import GoTrees.NamePath
import GoTrees.Operand

/-!
# The type catalog

The agent types that trees run on, with the enums and structs they refer to, the global agent
instances, and the names of the trees that exist.
-/

namespace GoTrees

structure AgentType where
  name : String := ""
  base : String := agentBase
  isImplemented : Bool := false
  /-- The folder that the skeleton goes to, instead of that of its namespace. -/
  location : Option String := none
  description : String := ""
  properties : List Property := []
  methods : List Method := []
  deriving DecidableEq, Repr, Inhabited

structure EnumMember where
  name : String := ""
  value : Int := 0
  display : String := ""
  deriving DecidableEq, Repr

structure EnumType where
  name : String := ""
  description : String := ""
  isImplemented : Bool := false
  location : Option String := none
  members : List EnumMember := []
  deriving DecidableEq, Repr

structure StructType where
  name : String := ""
  base : Option String := none
  isRef : Bool := false
  isImplemented : Bool := false
  location : Option String := none
  description : String := ""
  properties : List Property := []
  deriving DecidableEq, Repr

/-- Everything that the names in trees can refer to. -/
structure Catalog where
  agents : List AgentType := []
  enums : List EnumType := []
  structs : List StructType := []
  /-- Agents that are registered under a global name. -/
  instances : List String := []
  /-- The trees that exist; if none are listed, every name is taken to exist. -/
  behaviors : List String := []
  deriving DecidableEq, Repr

namespace Catalog

/-- The agent type with its members marked as its own. -/
def linkAgent (a : AgentType) : AgentType :=
  { a with
    properties := a.properties.map fun p => { p with className := a.name }
    methods := a.methods.map fun m => { m with className := a.name } }

/-- The struct with its properties marked as its own. -/
def linkStruct (s : StructType) : StructType :=
  { s with properties := s.properties.map fun p => { p with className := s.name } }

/-- Marks every property and method with the type it belongs to. -/
def link (c : Catalog) : Catalog :=
  { c with agents := c.agents.map linkAgent, structs := c.structs.map linkStruct }

end Catalog

end GoTrees
