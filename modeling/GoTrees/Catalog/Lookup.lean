import GoTrees.Catalog.Basic

/-!
# Lookup in the catalog

Types are found by their full name, else by their basic name. Members of agent types are inherited
along the chain of bases, which may be cyclic: it is followed for one agent more than the catalog has,
so every agent type on it is met.
-/

namespace GoTrees.Catalog

/-- The first entry with this name, else the first with the same basic name. -/
def findNamed? (nameOf : α → String) (entries : List α) (name : String) : Option α :=
  (entries.find? fun e => nameOf e == name) <|>
    (entries.find? fun e => basicName (nameOf e) == basicName name)

def agent? (c : Catalog) (name : String) : Option AgentType :=
  findNamed? AgentType.name c.agents name

def enum? (c : Catalog) (name : String) : Option EnumType :=
  findNamed? EnumType.name c.enums name

def struct? (c : Catalog) (name : String) : Option StructType :=
  findNamed? StructType.name c.structs name

/-- The first agent types of the chain of bases that starts with a given one. -/
def chain (c : Catalog) : Nat → Option AgentType → List AgentType
  | 0, _ => []
  | _, none => []
  | n + 1, some a => a :: chain c n (c.agent? a.base)

/-- The agent type of a name and its bases, nearest first. -/
def lineage (c : Catalog) (className : String) : List AgentType :=
  c.chain (c.agents.length + 1) (c.agent? className)

/-- The first of some properties with a basic name. -/
def propertyIn? (properties : List Property) (name : String) : Option Property :=
  properties.find? fun p => p.basicName == name

/-- A property of an agent type, its own or inherited. -/
def property? (c : Catalog) (className name : String) : Option Property :=
  (c.lineage className).findSome? fun a => propertyIn? a.properties name

/-- A method of an agent type, its own or inherited. -/
def method? (c : Catalog) (className name : String) : Option Method :=
  (c.lineage className).findSome? fun a => a.methods.find? fun m => m.name == name

/-- Is there a global agent instance of this name? -/
def isInstance (c : Catalog) (name : String) : Bool := c.instances.contains name

/-- Can a reference to the tree of this name be resolved? -/
def knowsBehavior (c : Catalog) (name : String) : Bool :=
  c.behaviors.isEmpty || c.behaviors.contains name

end GoTrees.Catalog
