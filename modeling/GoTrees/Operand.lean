import GoTrees.Text.Search
import GoTrees.Value
import GoTrees.VariableId

/-!
# Properties, methods and operands

Properties and methods belong to agent types. An operand of a node or an attachment is a constant, a
property, an element of an array property, or a call of a method with operands as arguments.
-/

namespace GoTrees

/-- Whose property or method is meant. -/
inductive Owner where
  /-- The agent that runs the tree. -/
  | running
  /-- Another agent: a global instance or a member of the running agent. -/
  | named (agent : String)
  deriving DecidableEq, Repr

/-- A property of an agent type or struct, or a variable local to a tree. -/
structure Property where
  name : String := ""
  /-- The native type; for an element of an array, the type of the element. -/
  type : String := ""
  className : String := ""
  owner : Owner := .running
  isElement : Bool := false
  isLocal : Bool := false
  isCustomized : Bool := false
  isReadonly : Bool := false
  isStatic : Bool := false
  isInherited : Bool := false
  /-- The encoded literal a field starts with. -/
  initial : Option String := none
  description : String := ""
  deriving DecidableEq, Repr

namespace Property

/-- The name without the `[]` marks that arrays carry. -/
def basicName (p : Property) : String := Text.dropTails p.name "[]"

/-- The id under which a store keyed by names keeps the property. -/
def variableId (p : Property) : UInt32 := VariableId.ofName p.basicName

/-- Does the property live in a store keyed by names, rather than in a field? -/
def isLateBound (p : Property) : Bool := p.isLocal || p.isCustomized

end Property

structure Param where
  name : String := ""
  type : String := ""
  isRef : Bool := false
  isOut : Bool := false
  description : String := ""
  deriving DecidableEq, Repr

/-- Is the argument passed by reference? -/
def Param.isByRef (p : Param) : Bool := p.isRef || p.isOut

structure Method where
  name : String := ""
  className : String := ""
  owner : Owner := .running
  /-- The native return type. -/
  result : String := "void"
  params : List Param := []
  description : String := ""
  isInherited : Bool := false
  deriving DecidableEq, Repr, Inhabited

/-- Something that can be read without a call; all but constants can also be written. -/
inductive Variable where
  | const (type : String) (value : Value)
  | property (p : Property)
  /-- An element of the array property `p`. -/
  | element (p : Property) (index : Variable)
  deriving Repr, Inhabited

/-- Something with a value: a variable or a method call. The arguments of a call stand in the order of
the method's parameters; a parameter without an argument is unbound. -/
inductive Operand where
  | var (v : Variable)
  | call (m : Method) (args : List (Option Operand))
  deriving Repr, Inhabited

/-- A method with the arguments of a call. -/
abbrev Call := Method × List (Option Operand)

namespace Variable

def type : Variable → String
  | const ty _ => ty
  | property p => p.type
  | element p _ => p.type

def isConst : Variable → Bool
  | const .. => true
  | _ => false

/-- The property that is read or written. -/
def property? : Variable → Option Property
  | const .. => none
  | property p => some p
  | element p _ => some p

end Variable

namespace Operand

def type : Operand → String
  | var v => v.type
  | call m _ => m.result

def isConst : Operand → Bool
  | var v => v.isConst
  | call .. => false

def isCall : Operand → Bool
  | var _ => false
  | call .. => true

/-- The property an operand names, if it is no constant and no call. -/
def property? : Operand → Option Property
  | var v => v.property?
  | call .. => none

def isAgentProperty (o : Operand) : Bool := o.property?.any fun p => !p.isLocal

/-- Is it a variable local to a tree? -/
def isTreeLocal (o : Operand) : Bool := o.property?.any fun p => p.isLocal

end Operand

end GoTrees
