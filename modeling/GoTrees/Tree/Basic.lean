import GoTrees.Operand
import GoTrees.Status
import GoTrees.Tree.Operator
import GoTrees.Tree.Tag

/-!
# Behavior trees

A behavior is a tree of nodes with attachments: preconditions, effectors and events. Nodes and
attachments carry operands that refer to the agent the tree runs on.
-/

namespace GoTrees

/-- Kinds of nodes that carry no data. -/
inductive PlainKind where
  | sequence
  | selector
  | selectorLoop
  | selectorProbability
  | selectorStochastic
  | sequenceStochastic
  | ifElse
  | withPrecondition
  | alwaysSuccess
  | alwaysFailure
  | alwaysRunning
  | negation
  | noop
  | waitForSignal
  | conjunction
  | disjunction
  | truth
  | falsity
  deriving DecidableEq, Repr

def PlainKind.tag : PlainKind → NodeTag
  | sequence => .sequence
  | selector => .selector
  | selectorLoop => .selectorLoop
  | selectorProbability => .selectorProbability
  | selectorStochastic => .selectorStochastic
  | sequenceStochastic => .sequenceStochastic
  | ifElse => .ifElse
  | withPrecondition => .withPrecondition
  | alwaysSuccess => .decoratorAlwaysSuccess
  | alwaysFailure => .decoratorAlwaysFailure
  | alwaysRunning => .decoratorAlwaysRunning
  | negation => .decoratorNot
  | noop => .noop
  | waitForSignal => .waitForSignal
  | conjunction => .conjunction
  | disjunction => .disjunction
  | truth => .truth
  | falsity => .falsity

def PlainKind.all : List PlainKind :=
  [sequence, selector, selectorLoop, selectorProbability, selectorStochastic, sequenceStochastic,
   ifElse, withPrecondition, alwaysSuccess, alwaysFailure, alwaysRunning, negation, noop,
   waitForSignal, conjunction, disjunction, truth, falsity]

/-- Decorators that carry a count and nothing else. -/
inductive CountKind where
  | loop
  | again
  | countLimit
  | failureUntil
  | successUntil
  deriving DecidableEq, Repr

def CountKind.tag : CountKind → NodeTag
  | loop => .decoratorLoop
  | again => .decoratorRepeat
  | countLimit => .decoratorCountLimit
  | failureUntil => .decoratorFailureUntil
  | successUntil => .decoratorSuccessUntil

def CountKind.all : List CountKind := [loop, again, countLimit, failureUntil, successUntil]

/-- A call of a method whose result decides the status. -/
structure Action where
  method : Option Call := none
  /-- The status that is answered whatever the method does, unless it is invalid. -/
  resultOption : Status := .invalid
  /-- The method that turns the result into a status. -/
  resultFunctor : Option Call := none
  deriving Repr

/-- Stores a value in a variable. -/
structure Assignment where
  target : Option Variable := none
  source : Option Operand := none
  /-- Is the value converted to the type of the variable? -/
  casting : Bool := false
  deriving Repr

/-- Stores the result of an arithmetic operation in a variable. -/
structure Compute where
  target : Option Variable := none
  first : Option Operand := none
  operator : Arithmetic
  second : Option Operand := none
  deriving Repr

/-- Compares two values. -/
structure Condition where
  left : Option Operand := none
  operator : Comparison := .invalid
  right : Option Operand := none
  deriving Repr

/-- What a node is and does. -/
inductive NodeKind where
  | plain (k : PlainKind)
  | parallel (p : Policies)
  /-- A reference to another tree, by name. -/
  | reference (tree : Option Operand)
  | counted (k : CountKind) (count : Option Variable)
  | loopUntil (count : Option Variable) (expected : Bool)
  | frames (n : Option Operand)
  | log (message : String)
  | weight (w : Option Variable)
  | action (a : Action)
  | assignment (a : Assignment)
  | compute (c : Compute)
  | wait (time : Option Operand)
  | waitFrames (n : Option Operand)
  | finish (status : Option Operand) (outside : Bool)
  | condition (c : Condition)
  /-- A kind that is only known by its runtime class, `pkg.Class` or `Class`. -/
  | unknown (cls : String)
  deriving Repr

namespace NodeKind

def tag : NodeKind → NodeTag
  | plain k => k.tag
  | parallel _ => .parallel
  | reference _ => .referencedBehavior
  | counted k _ => k.tag
  | loopUntil .. => .decoratorLoopUntil
  | frames _ => .decoratorFrames
  | log _ => .decoratorLog
  | weight _ => .decoratorWeight
  | action _ => .action
  | assignment _ => .assignment
  | compute _ => .compute
  | wait _ => .wait
  | waitFrames _ => .waitFrames
  | finish .. => .finish
  | condition _ => .condition
  | unknown _ => .unknown

/-- The count of a counting decorator. -/
def count? : NodeKind → Option Variable
  | counted _ count => count
  | loopUntil count _ => count
  | _ => none

/-- Is the node a reference to another tree? -/
def isReference : NodeKind → Bool
  | reference _ => true
  | _ => false

end NodeKind

/-- What an attached action does when it fires. -/
structure AttachAction where
  target : Option Operand := none
  operator : AttachOperator := .invalid
  first : Option Operand := none
  second : Option Operand := none
  deriving Repr

/-- The classes of attached actions. -/
inductive AttachClass where
  | call
  | assign
  | compare (r : Relation)
  | compute (a : Arithmetic)
  deriving DecidableEq, Repr

/-- An action without a second operand or without an operator is a call. -/
def AttachAction.classify (a : AttachAction) : AttachClass :=
  if a.second.isNone then .call
  else match a.operator with
    | .invalid => .call
    | .assign => .assign
    | .arithmetic op => .compute op
    | .relation r => .compare r

/-- An event that switches to another tree. -/
structure Event where
  task : String := ""
  once : Bool := false
  mode : TriggerMode := .transfer
  tree : String := ""
  deriving DecidableEq, Repr

inductive AttachmentKind where
  /-- Preconditions are combined by "and" or by "or" with those before them. -/
  | precondition (phase : PreconditionPhase) (conj : Bool) (action : AttachAction)
  | effector (phase : EffectorPhase) (action : AttachAction)
  | event (e : Event)
  | attachAction (action : AttachAction)
  | unknown (cls : String)
  deriving Repr

namespace AttachmentKind

def tag : AttachmentKind → AttachmentTag
  | precondition .. => .precondition
  | effector .. => .effector
  | event _ => .event
  | attachAction _ => .attachAction
  | unknown _ => .unknown

/-- The action of the kinds that have one. -/
def action? : AttachmentKind → Option AttachAction
  | precondition _ _ a => some a
  | effector _ a => some a
  | attachAction a => some a
  | event _ | unknown _ => none

end AttachmentKind

/-- Something attached to a node or a tree. -/
structure Attachment where
  id : Int
  kind : AttachmentKind
  enabled : Bool := true
  isTransition : Bool := false
  deriving Repr

namespace Attachment

def tag (a : Attachment) : AttachmentTag := a.kind.tag

/-- The name of the variable that holds the attachment. -/
def name (a : Attachment) : String := "attach" ++ toString a.id

/-- The class in generated type names. -/
def exportClass (a : Attachment) : String :=
  match a.kind with
  | .unknown cls => (runtimeClass cls).2
  | kind => kind.tag.name

/-- The runtime package and type. -/
def runtimeType (a : Attachment) : String × String :=
  match a.kind with
  | .unknown cls => runtimeClass cls
  | kind => kind.tag.runtimeType

end Attachment

/-- A node, without its children. -/
structure Node where
  id : Int
  kind : NodeKind
  enabled : Bool := true
  /-- A node that is no child is the custom condition of its parent. -/
  asChild : Bool := true
  /-- Are the children the states of a state machine? -/
  fsm : Bool := false
  initialState : Option Int := none
  attachments : List Attachment := []
  deriving Repr

namespace Node

def tag (n : Node) : NodeTag := n.kind.tag

/-- The name of the variable that holds the node. -/
def name (n : Node) : String := "node" ++ toString n.id

/-- The class in generated type names. -/
def exportClass (n : Node) : String :=
  match n.kind with
  | .unknown cls => (runtimeClass cls).2
  | kind => kind.tag.name

def runtimeType (n : Node) : String × String :=
  match n.kind with
  | .unknown cls => runtimeClass cls
  | kind => kind.tag.runtimeType

end Node

/-- A node with everything below it. -/
inductive Subtree where
  | mk (node : Node) (children : List Subtree)
  deriving Repr

/-- The node at the top. -/
def Subtree.node : Subtree → Node
  | mk node _ => node

/-- The subtrees right below the top. -/
def Subtree.children : Subtree → List Subtree
  | mk _ children => children

/-- A variable local to a tree, with the text it starts with. -/
structure Local where
  name : String
  type : String
  initial : String
  deriving DecidableEq, Repr

/-- The property through which a local variable is read and written. -/
def Local.property (l : Local) : Property := { name := l.name, type := l.type, isLocal := true }

/-- A whole tree. -/
structure Behavior where
  /-- The name of the generated Go type. -/
  name : String
  /-- The path of the tree among the sources. -/
  path : String
  agentType : String
  comment : String := ""
  locals : List Local := []
  fsm : Bool := false
  initialState : Option Int := none
  attachments : List Attachment := []
  children : List Subtree := []
  deriving Repr

/-- Drops the last dot and what follows it, unless a slash follows the dot. -/
def dropExtension (path : List Char) : List Char :=
  let after := path.reverse.takeWhile (fun c => c != '.' && c != '/')
  match path.reverse.drop after.length with
  | '.' :: stem => stem.reverse
  | _ => path

namespace Behavior

/-- The path with slashes only and without its extension. -/
def sourceName (b : Behavior) : String :=
  .ofList (dropExtension (b.path.toList.map fun c => if c = '\\' then '/' else c))

/-- The path as an identifier. -/
def className (b : Behavior) : String :=
  .ofList (b.sourceName.toList.map fun c =>
    if c = '/' || c = '-' || c = '.' || c = ' ' then '_' else c)

end Behavior

end GoTrees
