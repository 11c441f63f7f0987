import GoTrees.Text.Search

/-!
# Tags of node and attachment kinds

Every kind of node has a tag, and so have the families that kinds belong to. The ancestry of a tag is
the tag itself and then its families, most specific first. The runtime type is the package and the type
that a node of the kind is built from.
-/

namespace GoTrees

/-- The kinds of nodes and the families they belong to. -/
inductive NodeTag where
  | node
  | composite
  | decorator
  | decoratorCount
  | leaf
  | conditionBase
  | sequence
  | selector
  | selectorLoop
  | selectorProbability
  | selectorStochastic
  | sequenceStochastic
  | ifElse
  | withPrecondition
  | parallel
  | referencedBehavior
  | decoratorAlwaysSuccess
  | decoratorAlwaysFailure
  | decoratorAlwaysRunning
  | decoratorNot
  | decoratorLoop
  | decoratorRepeat
  | decoratorCountLimit
  | decoratorFailureUntil
  | decoratorSuccessUntil
  | decoratorLoopUntil
  | decoratorFrames
  | decoratorLog
  | decoratorWeight
  | action
  | assignment
  | compute
  | wait
  | waitFrames
  | finish
  | noop
  | waitForSignal
  | condition
  | conjunction
  | disjunction
  | truth
  | falsity
  | unknown
  deriving DecidableEq, Repr

namespace NodeTag

def all : List NodeTag :=
  [node, composite, decorator, decoratorCount, leaf, conditionBase, sequence, selector,
   selectorLoop, selectorProbability, selectorStochastic, sequenceStochastic, ifElse,
   withPrecondition, parallel, referencedBehavior, decoratorAlwaysSuccess, decoratorAlwaysFailure,
   decoratorAlwaysRunning, decoratorNot, decoratorLoop, decoratorRepeat, decoratorCountLimit,
   decoratorFailureUntil, decoratorSuccessUntil, decoratorLoopUntil, decoratorFrames,
   decoratorLog, decoratorWeight, action, assignment, compute, wait, waitFrames, finish, noop,
   waitForSignal, condition, conjunction, disjunction, truth, falsity, unknown]

/-- The name of a tag in documents and in generated class names. -/
def name : NodeTag → String
  | node => "Node"
  | composite => "Composite"
  | decorator => "Decorator"
  | decoratorCount => "DecoratorCount"
  | leaf => "Leaf"
  | conditionBase => "ConditionBase"
  | sequence => "Sequence"
  | selector => "Selector"
  | selectorLoop => "SelectorLoop"
  | selectorProbability => "SelectorProbability"
  | selectorStochastic => "SelectorStochastic"
  | sequenceStochastic => "SequenceStochastic"
  | ifElse => "IfElse"
  | withPrecondition => "WithPrecondition"
  | parallel => "Parallel"
  | referencedBehavior => "ReferencedBehavior"
  | decoratorAlwaysSuccess => "DecoratorAlwaysSuccess"
  | decoratorAlwaysFailure => "DecoratorAlwaysFailure"
  | decoratorAlwaysRunning => "DecoratorAlwaysRunning"
  | decoratorNot => "DecoratorNot"
  | decoratorLoop => "DecoratorLoop"
  | decoratorRepeat => "DecoratorRepeat"
  | decoratorCountLimit => "DecoratorCountLimit"
  | decoratorFailureUntil => "DecoratorFailureUntil"
  | decoratorSuccessUntil => "DecoratorSuccessUntil"
  | decoratorLoopUntil => "DecoratorLoopUntil"
  | decoratorFrames => "DecoratorFrames"
  | decoratorLog => "DecoratorLog"
  | decoratorWeight => "DecoratorWeight"
  | action => "Action"
  | assignment => "Assignment"
  | compute => "Compute"
  | wait => "Wait"
  | waitFrames => "WaitFrames"
  | finish => "End"
  | noop => "Noop"
  | waitForSignal => "WaitForSignal"
  | condition => "Condition"
  | conjunction => "And"
  | disjunction => "Or"
  | truth => "True"
  | falsity => "False"
  | unknown => "Unknown"

def ofName? (s : String) : Option NodeTag := all.find? (·.name == s)

/-- The family that a kind or a family belongs to. Unknown kinds belong to none. -/
def family? : NodeTag → Option NodeTag
  | node | unknown => none
  | composite | decorator | leaf | conditionBase | referencedBehavior => some node
  | sequence | selector | selectorLoop | selectorProbability | selectorStochastic
  | sequenceStochastic | ifElse | withPrecondition | parallel => some composite
  | decoratorCount | decoratorAlwaysSuccess | decoratorAlwaysFailure | decoratorAlwaysRunning
  | decoratorNot | decoratorFrames | decoratorLog | decoratorWeight => some decorator
  | decoratorLoop | decoratorRepeat | decoratorCountLimit | decoratorFailureUntil
  | decoratorSuccessUntil | decoratorLoopUntil => some decoratorCount
  | action | assignment | compute | wait | waitFrames | finish | noop | waitForSignal => some leaf
  | condition | conjunction | disjunction | truth | falsity => some conditionBase

/-- A tag and the families above it, at most `n` of them. -/
def ancestryUpTo : Nat → NodeTag → List NodeTag
  | 0, t => [t]
  | n + 1, t =>
    match t.family? with
    | some f => t :: ancestryUpTo n f
    | none => [t]

/-- A tag and its families, most specific first; families are nested three deep at most. -/
def ancestry (t : NodeTag) : List NodeTag := ancestryUpTo 3 t

/-- The runtime package and type that nodes of a kind are built from. -/
def runtimeType : NodeTag → String × String
  | node | leaf | unknown => ("bt", "Node")
  | composite => ("bt", "Composite")
  | decorator => ("decorators", "Decorator")
  | decoratorCount => ("decorators", "Count")
  | conditionBase => ("conditions", "ConditionBase")
  | sequence => ("composites", "Sequence")
  | selector => ("composites", "Selector")
  | selectorLoop => ("composites", "SelectorLoop")
  | selectorProbability => ("composites", "SelectorProbability")
  | selectorStochastic => ("composites", "SelectorStochastic")
  | sequenceStochastic => ("composites", "SequenceStochastic")
  | ifElse => ("composites", "IfElse")
  | withPrecondition => ("composites", "WithPrecondition")
  | parallel => ("composites", "Parallel")
  | referencedBehavior => ("composites", "Subtree")
  | decoratorAlwaysSuccess => ("decorators", "AlwaysSuccess")
  | decoratorAlwaysFailure => ("decorators", "AlwaysFailure")
  | decoratorAlwaysRunning => ("decorators", "AlwaysRunning")
  | decoratorNot => ("decorators", "Not")
  | decoratorLoop => ("decorators", "Loop")
  | decoratorRepeat => ("decorators", "Repeat")
  | decoratorCountLimit => ("decorators", "CountLimit")
  | decoratorFailureUntil => ("decorators", "FailureUntil")
  | decoratorSuccessUntil => ("decorators", "SuccessUntil")
  | decoratorLoopUntil => ("decorators", "LoopUntil")
  | decoratorFrames => ("decorators", "Frames")
  | decoratorLog => ("decorators", "Log")
  | decoratorWeight => ("composites", "ProbabilityWeight")
  | action => ("performers", "Action")
  | assignment => ("performers", "Assignment")
  | compute => ("performers", "Compute")
  | wait => ("performers", "Wait")
  | waitFrames => ("actions", "WaitFrames")
  | finish => ("actions", "End")
  | noop => ("actions", "Noop")
  | waitForSignal => ("actions", "WaitForSignal")
  | condition => ("conditions", "Condition")
  | conjunction => ("conditions", "And")
  | disjunction => ("conditions", "Or")
  | truth => ("conditions", "True")
  | falsity => ("conditions", "False")

end NodeTag

/-- The kinds of attachments and the families they belong to. -/
inductive AttachmentTag where
  | attachment
  | attachAction
  | precondition
  | effector
  | event
  | unknown
  deriving DecidableEq, Repr

namespace AttachmentTag

def all : List AttachmentTag := [attachment, attachAction, precondition, effector, event, unknown]

/-- The name of a tag in documents and in generated class names. -/
def name : AttachmentTag → String
  | attachment => "Attachment"
  | attachAction => "AttachAction"
  | precondition => "Precondition"
  | effector => "Effector"
  | event => "Event"
  | unknown => "Unknown"

def ofName? (s : String) : Option AttachmentTag := all.find? (·.name == s)

/-- A tag and its families, most specific first. -/
def ancestry : AttachmentTag → List AttachmentTag
  | attachment => [attachment]
  | attachAction => [attachAction, attachment]
  | precondition => [precondition, attachAction, attachment]
  | effector => [effector, attachAction, attachment]
  | event => [event, attachment]
  | unknown => [unknown]

/-- The runtime package and type that attachments of a kind are built from. -/
def runtimeType : AttachmentTag → String × String
  | attachment | unknown => ("bt", "Attachment")
  | attachAction => ("attachments", "AttachAction")
  | precondition => ("bt", "Precondition")
  | effector => ("attachments", "Effector")
  | event => ("attachments", "Event")

end AttachmentTag

/-- The package and the type of a runtime class; without a package it is one of `bt`. -/
def runtimeClass (cls : String) : String × String := (Text.splitLast cls ".").getD ("bt", cls)

end GoTrees
