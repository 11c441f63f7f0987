/-!
# Operators and policies

The operators of computations, conditions and attachments with their Go symbols, and the policies of
parallel nodes. Each is written by name in documents; `ofName?` reads the names that it has.
-/

namespace GoTrees

inductive Arithmetic where
  | add
  | sub
  | mul
  | div
  deriving DecidableEq, Repr

namespace Arithmetic

def all : List Arithmetic := [add, sub, mul, div]

/-- The name in documents. -/
def name : Arithmetic → String
  | add => "Add"
  | sub => "Sub"
  | mul => "Mul"
  | div => "Div"

def ofName? (s : String) : Option Arithmetic := all.find? (·.name == s)

/-- The Go operator. -/
def symbol : Arithmetic → String
  | add => "+"
  | sub => "-"
  | mul => "*"
  | div => "/"

end Arithmetic

/-- A relation between two values. -/
inductive Relation where
  | equal
  | notEqual
  | greater
  | greaterEqual
  | less
  | lessEqual
  deriving DecidableEq, Repr

namespace Relation

def all : List Relation := [equal, notEqual, greater, greaterEqual, less, lessEqual]

def name : Relation → String
  | equal => "Equal"
  | notEqual => "NotEqual"
  | greater => "Greater"
  | greaterEqual => "GreaterEqual"
  | less => "Less"
  | lessEqual => "LessEqual"

def ofName? (s : String) : Option Relation := all.find? (·.name == s)

/-- The Go operator. -/
def symbol : Relation → String
  | equal => "=="
  | notEqual => "!="
  | greater => ">"
  | greaterEqual => ">="
  | less => "<"
  | lessEqual => "<="

end Relation

/-- The operator of a condition; `invalid` never holds. -/
inductive Comparison where
  | relation (r : Relation)
  | conjunction
  | disjunction
  | invalid
  deriving DecidableEq, Repr

namespace Comparison

def name : Comparison → String
  | relation r => r.name
  | conjunction => "And"
  | disjunction => "Or"
  | invalid => "Invalid"

/-- The operator of a name; every other name is `invalid`. -/
def ofName (s : String) : Comparison :=
  match s with
  | "And" => conjunction
  | "Or" => disjunction
  | _ => ((Relation.ofName? s).map relation).getD invalid

/-- The Go operator. -/
def symbol? : Comparison → Option String
  | relation r => some r.symbol
  | conjunction => some "&&"
  | disjunction => some "||"
  | invalid => none

end Comparison

/-- The operator of an attached action. -/
inductive AttachOperator where
  | invalid
  | assign
  | arithmetic (a : Arithmetic)
  | relation (r : Relation)
  deriving DecidableEq, Repr

namespace AttachOperator

def name : AttachOperator → String
  | invalid => "Invalid"
  | assign => "Assign"
  | arithmetic a => a.name
  | relation r => r.name

def ofName? (s : String) : Option AttachOperator :=
  match s with
  | "Invalid" => some invalid
  | "Assign" => some assign
  | _ => ((Arithmetic.ofName? s).map arithmetic) <|> ((Relation.ofName? s).map relation)

end AttachOperator

/-- When a parallel node succeeds. -/
inductive SuccessPolicy where
  | one
  | all
  | unspecified
  deriving DecidableEq, Repr

def SuccessPolicy.ofName : String → SuccessPolicy
  | "SucceedOnOne" => one
  | "SucceedOnAll" => all
  | _ => unspecified

/-- When a parallel node fails. -/
inductive FailurePolicy where
  | one
  | all
  | unspecified
  deriving DecidableEq, Repr

def FailurePolicy.ofName : String → FailurePolicy
  | "FailOnOne" => one
  | "FailOnAll" => all
  | _ => unspecified

/-- What happens to running children when a parallel node ends. -/
inductive ExitPolicy where
  | leave
  | abort
  | unspecified
  deriving DecidableEq, Repr

def ExitPolicy.ofName : String → ExitPolicy
  | "ExitNone" => leave
  | "ExitAbortRunningSiblings" => abort
  | _ => unspecified

/-- What happens to the finished children of a parallel node. -/
inductive ChildFinishPolicy where
  | once
  | loop
  | unspecified
  deriving DecidableEq, Repr

def ChildFinishPolicy.ofName : String → ChildFinishPolicy
  | "ChildOnce" => once
  | "ChildLoop" => loop
  | _ => unspecified

/-- The policies of a parallel node. -/
structure Policies where
  success : SuccessPolicy := .unspecified
  failure : FailurePolicy := .unspecified
  exit : ExitPolicy := .unspecified
  childFinish : ChildFinishPolicy := .unspecified
  deriving DecidableEq, Repr

/-- When a precondition is checked. -/
inductive PreconditionPhase where
  | enter
  | update
  | both
  deriving DecidableEq, Repr

def PreconditionPhase.ofName? : String → Option PreconditionPhase
  | "Enter" => some enter
  | "Update" => some update
  | "Both" => some both
  | _ => none

def PreconditionPhase.name : PreconditionPhase → String
  | enter => "Enter"
  | update => "Update"
  | both => "Both"

/-- When an effector acts. -/
inductive EffectorPhase where
  | success
  | failure
  | both
  deriving DecidableEq, Repr

def EffectorPhase.ofName? : String → Option EffectorPhase
  | "Success" => some success
  | "Failure" => some failure
  | "Both" => some both
  | _ => none

def EffectorPhase.name : EffectorPhase → String
  | success => "Success"
  | failure => "Failure"
  | both => "Both"

/-- What an event does to the running tree. -/
inductive TriggerMode where
  | transfer
  | goBack
  deriving DecidableEq, Repr

def TriggerMode.ofName? : String → Option TriggerMode
  | "Transfer" => some transfer
  | "Return" => some goBack
  | _ => none

def TriggerMode.name : TriggerMode → String
  | transfer => "Transfer"
  | goBack => "Return"

end GoTrees
