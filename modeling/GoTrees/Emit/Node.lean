import GoTrees.Emit.Recipe

/-!
# Recipes of the node kinds

Actions, assignments, computations, conditions, waits and the decorators with operands get a class
whose methods evaluate the operands. Composites and leaves without operands use their runtime type.
-/

namespace GoTrees

open Go

namespace NodeRecipe

/-! ### Composites -/

/-- The Go constant of a failure policy, empty if it is unspecified. -/
def failurePolicy : FailurePolicy → Expr
  | .one => .member "composites" "ParallelFailureOnOne"
  | .all => .member "composites" "ParallelFailureOnAll"
  | .unspecified => .literal ""

/-- The Go constant of a success policy, empty if it is unspecified. -/
def successPolicy : SuccessPolicy → Expr
  | .one => .member "composites" "ParallelSuccessOnOne"
  | .all => .member "composites" "ParallelSuccessOnAll"
  | .unspecified => .literal ""

/-- The Go constant of an exit policy, empty if it is unspecified. -/
def exitPolicy : ExitPolicy → Expr
  | .leave => .member "composites" "ParallesExitNone"
  | .abort => .member "composites" "ParallesExitAbort"
  | .unspecified => .literal ""

/-- The Go constant of a child policy, empty if it is unspecified. -/
def childFinishPolicy : ChildFinishPolicy → Expr
  | .once => .member "composites" "ParallelChildFinishOnce"
  | .loop => .member "composites" "ParallelChildFinishLoop"
  | .unspecified => .literal ""

/-- Parallel nodes set their policies. -/
def parallel : NodeRecipe where
  declares n := match n.kind with
    | .parallel _ => true
    | _ => false
  setup _ n := pure <| match n.kind with
    | .parallel p =>
      [setSelf "FailurePolicy" (failurePolicy p.failure),
       setSelf "SuccessPolicy" (successPolicy p.success),
       setSelf "ExitPolicy" (exitPolicy p.exit),
       setSelf "ChildFinishPolicy" (childFinishPolicy p.childFinish)]
    | _ => []
  create := fun _ n className => createNode n className

/-- Stops the program with a message. -/
def giveUp (message : String) : Stmt := .step (.eval (.call (.name "panic") [.string message]))

/-- The body that answers the name of a referenced tree. -/
def subtreeBody (x : Context) (tree : Operand) : Emit (List Stmt) := do
  match tree with
  | .var (.const _ (.string name)) =>
    if x.catalog.knowsBehavior name then return [.step (.ret (.string name))]
    else return [giveUp ("subtree not found: " ++ name)]
  | _ =>
    let (pre, expr) := (← x.operand tree "subtree").bind "subtree"
    return [.ifThen (.binary agentVar "!=" .nil) ((pre ++ [Step.ret expr]).map .step),
      giveUp "subtree not found"]

/-- References to other trees look the tree up by name. -/
def reference : NodeRecipe where
  declares n := match n.kind with
    | .reference (some _) => true
    | _ => false
  methods x n className := match n.kind with
    | .reference (some tree) => do
      return methodDecls className "GetSubtree" (some "string") (← subtreeBody x tree)
    | _ => pure []
  create := fun _ n className => createNode n className

/-! ### Decorators -/

/-- A method that answers a whole number. -/
def intGetter (className name : String) (value : Emission) : List Decl :=
  getterDecls className name "int" value (some "int")

/-- The method that answers the count of a counting decorator. -/
def countMethods (x : Context) (n : Node) (className : String) : Emit (List Decl) :=
  match n.kind.count? with
  | some count => do return intGetter className "GetCount" (← x.readVariable count "count")
  | none => pure []

/-- Decorators without operands still get a class. -/
def decorator : NodeRecipe where
  declares _ := true
  create := fun _ n className => createNode n className

def decoratorCount : NodeRecipe where
  declares _ := true
  methods := countMethods
  create := fun _ n className => createNode n className

/-- The counting decorator that waits for a result. -/
def decoratorLoopUntil : NodeRecipe where
  declares _ := true
  setup _ n := pure <| match n.kind with
    | .loopUntil _ expected => [setSelf "Until" (.bool expected)]
    | _ => []
  methods := countMethods
  create := fun _ n className => createNode n className

/-- The decorator that runs for a number of frames. -/
def decoratorFrames : NodeRecipe where
  declares _ := true
  methods x n className := match n.kind with
    | .frames (some frames) => do
      return intGetter className "GetFrames" (← x.operand frames "frames")
    | _ => pure []
  create := fun _ n className => createNode n className

/-- The decorator that logs a message. -/
def decoratorLog : NodeRecipe where
  declares _ := true
  setup _ n := pure <| match n.kind with
    | .log message => [setSelf "Message" (.string message)]
    | _ => []
  create := fun _ n className => createNode n className

/-- The weight of a child of a probability selector, called through a function field. -/
def decoratorWeight : NodeRecipe where
  declares _ := true
  setup _ n := pure <| match n.kind with
    | .weight (some _) => [setSelf "GetWeight" (.select self "doGetWeight")]
    | _ => []
  methods x n className := match n.kind with
    | .weight (some weight) => do
      return intGetter className "doGetWeight" (← x.readVariable weight "weight")
    | _ => pure []
  create := fun _ n className => createNode n className

/-! ### Leaves -/

/-- The status that an action answers once its method was called: by the functor, if there is one and no
status is given, else the given status. The functor gets the result of the method if there is one. -/
def actionStatus (x : Context) (a : Action) (isVoid : Bool) : Emit (List Step × Expr) := do
  match a.resultFunctor with
  | some functor =>
    if a.resultOption = .invalid then
      if isVoid then return (← x.callMethod functor "functor").bind "functor"
      else
        let agent ← Context.receiver functor.1.className
        return ([], .call (.select agent (memberName functor.1.name)) [.name "result"])
    else return ([], a.resultOption.expr)
  | none => return ([], a.resultOption.expr)

/-- Is the result of the method passed to the functor? -/
def keepsResult (a : Action) (isVoid : Bool) : Bool :=
  !isVoid && a.resultOption = .invalid && a.resultFunctor.isSome

/-- The body that executes an action. A method that answers a status decides by itself. -/
def actionBody (x : Context) (a : Action) : Emit (List Step) := do
  match a.method with
  | none => return [.ret a.resultOption.expr]
  | some method =>
    let call ← x.callMethod method "method"
    let type := x.catalog.classify method.1.result
    if type = .status then
      return call.pre ++ [.define "result" call.expr] ++ call.post ++ [.ret (.name "result")]
    else
      let isVoid := decide (type = .void)
      let step := if keepsResult a isVoid then .define "result" call.expr else .eval call.expr
      let (pre, status) ← actionStatus x a isVoid
      return call.pre ++ [step] ++ call.post ++ pre ++ [.ret status]

/-- Actions call a method of the agent. -/
def action : NodeRecipe where
  declares n := match n.kind with
    | .action _ => true
    | _ => false
  methods x n className := match n.kind with
    | .action a => do
      Emit.usePackage "bt"
      return methodDecls className "Execute" (some "bt.Status") ((← actionBody x a).map .step)
    | _ => pure []
  create := fun _ n className => createNode n className

/-- The body of an assignment; nothing is done if an operand is missing. -/
def assignmentBody (x : Context) (a : Assignment) : Emit (List Step) := do
  match a.target, a.source with
  | some target, some source =>
    let (pre, expr) := (← x.operand source "opr").bind "opr"
    let value ← if a.casting then do pure (.converted (← x.goType target.type) expr) else pure expr
    return pre ++ (← x.writeVariable target value "opl")
  | _, _ => return []

/-- Assignments store a value in a variable. -/
def assignment : NodeRecipe where
  declares n := match n.kind with
    | .assignment _ => true
    | _ => false
  methods x n className := match n.kind with
    | .assignment a => do
      return methodDecls className "Assign" none ((← assignmentBody x a).map .step)
    | _ => pure []
  create := fun _ n className => createNode n className

/-- The body of a computation; nothing is done if an operand is missing. The result is converted to the
type of the variable. -/
def computeBody (x : Context) (c : Compute) : Emit (List Step) := do
  match c.target, c.first, c.second with
  | some target, some first, some second =>
    let (pre1, expr1) := (← x.operand first "opr1").bind "opr1"
    let (pre2, expr2) := (← x.operand second "opr2").bind "opr2"
    let type ← x.goType target.type
    let value := .converted type (.binary expr1 c.operator.symbol expr2)
    return pre1 ++ pre2 ++ (← x.writeVariable target value "opl")
  | _, _, _ => return []

/-- Computations store the result of an arithmetic operation. -/
def compute : NodeRecipe where
  declares n := match n.kind with
    | .compute _ => true
    | _ => false
  methods x n className := match n.kind with
    | .compute c => do
      return methodDecls className "Calculate" none ((← computeBody x c).map .step)
    | _ => pure []
  create := fun _ n className => createNode n className

/-- Waits for a time. -/
def wait : NodeRecipe where
  declares n := match n.kind with
    | .wait _ => true
    | _ => false
  methods x n className := match n.kind with
    | .wait (some time) => do return intGetter className "GetTime" (← x.operand time "time")
    | _ => pure []
  create := fun _ n className => createNode n className

/-- Waits for a number of frames. -/
def waitFrames : NodeRecipe where
  declares n := match n.kind with
    | .waitFrames _ => true
    | _ => false
  methods x n className := match n.kind with
    | .waitFrames (some frames) => do
      return intGetter className "GetFrames" (← x.operand frames "frames")
    | _ => pure []
  create := fun _ n className => createNode n className

/-- Ends the tree with a status. -/
def finish : NodeRecipe where
  declares n := match n.kind with
    | .finish .. => true
    | _ => false
  setup _ n := pure <| match n.kind with
    | .finish _ outside => [setSelf "EndOutside" (.bool outside)]
    | _ => []
  methods x n className := match n.kind with
    | .finish (some status) _ => do
      return getterDecls className "GetStatus" "bt.Status" (← x.operand status "status") none
    | _ => pure []
  create := fun _ n className => createNode n className

/-! ### Conditions -/

/-- The body of a comparison. A missing operand or an invalid operator makes it false. -/
def conditionBody (x : Context) (c : Condition) : Emit (List Step) := do
  match c.left, c.right, c.operator.symbol? with
  | some left, some right, some symbol =>
    let (pre1, expr1) := (← x.operand left "opl").bind "oplRet"
    let (pre2, expr2) := (← x.operand right "opr").bind "oprRet"
    return pre1 ++ [.define "opl" expr1] ++ pre2 ++ [.define "opr" expr2,
      .ret (.binary (.name "opl") symbol (.name "opr"))]
  | _, _, _ => return [.ret (.bool false)]

/-- Conditions compare two values. -/
def condition : NodeRecipe where
  declares n := match n.kind with
    | .condition _ => true
    | _ => false
  methods x n className := match n.kind with
    | .condition c => do
      return methodDecls className "Compare" (some "bool") ((← conditionBody x c).map .step)
    | _ => pure []
  create := fun _ n className => createNode n className

end NodeRecipe

end GoTrees
