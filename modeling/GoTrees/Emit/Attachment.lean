import GoTrees.Emit.Recipe

/-!
# Recipes of the attachment kinds

Preconditions, effectors and attached actions get a class with one method that runs the action and
answers a status. Events only set fields.
-/

namespace GoTrees

open Go

namespace AttachmentRecipe

/-- The statements of an attached comparison. -/
def compareBody (x : Context) (r : Relation) (target second : Operand) : Emit (List Stmt) := do
  let (pre1, expr1) := (← x.operand target "opl").bind "oplRet"
  let (pre2, expr2) := (← x.operand second "opr2").bind "opr2Ret"
  let steps := pre1 ++ [.define "opl" expr1] ++ pre2 ++ [.define "opr2" expr2,
    .define "op" (.binary (.name "opl") r.symbol (.name "opr2"))]
  let fail := .step (.assign (.name "result") Status.failure.expr)
  return steps.map .step ++ [.ifThen (.not (.name "op")) [fail]]

/-- The steps of an attached assignment. -/
def assignBody (x : Context) (target : Variable) (second : Operand) : Emit (List Step) := do
  let (pre, expr) := (← x.operand second "opr2").bind "opr2"
  return pre ++ (← x.writeVariable target expr "opl")

/-- The steps of an attached computation. The result is converted to the type of the first operand. -/
def computeBody (x : Context) (a : Arithmetic) (target : Variable) (first second : Operand) :
    Emit (List Step) := do
  let type ← x.goType first.type
  let (pre1, expr1) := (← x.operand first "opr1").bind "opr1"
  let (pre2, expr2) := (← x.operand second "opr2").bind "opr2"
  let value := .converted type (.binary expr1 a.symbol expr2)
  return pre1 ++ pre2 ++ (← x.writeVariable target value "opl")

/-- What an attached action does; with a missing or unfit operand it does nothing. -/
def actionBody (x : Context) (a : AttachAction) : Emit (List Stmt) := do
  match a.classify, a.target, a.first, a.second with
  | .call, some (.call m args), _, _ =>
    return (← x.callMethod (m, args) "opl").statement.map .step
  | .assign, some (.var target), _, some second =>
    return (← assignBody x target second).map .step
  | .compare r, some target, _, some second => compareBody x r target second
  | .compute op, some (.var target), some first, some second =>
    return (← computeBody x op target first second).map .step
  | _, _, _, _ => return []

/-- The method that runs an attached action. -/
def updateMethods (x : Context) (a : Attachment) (className : String) : Emit (List Decl) :=
  match a.kind.action? with
  | none => pure []
  | some action => do
    Emit.usePackage "bt"
    let body ← actionBody x action
    return methodDecls className "Update" (some "bt.Status")
      ([.step (.define "result" Status.success.expr)] ++ body ++ [.step (.ret (.name "result"))])

def attachAction : AttachmentRecipe where
  declares a := a.kind.action?.isSome
  methods := updateMethods
  create := fun _ a className => createAttachment a className

/-- Preconditions set their phase and how they are combined. -/
def precondition : AttachmentRecipe where
  declares a := match a.kind with
    | .precondition .. => true
    | _ => false
  setup _ a := match a.kind with
    | .precondition phase conj _ => do
      Emit.usePackage "bt"
      return [setSelf "Phase" (.member "bt" ("PreconditionPhase" ++ phase.name)),
        setSelf "And" (.bool conj)]
    | _ => pure []
  methods := updateMethods
  create := fun _ a className => createAttachment a className

/-- Effectors set their phase. -/
def effector : AttachmentRecipe where
  declares a := match a.kind with
    | .effector .. => true
    | _ => false
  setup _ a := match a.kind with
    | .effector phase _ => do
      Emit.usePackage "bt"
      return [setSelf "Phase" (.member "bt" ("EffectorPhase" ++ phase.name))]
    | _ => pure []
  methods := updateMethods
  create := fun _ a className => createAttachment a className

/-- Events set the task they wait for and the tree they switch to. -/
def event : AttachmentRecipe where
  declares a := match a.kind with
    | .event _ => true
    | _ => false
  setup _ a := match a.kind with
    | .event e => do
      Emit.usePackage "bt"
      return [setSelf "Task" (.string (basicName e.task)),
        setSelf "Once" (.bool e.once),
        setSelf "Mode" (.member "bt" ("EventMode" ++ e.mode.name)),
        setSelf "Tree" (.string e.tree)]
    | _ => pure []
  create := fun _ a className => createAttachment a className

end AttachmentRecipe

end GoTrees
