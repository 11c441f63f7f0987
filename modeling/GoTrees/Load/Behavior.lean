import GoTrees.Load.Operand

/-!
# Trees of a document

The `type` of a node or an attachment decides which fields are read. Policies, phases and operators that
are left out or not known have their defaults; only the operator of a computation has to be there.
-/

namespace GoTrees.Load

/-- The alternative that a field names, or the default. -/
def choice (v : Yaml.Value) (field : String) (ofName? : String → Option α) (default : α) : α :=
  (((v.get? field).bind Yaml.Value.alternative?).bind ofName?).getD default

/-- The truth value of a field, or the default. -/
def flag (v : Yaml.Value) (field : String) (default : Bool) : Bool := (v.bool? field).getD default

/-- A status by its name or else by its member. -/
def statusOf (text : String) : Status := (Status.ofName? text).getD (Status.ofMember text)

/-- The type of a node; truth values are kinds too. -/
def nodeType? (v : Yaml.Value) : Option String :=
  match v.get? "type" with
  | some (.bool b) => some (if b then "True" else "False")
  | some (.string s) => some s
  | _ => none

def policies (v : Yaml.Value) : Policies where
  success := choice v "success" (some ∘ SuccessPolicy.ofName) .unspecified
  failure := choice v "failure" (some ∘ FailurePolicy.ofName) .unspecified
  exit := choice v "exit" (some ∘ ExitPolicy.ofName) .unspecified
  childFinish := choice v "child_finish" (some ∘ ChildFinishPolicy.ofName) .unspecified

namespace Scope

def assignment (s : Scope) (v : Yaml.Value) : Except LoadError Assignment := do
  let target ← s.variableField v "opl" none
  let source ← s.operandField v "opr" (target.map (·.type))
  return { target, source, casting := flag v "casting" false }

def compute (s : Scope) (v : Yaml.Value) : Except LoadError Compute := do
  let target ← s.variableField v "opl" none
  match ((v.get? "operator").bind Yaml.Value.alternative?).bind Arithmetic.ofName? with
  | none => .error (s.missing "operator")
  | some operator =>
    let first ← s.operandField v "opr1" (target.map (·.type))
    let second ← s.operandField v "opr2" (target.map (·.type))
    return { target, first, operator, second }

def action (s : Scope) (v : Yaml.Value) : Except LoadError Action := do
  let method ← s.callField v "method"
  let resultFunctor ← s.callField v "result_functor"
  return { method, resultFunctor, resultOption := ((v.string? "result_option").map statusOf).getD .invalid }

def condition (s : Scope) (v : Yaml.Value) : Except LoadError Condition := do
  let (left, right) ← s.operandPair v "opl" "opr"
  return { left, right, operator := choice v "operator" (some ∘ Comparison.ofName) .invalid }

/-- The kind of a node of a type that carries data, or of a type that is not known. -/
def dataKind (s : Scope) (type : String) (v : Yaml.Value) : Except LoadError NodeKind :=
  match type with
  | "Parallel" => .ok (.parallel (policies v))
  | "ReferencedBehavior" => .reference <$> s.operandField v "tree" (some stringType)
  | "DecoratorLoopUntil" => do
    return .loopUntil (← s.variableField v "count" (some "int")) (flag v "until" false)
  | "DecoratorFrames" => .frames <$> s.operandField v "frames" (some "int")
  | "DecoratorLog" => .ok (.log ((v.string? "message").getD ""))
  | "DecoratorWeight" => .weight <$> s.variableField v "weight" (some "int")
  | "Action" => .action <$> s.action v
  | "Assignment" => .assignment <$> s.assignment v
  | "Compute" => .compute <$> s.compute v
  | "Wait" => .wait <$> s.operandField v "time" (some "double")
  | "WaitFrames" => .waitFrames <$> s.operandField v "frames" (some "int")
  | "End" => do
    return .finish (← s.operandField v "status" (some statusType)) (flag v "end_outside" false)
  | "Condition" => .condition <$> s.condition v
  | other => .ok (.unknown other)

/-- The kind of a node of a type. -/
def nodeKind (s : Scope) (type : String) (v : Yaml.Value) : Except LoadError NodeKind :=
  match PlainKind.all.find? (·.tag.name == type), CountKind.all.find? (·.tag.name == type) with
  | some k, _ => .ok (.plain k)
  | none, some k => .counted k <$> s.variableField v "count" (some "int")
  | none, none => s.dataKind type v

def attachAction (s : Scope) (v : Yaml.Value) : Except LoadError AttachAction := do
  let (target, second) ← s.operandPair v "opl" "opr2"
  let first ← s.operandField v "opr1" (target.map (·.type))
  return { target, first, second, operator := choice v "operator" AttachOperator.ofName? .invalid }

def attachmentKind (s : Scope) (type : String) (v : Yaml.Value) : Except LoadError AttachmentKind :=
  match type with
  | "Precondition" => do
    let phase := choice v "phase" PreconditionPhase.ofName? .enter
    return .precondition phase (flag v "and" false) (← s.attachAction v)
  | "Effector" => do
    return .effector (choice v "phase" EffectorPhase.ofName? .success) (← s.attachAction v)
  | "Event" =>
    .ok (.event {
      task := (v.string? "task").getD ""
      once := flag v "once" false
      mode := choice v "mode" TriggerMode.ofName? .transfer
      tree := (v.string? "tree").getD "" })
  | "AttachAction" => .attachAction <$> s.attachAction v
  | other => .ok (.unknown other)

/-- The id of a node or an attachment of a type. -/
def idOf (type : String) (v : Yaml.Value) : Except LoadError Int :=
  match v.int32? "id" with
  | some id => .ok id
  | none => .error (.missingField type "id")

def attachment (s : Scope) (v : Yaml.Value) : Except LoadError Attachment := do
  match v.string? "type" with
  | none => .error (s.missing "type")
  | some type =>
    let id ← idOf type v
    let kind ← (s.within ("attach" ++ toString id)).attachmentKind type v
    return { id, kind, enabled := flag v "enabled" true, isTransition := flag v "transition" false }

def attachments (s : Scope) (v : Yaml.Value) : Except LoadError (List Attachment) :=
  (v.items "attachments").mapM s.attachment

/-- A node with what is below it, nested no deeper than the bound. -/
def subtreeWithin (s : Scope) : Nat → Yaml.Value → Except LoadError Subtree
  | 0, _ => .error (s.missing "type")
  | depth + 1, v =>
    match nodeType? v with
    | none => .error (s.missing "type")
    | some type => do
      let id ← idOf type v
      let inner := s.within ("node" ++ toString id)
      let kind ← inner.nodeKind type v
      let attachments ← inner.attachments v
      let children ← (v.items "children").mapM (inner.subtreeWithin depth)
      return .mk {
        id, kind, attachments
        enabled := flag v "enabled" true
        asChild := flag v "as_child" true
        fsm := flag v "fsm" false
        initialState := v.int32? "initial_state" } children

/-- A node with what is below it. -/
def subtree (s : Scope) (v : Yaml.Value) : Except LoadError Subtree := s.subtreeWithin (v.depth + 1) v

end Scope

/-- A local variable of the tree of a name. -/
def loadLocal (tree : String) (v : Yaml.Value) : Except LoadError Local :=
  match v.string? "name" with
  | none => .error (.missingField tree "locals")
  | some name => .ok {
      name
      type := (v.string? "type").getD "int"
      initial := ((v.get? "default").map (·.scalarText)).getD "" }

/-- The agent type of a tree, which is known unless it is the base of all. -/
def loadAgentType (catalog : Catalog) (v : Yaml.Value) : Except LoadError String :=
  let agentType := (v.string? "agent").getD agentBase
  if agentType == agentBase || (catalog.agent? agentType).isSome then .ok agentType
  else .error (.unknownAgent agentType)

def loadBehavior (catalog : Catalog) (v : Yaml.Value) : Except LoadError Behavior :=
  match v.string? "name" with
  | none => .error (.missingField "behavior" "name")
  | some name => do
    let agentType ← loadAgentType catalog v
    let locals ← (v.items "locals").mapM (loadLocal name)
    let scope : Scope := { catalog, agentType, locals, owner := name }
    let attachments ← scope.attachments v
    let children ← (v.items "children").mapM scope.subtree
    return {
      name, agentType, locals, attachments, children
      path := (v.string? "path").getD (name ++ ".xml")
      comment := (v.string? "comment").getD ""
      fsm := flag v "fsm" false
      initialState := v.int32? "initial_state" }

end GoTrees.Load
