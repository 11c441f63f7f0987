import GoTrees.Generator
import GoTrees.Load.Document
import GoTrees.Proofs.Temporaries

/-!
# Remarks

Trees have comments, and the entries of the catalog have descriptions and display names. Properties and methods
bring theirs along into the operands that name them. Something is silent if all of its remarks are gone.
The code of classes and trees is emitted without looking at remarks, so it is the same for a silent tree
against a silent catalog: whatever an emitting function is given, it answers the same for the silent form
of it.
-/

namespace GoTrees

open Go List

variable (native : String)

/-! ### Silent catalogs -/

def Property.silent (p : Property) : Property := { p with description := "" }

def Param.silent (p : Param) : Param := { p with description := "" }

def Method.silent (m : Method) : Method := { m with params := m.params.map Param.silent, description := "" }

def AgentType.silent (a : AgentType) : AgentType :=
  { a with
    description := ""
    properties := a.properties.map Property.silent
    methods := a.methods.map Method.silent }

def EnumMember.silent (m : EnumMember) : EnumMember := { m with display := "" }

def EnumType.silent (e : EnumType) : EnumType :=
  { e with description := "", members := e.members.map EnumMember.silent }

def StructType.silent (s : StructType) : StructType :=
  { s with description := "", properties := s.properties.map Property.silent }

/-- The catalog without descriptions and display names. -/
def Catalog.silent (c : Catalog) : Catalog :=
  { c with
    agents := c.agents.map AgentType.silent
    enums := c.enums.map EnumType.silent
    structs := c.structs.map StructType.silent }

/-! ### Silent trees -/

def Variable.silent : Variable → Variable
  | const type value => const type value
  | property p => property p.silent
  | element p index => element p.silent index.silent

mutual

def Operand.silent : Operand → Operand
  | var v => var v.silent
  | call m args => call m.silent (Operand.allSilent args)

def Operand.allSilent : List (Option Operand) → List (Option Operand)
  | [] => []
  | none :: args => none :: Operand.allSilent args
  | some o :: args => some o.silent :: Operand.allSilent args

end

def Call.silent (c : Call) : Call := (c.1.silent, Operand.allSilent c.2)

def Action.silent (a : Action) : Action :=
  { a with method := a.method.map Call.silent, resultFunctor := a.resultFunctor.map Call.silent }

def Assignment.silent (a : Assignment) : Assignment :=
  { a with target := a.target.map Variable.silent, source := a.source.map Operand.silent }

def Compute.silent (c : Compute) : Compute :=
  { c with
    target := c.target.map Variable.silent
    first := c.first.map Operand.silent
    second := c.second.map Operand.silent }

def Condition.silent (c : Condition) : Condition :=
  { c with left := c.left.map Operand.silent, right := c.right.map Operand.silent }

def NodeKind.silent : NodeKind → NodeKind
  | .plain k => .plain k
  | .parallel p => .parallel p
  | .reference tree => .reference (tree.map Operand.silent)
  | .counted k count => .counted k (count.map Variable.silent)
  | .loopUntil count expected => .loopUntil (count.map Variable.silent) expected
  | .frames n => .frames (n.map Operand.silent)
  | .log message => .log message
  | .weight w => .weight (w.map Variable.silent)
  | .action a => .action a.silent
  | .assignment a => .assignment a.silent
  | .compute c => .compute c.silent
  | .wait time => .wait (time.map Operand.silent)
  | .waitFrames n => .waitFrames (n.map Operand.silent)
  | .finish status outside => .finish (status.map Operand.silent) outside
  | .condition c => .condition c.silent
  | .unknown cls => .unknown cls

def AttachAction.silent (a : AttachAction) : AttachAction :=
  { a with
    target := a.target.map Operand.silent
    first := a.first.map Operand.silent
    second := a.second.map Operand.silent }

def AttachmentKind.silent : AttachmentKind → AttachmentKind
  | .precondition phase conj action => .precondition phase conj action.silent
  | .effector phase action => .effector phase action.silent
  | .event e => .event e
  | .attachAction action => .attachAction action.silent
  | .unknown cls => .unknown cls

def Attachment.silent (a : Attachment) : Attachment := { a with kind := a.kind.silent }

def Node.silent (n : Node) : Node :=
  { n with kind := n.kind.silent, attachments := n.attachments.map Attachment.silent }

mutual

def Subtree.silent : Subtree → Subtree
  | mk node children => mk node.silent (Subtree.allSilent children)

def Subtree.allSilent : List Subtree → List Subtree
  | [] => []
  | t :: ts => t.silent :: Subtree.allSilent ts

end

/-- The tree without its comment, and without the descriptions that its operands bring along. -/
def Behavior.silent (b : Behavior) : Behavior :=
  { b with
    comment := ""
    attachments := b.attachments.map Attachment.silent
    children := Subtree.allSilent b.children }

/-- The document without remarks. -/
def Document.silent (d : Document) : Document :=
  { d with catalog := d.catalog.silent, behaviors := d.behaviors.map Behavior.silent }

/-! ### Lookups -/

namespace Catalog

theorem findNamed?_map {α : Type} {nameOf : α → String} {f : α → α} (same : ∀ e, nameOf (f e) = nameOf e)
    (entries : List α) (name : String) :
    findNamed? nameOf (entries.map f) name = (findNamed? nameOf entries name).map f := by
  simp only [findNamed?, find?_map, Function.comp_def, same]
  cases entries.find? fun e => nameOf e == name <;> rfl

variable (c : Catalog) (name : String)

theorem agent?_silent : c.silent.agent? name = (c.agent? name).map AgentType.silent :=
  findNamed?_map (f := AgentType.silent) (fun _ => rfl) c.agents name

theorem enum?_silent : c.silent.enum? name = (c.enum? name).map EnumType.silent :=
  findNamed?_map (f := EnumType.silent) (fun _ => rfl) c.enums name

theorem struct?_silent : c.silent.struct? name = (c.struct? name).map StructType.silent :=
  findNamed?_map (f := StructType.silent) (fun _ => rfl) c.structs name

theorem propertyIn?_silent (ps : List Property) :
    propertyIn? (ps.map Property.silent) name = (propertyIn? ps name).map Property.silent := by
  simp only [propertyIn?, find?_map]
  rfl

theorem classifyName_silent (pointer : Nat) :
    c.silent.classifyName name pointer = c.classifyName name pointer := by
  simp only [classifyName, enum?_silent, struct?_silent, agent?_silent, Option.isSome_map]
  cases c.struct? name <;> rfl

theorem classifySpelling_silent (s : Spelling) : c.silent.classifySpelling s = c.classifySpelling s := by
  fun_induction classifySpelling c s <;> simp_all [classifySpelling, classifyPlain, classifyName_silent]

@[simp] theorem classify_silent : c.silent.classify native = c.classify native := by
  simp only [classify, classifySpelling_silent]

end Catalog

/-! ### Operands -/

def Context.silent (x : Context) : Context := { x with catalog := x.catalog.silent }

namespace Context

variable (x : Context)

@[simp] theorem classify_silent :
    x.silent.catalog.classify native = x.catalog.classify native := Catalog.classify_silent _ _

@[simp] theorem goType_silent : x.silent.goType native = x.goType native := by
  have same (name : String) : x.silent.isCatalogType name = x.isCatalogType name := by
    simp [isCatalogType, silent, Catalog.enum?_silent, Catalog.struct?_silent, Catalog.agent?_silent]
  simp only [goType, same]
  rfl

@[simp] theorem scalar_silent (v : Value) : x.silent.scalar native v = x.scalar native v := by
  cases v <;> simp [scalar]

@[simp] theorem scalars_silent (native : String) : ∀ vs : List Value,
    x.silent.scalars native vs = x.scalars native vs
  | [] => rfl
  | v :: vs => by simp [scalars, scalars_silent native vs]

@[simp] theorem sliceLiteral_silent (items : List Value) :
    x.silent.sliceLiteral native items = x.sliceLiteral native items := by
  simp [sliceLiteral]

theorem fieldNative_silent (struct : Option StructType) (field : String) :
    fieldNative (struct.map StructType.silent) field = fieldNative struct field := by
  cases struct with
  | none => rfl
  | some s =>
    have found := Catalog.propertyIn?_silent field s.properties
    simp only [fieldNative, Option.map_some, Option.bind_some, StructType.silent, found]
    cases Catalog.propertyIn? s.properties field <;> rfl

mutual

theorem setFields_silent (target : Expr) (struct : Option StructType) : ∀ fields : List (String × Value),
    x.silent.setFields target (struct.map StructType.silent) fields = x.setFields target struct fields
  | [] => by simp [setFields]
  | (field, value) :: fields => by
      simp [setFields, fieldNative_silent, setField_silent _ _ value, setFields_silent target struct fields]

theorem setField_silent (target : Expr) (native : String) : ∀ value : Value,
    x.silent.setField target native value = x.setField target native value
  | .struct fields => by
      have struct : x.silent.structOf? native = (x.structOf? native).map StructType.silent :=
        Catalog.struct?_silent _ _
      rw [setField, setField, struct, setFields_silent target _ fields]
  | .array [] => by simp [setField]
  | .array (item :: items) => by simp [setField]
  | .bool _ | .int _ | .float _ | .char _ | .string _ | .member _ => by simp [setField]

end

@[simp] theorem capture_silent (v : Value) (field : String) :
    x.silent.capture native v field = x.capture native v field := by
  simp [capture, captureSetup, setField_silent]

@[simp] theorem constant_silent (v : Value) (slot : String) :
    x.silent.constant native v slot = x.constant native v slot := by
  simp [constant]

theorem ownerOf_silent (p : Property) (slot : String) :
    x.silent.ownerOf p.silent slot = x.ownerOf p slot := rfl

theorem readFrom_silent (p : Property) (owner : Expr) (i : Option Expr) :
    x.silent.readFrom p.silent owner i = x.readFrom p owner i := by
  simp only [readFrom, goType_silent]
  rfl

theorem writeTo_silent (p : Property) (owner : Expr) (i : Option Expr) (value : Expr) :
    x.silent.writeTo p.silent owner i value = x.writeTo p owner i value := by
  simp only [writeTo, goType_silent]
  rfl

@[simp] theorem readVariable_silent : ∀ (v : Variable) (slot : String),
    x.silent.readVariable v.silent slot = x.readVariable v slot
  | .const native value, slot => x.constant_silent native value slot
  | .property p, slot => by
      simp only [Variable.silent, readVariable, ownerOf_silent, readFrom_silent]
  | .element p index, slot => by
      simp only [Variable.silent, readVariable, ownerOf_silent, readFrom_silent, readVariable_silent index]

@[simp] theorem writeVariable_silent (v : Variable) (value : Expr) (slot : String) :
    x.silent.writeVariable v.silent value slot = x.writeVariable v value slot := by
  cases v with
  | const native constant => rfl
  | property p => simp only [Variable.silent, writeVariable, ownerOf_silent, writeTo_silent]
  | element p index =>
    simp only [Variable.silent, writeVariable, ownerOf_silent, writeTo_silent, readVariable_silent]

@[simp] theorem unboundArgument_silent (p : Param) :
    x.silent.unboundArgument p.silent = x.unboundArgument p := by
  simp only [unboundArgument, defaultLiteral, goType_silent, classify_silent]
  rfl

@[simp] theorem unboundArguments_silent : ∀ ps : List Param,
    x.silent.unboundArguments (ps.map Param.silent) = x.unboundArguments ps
  | [] => rfl
  | p :: ps => by simp [unboundArguments, unboundArguments_silent ps]

@[simp] theorem constArgument_silent (p : Param) (native : String) (v : Value) (slot : String) :
    x.silent.constArgument p.silent native v slot = x.constArgument p native v slot := by
  simp only [constArgument, capture_silent]
  rfl

@[simp] theorem variableArgument_silent (p : Param) (v : Variable) (e : Emission) (slot : String) :
    x.silent.variableArgument p.silent v.silent e slot = x.variableArgument p v e slot := by
  have writable : isWritable v.silent = isWritable v := by cases v <;> rfl
  simp only [variableArgument, writeVariable_silent, writable]
  rfl

@[simp] theorem callArgument_silent (p : Param) (e : Emission) (slot : String) :
    callArgument p.silent e slot = callArgument p e slot := rfl

@[simp] theorem invoke_silent (m : Method) (args : Arguments) (slot : String) :
    x.silent.invoke m.silent args slot = x.invoke m args slot := rfl

/-- Remarks do not change an argument. -/
theorem givenArgument_silent (p : Param) {o : Operand} {slot : String}
    (h : x.silent.operand o.silent slot = x.operand o slot) :
    x.silent.givenArgument p.silent o.silent slot = x.givenArgument p o slot := by
  cases o with
  | var v =>
    cases v with
    | const native value => exact x.constArgument_silent p native value slot
    | property q =>
      have read := x.readVariable_silent (.property q) slot
      have passed := x.variableArgument_silent p (.property q)
      simp only [Variable.silent] at read passed
      simp only [Operand.silent, Variable.silent, givenArgument, read, passed]
    | element q index =>
      have read := x.readVariable_silent (.element q index) slot
      have passed := x.variableArgument_silent p (.element q index)
      simp only [Variable.silent] at read passed
      simp only [Operand.silent, Variable.silent, givenArgument, read, passed]
  | call m args =>
    simp only [Operand.silent] at h
    simp only [Operand.silent, givenArgument, h, callArgument_silent]

mutual

@[simp] theorem operand_silent : ∀ (o : Operand) (slot : String),
    x.silent.operand o.silent slot = x.operand o slot
  | .var v, slot => by simp [Operand.silent, operand]
  | .call m args, slot => by
      have given := arguments_silent m.params args slot 0
      simp only [Operand.silent, operand, invoke_silent]
      rw [← given]
      rfl

theorem arguments_silent : ∀ (params : List Param) (args : List (Option Operand)) (slot : String) (i : Nat),
    x.silent.arguments (params.map Param.silent) (Operand.allSilent args) slot i =
      x.arguments params args slot i
  | [], args, slot, i => by simp [arguments]
  | p :: params, [], slot, i => by
      have unbound := x.unboundArguments_silent (p :: params)
      simpa [Operand.allSilent, arguments] using unbound
  | p :: params, none :: args, slot, i => by
      simp [Operand.allSilent, arguments, arguments_silent params args slot (i + 1)]
  | p :: params, some o :: args, slot, i => by
      have given := x.givenArgument_silent p (operand_silent o (argSlot slot i))
      rw [Operand.allSilent, map_cons, arguments_some, arguments_some, given,
        arguments_silent params args slot (i + 1)]

end

@[simp] theorem callMethod_silent (c : Call) (slot : String) :
    x.silent.callMethod c.silent slot = x.callMethod c slot :=
  x.operand_silent (.call c.1 c.2) slot

end Context

@[simp] theorem Variable.type_silent (v : Variable) : v.silent.type = v.type := by
  cases v <;> rfl

@[simp] theorem Operand.type_silent (o : Operand) : o.silent.type = o.type := by
  cases o with
  | var v => exact v.type_silent
  | call m args => rfl

/-! ### Recipes of nodes -/

@[simp] theorem Node.tag_silent (n : Node) : n.silent.tag = n.tag := by
  rw [tag, tag, silent]
  cases n.kind <;> rfl

theorem Node.runtimeType_silent (n : Node) : n.silent.runtimeType = n.runtimeType := by
  rw [runtimeType, runtimeType, silent]
  cases n.kind <;> rfl

theorem createNode_silent (n : Node) (className : Option String) :
    createNode n.silent className = createNode n className := by
  rw [createNode, createNode, Node.runtimeType_silent]
  rfl

namespace NodeRecipe

/-- The recipe answers the same for a silent node against a silent catalog. -/
structure IgnoresRemarks (r : NodeRecipe) : Prop where
  declares : ∀ n, r.declares n.silent = r.declares n
  setup : ∀ x n, r.setup x.silent n.silent = r.setup x n
  methods : ∀ x n className, r.methods x.silent n.silent className = r.methods x n className
  create : ∀ x n className, r.create x.silent n.silent className = r.create x n className

variable (x : Context)

theorem subtreeBody_silent (tree : Operand) : subtreeBody x.silent tree.silent = subtreeBody x tree := by
  have same := x.operand_silent tree "subtree"
  cases tree with
  | call m args =>
    simp only [Operand.silent] at same
    simp only [subtreeBody, Operand.silent, same]
  | var v =>
    cases v with
    | const native value =>
      simp only [Operand.silent, Variable.silent] at same
      cases value <;> simp only [subtreeBody, Operand.silent, Variable.silent, same]
      rfl
    | property p =>
      simp only [Operand.silent, Variable.silent] at same
      simp only [subtreeBody, Operand.silent, Variable.silent, same]
    | element p index =>
      simp only [Operand.silent, Variable.silent] at same
      simp only [subtreeBody, Operand.silent, Variable.silent, same]

theorem countMethods_silent (n : Node) (className : String) :
    countMethods x.silent n.silent className = countMethods x n className := by
  have count : n.silent.kind.count? = n.kind.count?.map Variable.silent := by
    rw [Node.silent]
    cases n.kind <;> rfl
  rw [countMethods, countMethods, count]
  cases n.kind.count? <;> simp

theorem actionStatus_silent (a : Action) (isVoid : Bool) :
    actionStatus x.silent a.silent isVoid = actionStatus x a isVoid := by
  obtain ⟨method, option, functor⟩ := a
  cases functor with
  | none => rfl
  | some functor =>
    simp only [actionStatus, Action.silent, Option.map_some, Context.callMethod_silent]
    rfl

theorem actionBody_silent (a : Action) : actionBody x.silent a.silent = actionBody x a := by
  have keeps (isVoid : Bool) : keepsResult a.silent isVoid = keepsResult a isVoid := by
    simp only [keepsResult, Action.silent, Option.isSome_map]
    rfl
  cases method : a.method with
  | none =>
    have none : a.silent.method = none := by simp [Action.silent, method]
    simp only [actionBody, method, none]
    rfl
  | some method' =>
    have some : a.silent.method = some method'.silent := by simp [Action.silent, method]
    simp only [actionBody, method, some, Context.callMethod_silent, Context.classify_silent, keeps,
      actionStatus_silent]
    rfl

theorem assignmentBody_silent (a : Assignment) : assignmentBody x.silent a.silent = assignmentBody x a := by
  obtain ⟨target, source, casting⟩ := a
  cases target <;> cases source <;> simp [Assignment.silent, assignmentBody]

theorem computeBody_silent (c : Compute) : computeBody x.silent c.silent = computeBody x c := by
  obtain ⟨target, first, operator, second⟩ := c
  cases target <;> cases first <;> cases second <;> simp [Compute.silent, computeBody]

theorem conditionBody_silent (c : Condition) : conditionBody x.silent c.silent = conditionBody x c := by
  obtain ⟨left, operator, right⟩ := c
  cases left <;> cases right <;> cases symbol : operator.symbol? <;>
    simp [Condition.silent, conditionBody, symbol]

theorem declares_silent (tag : NodeTag) (n : Node) :
    (Registry.builtin.node tag).declares n.silent = (Registry.builtin.node tag).declares n := by
  refine Registry.builtin_node (P := fun r => r.declares n.silent = r.declares n) rfl ?_ tag
  simp only [Registry.builtinNodes, forall_mem_cons, not_mem_nil, false_implies, implies_true, and_true]
  refine ⟨rfl, ?_, ?_, rfl, rfl, rfl, rfl, rfl, rfl, rfl, ?_, ?_, ?_, ?_, ?_, ?_, rfl, ?_⟩
  all_goals
    simp only [parallel, reference, action, assignment, compute, wait, waitFrames, finish,
      condition, Node.silent]
    cases n.kind with
    | reference tree => cases tree <;> rfl
    | _ => rfl

theorem setup_silent (tag : NodeTag) (n : Node) :
    (Registry.builtin.node tag).setup x.silent n.silent = (Registry.builtin.node tag).setup x n := by
  refine Registry.builtin_node (P := fun r => r.setup x.silent n.silent = r.setup x n) rfl ?_ tag
  simp only [Registry.builtinNodes, forall_mem_cons, not_mem_nil, false_implies, implies_true, and_true]
  refine ⟨rfl, ?_, rfl, rfl, rfl, ?_, rfl, ?_, ?_, rfl, rfl, rfl, rfl, rfl, rfl, ?_, rfl, rfl⟩
  all_goals
    simp only [parallel, decoratorLoopUntil, decoratorLog, decoratorWeight, finish, Node.silent]
    cases n.kind with
    | weight w => cases w <;> rfl
    | _ => rfl

/-- Remarks do not change the methods of a node. -/
theorem methods_silent (tag : NodeTag) (n : Node) (className : String) :
    (Registry.builtin.node tag).methods x.silent n.silent className =
      (Registry.builtin.node tag).methods x n className := by
  have count := countMethods_silent x n className
  refine Registry.builtin_node (P := fun r => r.methods x.silent n.silent className =
    r.methods x n className) rfl ?_ tag
  simp only [Registry.builtinNodes, forall_mem_cons, not_mem_nil, false_implies, implies_true, and_true]
  refine ⟨rfl, rfl, ?_, rfl, count, count, ?_, rfl, ?_, rfl, ?_, ?_, ?_, ?_, ?_, ?_, rfl, ?_⟩
  all_goals
    simp only [reference, decoratorFrames, decoratorWeight, action, assignment, compute, wait,
      waitFrames, finish, condition, Node.silent]
    cases n.kind with
    | reference o | frames o | weight o | wait o | waitFrames o | finish o outside =>
      cases o <;> simp [NodeKind.silent, subtreeBody_silent]
    | _ =>
      simp [NodeKind.silent, actionBody_silent, assignmentBody_silent, computeBody_silent,
        conditionBody_silent]

theorem ignoresRemarks_builtin (tag : NodeTag) : (Registry.builtin.node tag).IgnoresRemarks where
  declares := declares_silent tag
  setup x := setup_silent x tag
  methods x := methods_silent x tag
  create x n className := by
    rw [Registry.builtin_create, Registry.builtin_create]
    exact createNode_silent n className

theorem IgnoresRemarks.declare {r : NodeRecipe} (h : r.IgnoresRemarks) (standard : r.Standard) (n : Node)
    (className : String) : r.declare x.silent n.silent className = r.declare x n className := by
  rw [standard, standard, h.declares, h.setup, h.methods, Node.runtimeType_silent]

end NodeRecipe

/-! ### Recipes of attachments -/

@[simp] theorem Attachment.tag_silent (a : Attachment) : a.silent.tag = a.tag := by
  rw [tag, tag, silent]
  cases a.kind <;> rfl

theorem Attachment.runtimeType_silent (a : Attachment) : a.silent.runtimeType = a.runtimeType := by
  rw [runtimeType, runtimeType, silent]
  cases a.kind <;> rfl

namespace AttachmentRecipe

/-- The recipe answers the same for a silent attachment against a silent catalog. -/
structure IgnoresRemarks (r : AttachmentRecipe) : Prop where
  declares : ∀ a, r.declares a.silent = r.declares a
  setup : ∀ x a, r.setup x.silent a.silent = r.setup x a
  methods : ∀ x a className, r.methods x.silent a.silent className = r.methods x a className
  create : ∀ x a className, r.create x.silent a.silent className = r.create x a className

variable (x : Context)

@[simp] theorem compareBody_silent (r : Relation) (target second : Operand) :
    compareBody x.silent r target.silent second.silent = compareBody x r target second := by
  simp [compareBody]

@[simp] theorem assignBody_silent (target : Variable) (second : Operand) :
    assignBody x.silent target.silent second.silent = assignBody x target second := by
  simp [assignBody]

@[simp] theorem computeBody_silent (op : Arithmetic) (target : Variable) (first second : Operand) :
    computeBody x.silent op target.silent first.silent second.silent =
      computeBody x op target first second := by
  simp [computeBody]

theorem classify_silent (a : AttachAction) : a.silent.classify = a.classify := by
  simp [AttachAction.classify, AttachAction.silent]

theorem actionBody_silent (a : AttachAction) : actionBody x.silent a.silent = actionBody x a := by
  have called (m : Method) (args : List (Option Operand)) := x.callMethod_silent (m, args) "opl"
  have comparedCall (r : Relation) (m : Method) (args : List (Option Operand)) :=
    compareBody_silent x r (.call m args)
  have comparedVar (r : Relation) (v : Variable) := compareBody_silent x r (.var v)
  simp only [Call.silent] at called
  simp only [Operand.silent] at comparedCall comparedVar
  rw [actionBody, actionBody, classify_silent]
  obtain ⟨target, operator, first, second⟩ := a
  simp only [AttachAction.silent]
  generalize AttachAction.classify _ = class'
  rcases target with _ | (v | ⟨m, args⟩) <;> cases second <;> cases class' <;> cases first <;>
    simp [Operand.silent, called, comparedCall, comparedVar]

theorem updateMethods_silent (a : Attachment) (className : String) :
    updateMethods x.silent a.silent className = updateMethods x a className := by
  have action : a.silent.kind.action? = a.kind.action?.map AttachAction.silent := by
    rw [Attachment.silent]
    cases a.kind <;> rfl
  rw [updateMethods, updateMethods, action]
  cases a.kind.action? <;> simp [actionBody_silent]

theorem createAttachment_silent (a : Attachment) (className : Option String) :
    createAttachment a.silent className = createAttachment a className := by
  rw [createAttachment, createAttachment, Attachment.runtimeType_silent]
  rfl

theorem ignoresRemarks_of {r : AttachmentRecipe} (declares : ∀ a, r.declares a.silent = r.declares a)
    (setup : ∀ x a, r.setup x.silent a.silent = r.setup x a)
    (methods : ∀ x a className, r.methods x.silent a.silent className = r.methods x a className)
    (create : r.create = fun _ a className => createAttachment a className) : r.IgnoresRemarks :=
  ⟨declares, setup, methods, fun x a className => by rw [create]; exact createAttachment_silent a className⟩

theorem ignoresRemarks_builtin (tag : AttachmentTag) : (Registry.builtin.attachment tag).IgnoresRemarks := by
  have bare : AttachmentRecipe.bare.IgnoresRemarks :=
    ignoresRemarks_of (fun _ => rfl) (fun _ _ => rfl) (fun _ _ _ => rfl) rfl
  refine Registry.builtin_attachment bare ?_ tag
  simp only [Registry.builtinAttachments, forall_mem_cons, not_mem_nil, false_implies, implies_true,
    and_true]
  refine ⟨ignoresRemarks_of (fun a => ?_) (fun _ _ => rfl) updateMethods_silent rfl,
    ignoresRemarks_of (fun a => ?_) (fun x a => ?_) updateMethods_silent rfl,
    ignoresRemarks_of (fun a => ?_) (fun x a => ?_) updateMethods_silent rfl,
    ignoresRemarks_of (fun a => ?_) (fun x a => ?_) (fun _ _ _ => rfl) rfl⟩
  all_goals
    simp only [attachAction, precondition, effector, event, Attachment.silent]
    cases a.kind <;> rfl

theorem IgnoresRemarks.declare {r : AttachmentRecipe} (h : r.IgnoresRemarks) (standard : r.Standard)
    (a : Attachment) (className : String) :
    r.declare x.silent a.silent className = r.declare x a className := by
  rw [standard, standard, h.declares, h.setup, h.methods, Attachment.runtimeType_silent]
  rfl

end AttachmentRecipe

/-! ### Trees -/

namespace Generation

/-- Generation with the built-in recipes. -/
def of (x : Context) : Generation := { toContext := x }

variable (x : Context)

theorem nodeClass?_silent (tree : String) (n : Node) :
    (of x.silent).nodeClass? tree n.silent = (of x).nodeClass? tree n := by
  have recipe := NodeRecipe.ignoresRemarks_builtin n.tag
  have class' : n.silent.exportClass = n.exportClass := by
    rw [Node.exportClass, Node.exportClass, Node.silent]
    cases n.kind <;> rfl
  simp only [nodeClass?, n.tag_silent, of, recipe.declares, class']
  rfl

theorem attachmentClass?_silent (tree : String) (a : Attachment) :
    (of x.silent).attachmentClass? tree a.silent = (of x).attachmentClass? tree a := by
  have recipe := AttachmentRecipe.ignoresRemarks_builtin a.tag
  have class' : a.silent.exportClass = a.exportClass := by
    rw [Attachment.exportClass, Attachment.exportClass, Attachment.silent]
    cases a.kind <;> rfl
  simp only [attachmentClass?, a.tag_silent, of, recipe.declares, class']
  rfl

theorem declareAttachment_silent (tree : String) (a : Attachment) :
    (of x.silent).declareAttachment tree a.silent = (of x).declareAttachment tree a := by
  have recipe := AttachmentRecipe.ignoresRemarks_builtin a.tag
  rw [declareAttachment, declareAttachment, attachmentClass?_silent x]
  simp only [a.tag_silent, of, recipe.declare x (Registry.builtinAttachment_standard _)]

theorem declareAttachments_silent (tree : String) : ∀ as : List Attachment,
    (of x.silent).declareAttachments tree (as.map Attachment.silent) = (of x).declareAttachments tree as
  | [] => rfl
  | a :: as => by
      simp only [map_cons, declareAttachments, declareAttachment_silent x,
        declareAttachments_silent tree as]
      rfl

theorem declareNode_silent (tree : String) (n : Node) :
    (of x.silent).declareNode tree n.silent = (of x).declareNode tree n := by
  have recipe := NodeRecipe.ignoresRemarks_builtin n.tag
  have attachments : (of x.silent).declareAttachments tree n.silent.attachments = _ :=
    declareAttachments_silent x tree n.attachments
  simp only [declareNode, nodeClass?_silent x, n.tag_silent, attachments]
  simp only [of, recipe.declare x (Registry.builtin_standard _)]

mutual

theorem declareSubtree_silent (tree : String) : ∀ t : Subtree,
    (of x.silent).declareSubtree tree t.silent = (of x).declareSubtree tree t
  | .mk n children => by
      have reference : n.silent.kind.isReference = n.kind.isReference := by
        rw [Node.silent]
        cases n.kind <;> rfl
      simp only [Subtree.silent, declareSubtree, declareNode_silent x, declareSubtrees_silent tree children,
        reference]
      rfl

theorem declareSubtrees_silent (tree : String) : ∀ ts : List Subtree,
    (of x.silent).declareSubtrees tree (Subtree.allSilent ts) = (of x).declareSubtrees tree ts
  | [] => rfl
  | t :: ts => by
      simp only [Subtree.allSilent, declareSubtrees, declareSubtree_silent tree t,
        declareSubtrees_silent tree ts]

end

theorem attach_silent (tree parent : String) (a : Attachment) :
    (of x.silent).attach tree parent a.silent = (of x).attach tree parent a := by
  have recipe := AttachmentRecipe.ignoresRemarks_builtin a.tag
  simp only [attach, attachmentClass?_silent x, a.tag_silent, isPrecondition, isEffector, isEvent]
  simp only [of, recipe.create]
  rfl

theorem attachEach_silent (tree parent : String) : ∀ as : List Attachment,
    (of x.silent).attachEach tree parent (as.map Attachment.silent) = (of x).attachEach tree parent as
  | [] => rfl
  | a :: as => by
      simp only [map_cons, attachEach, attach_silent x, attachEach_silent tree parent as]

theorem attachAll_silent (tree parent : String) (as : List Attachment) :
    (of x.silent).attachAll tree parent (as.map Attachment.silent) = (of x).attachAll tree parent as := by
  have enabled : (as.map Attachment.silent).filter (·.enabled) =
      (as.filter (·.enabled)).map Attachment.silent := filter_map
  simp only [attachAll, enabled, attachEach_silent x]

theorem createAndWire_silent (tree parent : String) (n : Node) :
    (of x.silent).createAndWire tree parent n.silent = (of x).createAndWire tree parent n := by
  have recipe := NodeRecipe.ignoresRemarks_builtin n.tag
  have attached : (of x.silent).attachAll tree n.name n.silent.attachments = _ :=
    attachAll_silent x tree n.name n.attachments
  have name : n.silent.name = n.name := rfl
  simp only [createAndWire, nodeClass?_silent x, n.tag_silent, name, attached]
  simp only [of, recipe.create]
  rfl

mutual

theorem build_silent (tree : String) : ∀ (t : Subtree) (parent : String),
    (of x.silent).build tree t.silent parent = (of x).build tree t parent
  | .mk n children, parent => by
      have reference : n.silent.kind.isReference = n.kind.isReference := by
        rw [Node.silent]
        cases n.kind <;> rfl
      simp only [Subtree.silent, build, createAndWire_silent x, buildAll_silent tree children, reference]
      rfl

theorem buildAll_silent (tree : String) : ∀ (ts : List Subtree) (parent : String),
    (of x.silent).buildAll tree (Subtree.allSilent ts) parent = (of x).buildAll tree ts parent
  | [], _ => rfl
  | t :: ts, parent => by
      simp only [Subtree.allSilent, buildAll, build_silent tree t, buildAll_silent tree ts]

end

theorem treeBody_silent (b : Behavior) : (of x.silent).treeBody b.silent = (of x).treeBody b := by
  have attached : (of x.silent).attachAll b.silent.className "tree" b.silent.attachments = _ :=
    attachAll_silent x b.className "tree" b.attachments
  have children (parent : String) : (of x.silent).buildAll b.silent.className b.silent.children parent = _ :=
    buildAll_silent x b.className b.children parent
  simp only [treeBody, attached, children]
  rfl

theorem needs_behavior_silent (b : Behavior) :
    ((of x.silent).behavior b.silent).needs = ((of x).behavior b).needs := by
  have attachments : (of x.silent).declareAttachments b.silent.className b.silent.attachments = _ :=
    declareAttachments_silent x b.className b.attachments
  have nodes : (of x.silent).declareSubtrees b.silent.className b.silent.children = _ :=
    declareSubtrees_silent x b.className b.children
  simp only [behavior, Emit.needs_bind, attachments, nodes, treeBody_silent]
  rfl

/-- The declarations of a tree differ from those of the silent one by the comment at most. -/
theorem value_behavior_silent (b : Behavior) : ∃ before after,
    ((of x).behavior b).value = before ++ Skeleton.commentOf b.comment ++ after ∧
    ((of x.silent).behavior b.silent).value = before ++ after := by
  have attachments : (of x.silent).declareAttachments b.silent.className b.silent.attachments = _ :=
    declareAttachments_silent x b.className b.attachments
  have nodes : (of x.silent).declareSubtrees b.silent.className b.silent.children = _ :=
    declareSubtrees_silent x b.className b.children
  refine ⟨[.blank, .comment ("Source file: " ++ b.sourceName), .blank],
    [.record b.name none [], .blank] ++ ((of x).declareAttachments b.className b.attachments).value
      ++ ((of x).declareSubtrees b.className b.children).value
      ++ [.func { receiver := some ("_o", b.name), name := "NewTree", result := some "*bt.Tree",
                  body := ((of x).treeBody b).value }], ?_, ?_⟩
  · simp only [behavior, Emit.value_bind, Emit.value_pure, Skeleton.commentOf, List.append_assoc]
  · simp only [behavior, Emit.value_bind, Emit.value_pure, attachments, nodes, treeBody_silent]
    rfl

end Generation

end GoTrees
