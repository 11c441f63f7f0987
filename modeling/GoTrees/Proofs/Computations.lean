import GoTrees.Proofs.CompleteClasses

/-!
# Computations of nodes and of attachments

A node computes in its method `Calculate`, and an attachment in its method `Update`, between the line that
presumes success and the one that answers it. Both work out the operands and store the result in the same way:

    opl = T(opr1 + opr2)

They only differ in the type `T`. A node converts the result to the type of the variable that it is stored
in, and an attachment to the type of the first operand. So the two do the same exactly if these types are
spelled alike in Go.
-/

namespace GoTrees

open Go

variable {v : Variable} {op : Arithmetic} {first second : Operand}

namespace Context

variable (x : Context)

def computation (op : Arithmetic) (target : Variable) (first second : Operand) (type : String) :
    Emit (List Step) := do
  let (pre1, expr1) := (← x.operand first "opr1").bind "opr1"
  let (pre2, expr2) := (← x.operand second "opr2").bind "opr2"
  return pre1 ++ pre2 ++ (← x.writeVariable target (.converted type (.binary expr1 op.symbol expr2)) "opl")

/-! ### Stored values -/

/-- Storing ends with a line that holds the value, with the same text around it whatever it is. -/
theorem text_writeTo (p : Property) (owner : Expr) (i : Option Expr) : ∃ lines front back, ∀ value : Expr,
    (x.writeTo p owner i value).value.map Step.text = lines ++ [front ++ value.text ++ back] := by
  cases late : p.isLateBound with
  | false =>
    refine ⟨[], (indexed (memberAccess p owner).value i).text ++ " = ", "", fun value => ?_⟩
    simp [writeTo, late, Step.text]
  | true =>
    cases i with
    | some i =>
      refine ⟨[(checkId p).value.text],
        (Expr.index (stored p owner ("[]" ++ (x.goType p.type).value)) i).text ++ " = ", "", fun value => ?_⟩
      simp [writeTo, late, Step.text]
    | none =>
      refine ⟨[(checkId p).value.text], owner.text ++ "." ++ setter p ++ "(" ++
        (Expr.string p.basicName).text ++
        ", " ++ toString p.variableId ++ ", ", ")", fun value => ?_⟩
      simp [writeTo, late, Step.text, Expr.text, Expr.texts, lookupArgs, Text.join, String.append_assoc]

theorem text_writeVariable {p : Property} (named : v.property? = some p) (slot : String) :
    ∃ lines front back, ∀ value : Expr,
      (x.writeVariable v value slot).value.map Step.text = lines ++ [front ++ value.text ++ back] := by
  cases v with
  | const native constant => cases named
  | property q =>
    obtain ⟨lines, front, back, written⟩ := x.text_writeTo q (x.ownerOf q slot).value.2 none
    refine ⟨(x.ownerOf q slot).value.1.map Step.text ++ lines, front, back, fun value => ?_⟩
    simp [writeVariable, written]
  | element q index =>
    let i := (x.readVariable index (indexSlot slot)).value.bind (indexSlot slot)
    obtain ⟨lines, front, back, written⟩ := x.text_writeTo q (x.ownerOf q slot).value.2 (some i.2)
    refine ⟨(x.ownerOf q slot).value.1.map Step.text ++ i.1.map Step.text ++ lines, front, back,
      fun value => ?_⟩
    simp [writeVariable, written, i]

theorem needs_writeTo (p : Property) (owner : Expr) (i : Option Expr) (value value' : Expr) :
    (x.writeTo p owner i value).needs = (x.writeTo p owner i value').needs := by
  cases late : p.isLateBound <;> cases i <;> simp [writeTo, late]

theorem needs_writeVariable (v : Variable) (slot : String) (value value' : Expr) :
    (x.writeVariable v value slot).needs = (x.writeVariable v value' slot).needs := by
  cases v with
  | const native constant => rfl
  | property p => simp [writeVariable, x.needs_writeTo p _ _ value value']
  | element p index => simp [writeVariable, x.needs_writeTo p _ _ value value']

/-! ### The type of the result -/

theorem needs_computation (op : Arithmetic) (v : Variable) (first second : Operand) (type type' : String) :
    (x.computation op v first second type).needs = (x.computation op v first second type').needs := by
  simp only [computation, Emit.needs_bind, Emit.needs_pure]
  rw [x.needs_writeVariable]

/-- The type can be read off the lines. -/
theorem computation_inj {p : Property} (named : v.property? = some p) {type type' : String}
    (same : (x.computation op v first second type).value.map Step.text =
      (x.computation op v first second type').value.map Step.text) : type = type' := by
  obtain ⟨lines, front, back, written⟩ := x.text_writeVariable named "opl"
  simp only [computation, Emit.value_bind, Emit.value_pure, List.map_append, written] at same
  simpa [Expr.text, String.append_assoc] using same

end Context

theorem NodeRecipe.computeBody_eq (x : Context) (op : Arithmetic) (v : Variable) (first second : Operand) :
    let body := computeBody x { target := some v, first := some first, operator := op, second := some second }
    let typed := x.computation op v first second (x.goType v.type).value
    body.value = typed.value ∧ body.needs.fields = typed.needs.fields ∧
    body.needs.setup = typed.needs.setup := by
  have none := x.captureless_goType v.type
  simp [computeBody, Context.computation, none.1, none.2]

theorem AttachmentRecipe.computeBody_eq (x : Context) (op : Arithmetic) (v : Variable)
    (first second : Operand) : let body := computeBody x op v first second
    let typed := x.computation op v first second (x.goType first.type).value
    body.value = typed.value ∧ body.needs.fields = typed.needs.fields ∧
    body.needs.setup = typed.needs.setup := by
  have none := x.captureless_goType first.type
  simp [computeBody, Context.computation, none.1, none.2]

namespace Item

/-- A computing node has the computation as its method. -/
theorem methods_compute (x : Context) {n : Node}
    (kind : n.kind = .compute { target := some v, first := some first, operator := op, second := some second })
    (className : String) :
    let methods := (Item.node n).methods x className
    let typed := x.computation op v first second (x.goType v.type).value
    methods.value = methodDecls className "Calculate" none (typed.value.map .step) ∧
      methods.needs.fields = typed.needs.fields ∧ methods.needs.setup = typed.needs.setup := by
  have recipe : Registry.builtin.node n.tag = .compute := by
    rw [Node.tag, kind]
    rfl
  obtain ⟨value, fields, setup⟩ := NodeRecipe.computeBody_eq x op v first second
  simp [methods, recipe, NodeRecipe.compute, kind, value, fields, setup]

/-- A computing attachment has the computation in its method. -/
theorem methods_attachedCompute (x : Context) {a : Attachment} (kind : a.kind.action? = some
      { target := some (.var v), operator := .arithmetic op, first := some first, second := some second })
    (className : String) :
    let methods := (Item.attachment a).methods x className
    let typed := x.computation op v first second (x.goType first.type).value
    methods.value = methodDecls className "Update" (some "bt.Status")
        ([.step (.define "result" Status.success.expr)] ++ typed.value.map .step ++
          [.step (.ret (.name "result"))]) ∧
      methods.needs.fields = typed.needs.fields ∧ methods.needs.setup = typed.needs.setup := by
  have none := Context.captureless_usePackage "bt"
  obtain ⟨value, fields, setup⟩ := AttachmentRecipe.computeBody_eq x op v first second
  simp [methods_of_action kind, AttachmentRecipe.updateMethod, AttachmentRecipe.actionBody,
    AttachAction.classify, value, fields, setup, none.1, none.2]

/-- A node and an attachment with the same variable, operands and operator compute by the same lines, with
the same captured constants, up to the type that the result is converted to: that of the variable in the
node, and that of the first operand in the attachment. The lines are the same exactly if these are the same
in Go. -/
theorem computations_agree_iff (x : Context) (op : Arithmetic) (v : Variable) (p : Property)
    (first second : Operand) (n : Node) (a : Attachment) (className className' : String)
    (assignable : v.property? = some p)
    (node : n.kind = .compute { target := some v, first := some first, operator := op, second := some second })
    (attachment : a.kind.action? = some
      { target := some (.var v), operator := .arithmetic op, first := some first, second := some second }) :
    let calculate := (Item.node n).methods x className
    let update := (Item.attachment a).methods x className'
    let body := fun type => (x.computation op v first second type).value
    let assigned := (x.goType v.type).value
    let operand := (x.goType first.type).value
    calculate.value = methodDecls className "Calculate" none ((body assigned).map .step) ∧
    update.value = methodDecls className' "Update" (some "bt.Status")
      ([.step (.define "result" Status.success.expr)] ++ (body operand).map .step ++
        [.step (.ret (.name "result"))]) ∧
    calculate.needs.fields = update.needs.fields ∧ calculate.needs.setup = update.needs.setup ∧
    ((body assigned).map Step.text = (body operand).map Step.text ↔ assigned = operand) := by
  intro calculate update body assigned operand
  obtain ⟨calculated, fields, setup⟩ := methods_compute x node className
  obtain ⟨updated, fields', setup'⟩ := methods_attachedCompute x attachment className'
  have captures := x.needs_computation op v first second assigned operand
  refine ⟨calculated, updated, ?_, ?_, x.computation_inj assignable, fun same => by rw [same]⟩
  · exact fields.trans ((congrArg Needs.fields captures).trans fields'.symm)
  · exact setup.trans ((congrArg Needs.setup captures).trans setup'.symm)

/-- Hits are counted in an element of a late-bound array. -/
def hits : Variable :=
  .element { name := "hits", type := "int", isElement := true, isCustomized := true }
    (.property { name := "round", type := "int", isLocal := true })

/-- A call that writes its argument back. -/
def strike : Operand :=
  .call { name := "strike", className := "Guard", result := "int", params :=
      [{ type := "int", isRef := true }] }
    [some (.var (.property { name := "hp", type := "int", className := "Guard" }))]

def twice : Operand := .var (.const "int" (.int 2))

/-- A node that counts a strike twice. -/
def volley : Node where
  id := 1
  kind := .compute { target := some hits, first := some strike, operator := .mul, second := some twice }

/-- An effector that counts a strike twice. -/
def volleyEffect : Attachment where
  id := 2
  kind := .effector .success
    { target := some (.var hits), operator := .arithmetic .mul, first := some strike, second := some twice }

theorem computations_agree_iff_volley :
    let x : Context := { catalog := {}, agentType := "Guard" }
    let body := (x.computation .mul hits strike twice "int").value
    (x.goType hits.type).value = "int" ∧ (x.goType strike.type).value = "int" ∧
    ((Item.node volley).methods x "Volley").value = methodDecls "Volley" "Calculate" none (body.map .step) ∧
    ((Item.attachment volleyEffect).methods x "Effect").value =
    methodDecls "Effect" "Update" (some "bt.Status")
      ([.step (.define "result" Status.success.expr)] ++ body.map .step ++
        [.step (.ret (.name "result"))]) := by
  intro x body
  have assigned : (x.goType hits.type).value = "int" := by decide +kernel
  have operand : (x.goType strike.type).value = "int" := by decide +kernel
  obtain ⟨calculated, updated, -⟩ := computations_agree_iff x .mul hits _ strike twice volley volleyEffect
    "Volley" "Effect" rfl rfl rfl
  rw [assigned] at calculated
  rw [operand] at updated
  exact ⟨assigned, operand, calculated, updated⟩

/-- The speed of a guard, a `float`. -/
def speed : Variable := .property { name := "speed", type := "float", className := "Guard" }

/-- The health of a guard, an `int`. -/
def health : Operand := .var (.property { name := "hp", type := "int", className := "Guard" })

/-- A node that works the speed out from the health. -/
def hurry : Node where
  id := 1
  kind := .compute { target := some speed, first := some health, operator := .add, second := some twice }

/-- An effector that does so. -/
def hurryEffect : Attachment where
  id := 2
  kind := .effector .success
    { target := some (.var speed), operator := .arithmetic .add, first := some health, second := some twice }

/-- The node stores a `float32` in the field, and the effector an `int`, which Go does not allow. -/
theorem computations_disagree :
    let x : Context := { catalog := {}, agentType := "Guard" }
    ∃ calculate update : List Step,
      ((Item.node hurry).methods x "Hurry").value =
      methodDecls "Hurry" "Calculate" none (calculate.map .step) ∧
      ((Item.attachment hurryEffect).methods x "Effect").value =
      methodDecls "Effect" "Update" (some "bt.Status")
        ([.step (.define "result" Status.success.expr)] ++ update.map .step ++
          [.step (.ret (.name "result"))]) ∧
      calculate.map Step.text = ["agent.(*types.Guard).Speed = float32(agent.(*types.Guard).Hp + 2)"] ∧
      update.map Step.text = ["agent.(*types.Guard).Speed = int(agent.(*types.Guard).Hp + 2)"] ∧
      calculate ≠ update := by
  intro x
  have calculated := (methods_compute x (n := hurry) rfl "Hurry").1
  have updated := (methods_attachedCompute x (a := hurryEffect) rfl "Effect").1
  have line : (x.computation .add speed health twice (x.goType speed.type).value).value.map Step.text =
      ["agent.(*types.Guard).Speed = float32(agent.(*types.Guard).Hp + 2)"] := by decide +kernel
  have line' : (x.computation .add speed health twice (x.goType health.type).value).value.map Step.text =
      ["agent.(*types.Guard).Speed = int(agent.(*types.Guard).Hp + 2)"] := by decide +kernel
  refine ⟨_, _, calculated, updated, line, line', fun same => ?_⟩
  rw [same, line'] at line
  exact absurd line (by decide)

end Item

end GoTrees
