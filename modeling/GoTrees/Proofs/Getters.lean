import GoTrees.Proofs.Classes

/-!
# Where methods come from

A built-in recipe makes at most one method for a node. It answers an operand, or its body is that of a
reference, an action, an assignment, a computation or a condition. So what holds of these few methods holds
of all that the built-in recipes make.
-/

namespace GoTrees

open Go List

/-- A method that answers an operand, converted to a type if one is given. -/
structure Getter where
  operand : Operand
  slot : String
  name : String
  result : String := "int"
  convert : Option String := some "int"

def NodeKind.getter? : NodeKind → Option Getter
  | counted _ (some count) => some { operand := .var count, slot := "count", name := "GetCount" }
  | loopUntil (some count) _ => some { operand := .var count, slot := "count", name := "GetCount" }
  | frames (some n) => some { operand := n, slot := "frames", name := "GetFrames" }
  | weight (some w) => some { operand := .var w, slot := "weight", name := "doGetWeight" }
  | wait (some time) => some { operand := time, slot := "time", name := "GetTime" }
  | waitFrames (some n) => some { operand := n, slot := "frames", name := "GetFrames" }
  | finish (some status) _ =>
    some { operand := status, slot := "status", name := "GetStatus", result := "bt.Status", convert := none }
  | _ => none

theorem NodeKind.getter?_spec {k : NodeKind} {g : Getter} (h : k.getter? = some g) :
    g.slot ∈ ["count", "frames", "weight", "time", "status"] ∧
      g.name ∈ ["GetCount", "GetFrames", "doGetWeight", "GetTime", "GetStatus"] ∧
      (g.result = "int" ∧ g.convert = some "int" ∨ g.result = "bt.Status" ∧ g.convert = none) := by
  unfold getter? at h
  split at h <;> cases h <;> simp

namespace Item

/-- The runtime type that the class of an item embeds. -/
def runtimeType : Item → String × String
  | node n => n.runtimeType
  | attachment a => a.runtimeType

/-- The methods of the class of an item, by the built-in recipe of its kind. -/
def methods (x : Context) (className : String) : Item → Emit (List Decl)
  | node n => (Registry.builtin.node n.tag).methods x n className
  | attachment a => (Registry.builtin.attachment a.tag).methods x a className

/-- The steps of the constructor that set fixed fields; attachments set their id first. -/
def fixedSetup (x : Context) : Item → Emit (List Step)
  | node n => (Registry.builtin.node n.tag).setup x n
  | attachment a => (setSelf "Id" (.int a.id) :: ·) <$> (Registry.builtin.attachment a.tag).setup x a

end Item

namespace Generation

/-- What a built-in recipe declares: a class around the runtime type, with its methods. -/
theorem declareItem_builtin (x : Context) (i : Item) (className : String) :
    declareItem { toContext := x } (i, className) = if declares { toContext := x } i then
      declareClass i.runtimeType [] (i.fixedSetup x) (i.methods x className) className else pure [] := by
  cases i with
  | node n => exact Registry.builtin_standard n.tag x n className
  | attachment a =>
    have first : declareClass a.runtimeType [setSelf "Id" (.int a.id)]
        ((Registry.builtin.attachment a.tag).setup x a) ((Item.attachment a).methods x className) className =
        declareClass a.runtimeType [] ((Item.attachment a).fixedSetup x)
        ((Item.attachment a).methods x className)
          className := by
      simp [declareClass, Item.fixedSetup]
    refine (Registry.builtinAttachment_standard a.tag x a className).trans ?_
    exact if_congr Iff.rfl first rfl

/-- The functions of a class that have a receiver are its methods. -/
theorem mem_methods {x : Context} {i : Item} {className : String} {f : Func}
    (mem : .func f ∈ (declareItem { toContext := x } (i, className)).value) (method : f.receiver.isSome) :
    .func f ∈ (i.methods x className).value := by
  rw [declareItem_builtin] at mem
  split at mem
  · rcases mem_append.mp mem with constructor | mem
    · simp only [mem_cons, not_mem_nil, reduceCtorEq, Decl.func.injEq, false_or, or_false] at constructor
      subst constructor
      cases method
    · exact mem
  · cases mem

end Generation

namespace NodeRecipe

/-- A method whose body is made of steps. -/
def stepsMethod (className name : String) (result : Option String) (body : Emit (List Step)) :
    Emit (List Decl) := do
  return methodDecls className name result ((← body).map .step)

end NodeRecipe

/-- The method of an attached action. -/
def AttachmentRecipe.updateMethod (x : Context) (className : String) (action : AttachAction) :
    Emit (List Decl) := do
  Emit.usePackage "bt"
  let body ← actionBody x action
  return methodDecls className "Update" (some "bt.Status")
    ([.step (.define "result" Status.success.expr)] ++ body ++ [.step (.ret (.name "result"))])

namespace Item

open NodeRecipe
open AttachmentRecipe (updateMethod updateMethods)

/-- The methods of the class of an item. -/
inductive MethodsFrom (x : Context) (className : String) : Item → Emit (List Decl) → Prop
  | none (i : Item) : MethodsFrom x className i (pure [])
  | reference {n : Node} (tree : Operand) (kind : n.kind = .reference (some tree)) :
      MethodsFrom x className (.node n)
      (subtreeBody x tree >>= fun body => pure (methodDecls className "GetSubtree" (some "string") body))
  | getter {n : Node} {o : Operand} {slot name result : String} {convert : Option String}
      (of : n.kind.getter? = some ⟨o, slot, name, result, convert⟩) : MethodsFrom x className (.node n)
      (x.operand o slot >>= fun e => pure (getterDecls className name result e convert))
  | action {n : Node} (a : Action) (kind : n.kind = .action a) : MethodsFrom x className (.node n)
      (Emit.usePackage "bt" >>= fun _ => stepsMethod className "Execute" (some "bt.Status") (actionBody x a))
  | assignment {n : Node} (a : Assignment) (kind : n.kind = .assignment a) : MethodsFrom x className (.node n)
      (stepsMethod className "Assign" Option.none (assignmentBody x a))
  | compute {n : Node} (c : Compute) (kind : n.kind = .compute c) : MethodsFrom x className (.node n)
      (stepsMethod className "Calculate" Option.none (computeBody x c))
  | condition {n : Node} (c : Condition) (kind : n.kind = .condition c) : MethodsFrom x className (.node n)
      (stepsMethod className "Compare" (some "bool") (conditionBody x c))
  | update {a : Attachment} (action : AttachAction) (has : a.kind.action? = some action) :
      MethodsFrom x className (.attachment a) (updateMethod x className action)

variable {x : Context} {className : String}

theorem methodsFrom_countMethods {n : Node} :
    MethodsFrom x className (.node n) (countMethods x n className) := by
  rw [countMethods]
  split
  · next count counted =>
    refine .getter (o := .var count) ?_
    cases kind : n.kind with
    | counted k c => rw [kind] at counted; obtain rfl : c = _ := counted; rfl
    | loopUntil c expected => rw [kind] at counted; obtain rfl : c = _ := counted; rfl
    | _ => rw [kind] at counted; cases counted
  · exact .none _

/-- Every builtin recipe of a node gives methods of one of these forms. -/
theorem methodsFrom_node (n : Node) :
    MethodsFrom x className (.node n) ((Item.node n).methods x className) := by
  refine Registry.builtin_node (P := fun r => MethodsFrom x className (.node n) (r.methods x n className))
    (.none _)
    ?_ n.tag
  simp only [Registry.builtinNodes, forall_mem_cons, not_mem_nil, false_imp_iff, implies_true]
  refine ⟨.none _, .none _, ?_, .none _, methodsFrom_countMethods, methodsFrom_countMethods, ?_,
    .none _, ?_, .none _, ?_, ?_, ?_, ?_, ?_, ?_, .none _, ?_, trivial⟩
  · rw [NodeRecipe.reference]
    dsimp only
    split
    · next kind => exact .reference _ kind
    · exact .none _
  · rw [decoratorFrames]
    dsimp only
    split
    · next kind => exact .getter (by rw [kind]; rfl)
    · exact .none _
  · rw [decoratorWeight]
    dsimp only
    split
    · next w kind => exact .getter (o := .var w) (by rw [kind]; rfl)
    · exact .none _
  · rw [NodeRecipe.action]
    dsimp only
    split
    · next kind => exact .action _ kind
    · exact .none _
  · rw [NodeRecipe.assignment]
    dsimp only
    split
    · next kind => exact .assignment _ kind
    · exact .none _
  · rw [NodeRecipe.compute]
    dsimp only
    split
    · next kind => exact .compute _ kind
    · exact .none _
  · rw [wait]
    dsimp only
    split
    · next kind => exact .getter (by rw [kind]; rfl)
    · exact .none _
  · rw [waitFrames]
    dsimp only
    split
    · next kind => exact .getter (by rw [kind]; rfl)
    · exact .none _
  · rw [finish]
    dsimp only
    split
    · next kind => exact .getter (by rw [kind]; rfl)
    · exact .none _
  · rw [NodeRecipe.condition]
    dsimp only
    split
    · next kind => exact .condition _ kind
    · exact .none _

/-- Preconditions, effectors and attached actions have the same method. -/
theorem methods_of_action {a : Attachment} {action : AttachAction} (has : a.kind.action? = some action) :
    (Item.attachment a).methods x className = updateMethod x className action := by
  have updates : (Item.attachment a).methods x className = updateMethods x a className := by
    rw [methods, Attachment.tag]
    cases kind : a.kind with
    | precondition phase conj action => rfl
    | effector phase action => rfl
    | attachAction action => rfl
    | event e => rw [kind] at has; cases has
    | unknown cls => rw [kind] at has; cases has
  rw [updates, updateMethods, has]
  rfl

/-- The methods of every item come from a built-in recipe. -/
theorem methodsFrom (x : Context) (className : String) :
    ∀ i : Item, MethodsFrom x className i (i.methods x className)
  | node n => methodsFrom_node n
  | attachment a => by
      cases has : a.kind.action? with
      | some action =>
        rw [methods_of_action has]
        exact .update action has
      | none =>
        have silent : (Item.attachment a).methods x className = pure [] := by
          rw [methods, Attachment.tag]
          cases kind : a.kind with
          | precondition phase conj action => rw [kind] at has; cases has
          | effector phase action => rw [kind] at has; cases has
          | attachAction action => rw [kind] at has; cases has
          | event e => rfl
          | unknown cls => rfl
        exact silent ▸ .none _

/-- To set fixed fields needs the runtime at most. -/
theorem needs_fixedSetup (x : Context) (i : Item) :
    (i.fixedSetup x).needs = {} ∨ (i.fixedSetup x).needs = (Emit.usePackage "bt").needs := by
  cases i with
  | node n =>
    left
    refine Registry.builtin_node (P := fun r => (r.setup x n).needs = {}) rfl ?_ n.tag
    simp only [Registry.builtinNodes, forall_mem_cons, not_mem_nil, false_imp_iff, implies_true, and_true]
    and_intros <;> rfl
  | attachment a =>
    rw [fixedSetup, Emit.needs_map]
    refine Registry.builtin_attachment (P := fun r => (r.setup x a).needs = {} ∨
      (r.setup x a).needs = (Emit.usePackage "bt").needs) (.inl rfl) ?_ a.tag
    simp only [Registry.builtinAttachments, AttachmentRecipe.precondition, AttachmentRecipe.effector,
      AttachmentRecipe.event, forall_mem_cons, not_mem_nil, false_imp_iff, implies_true, and_true]
    refine ⟨.inl rfl, ?_, ?_, ?_⟩ <;> split <;> simp

end Item

end GoTrees
