import GoTrees.Proofs.Methods

/-!
# What the bodies of methods are made of

A method of a class uses some operands of its node or attachment: it reads them, stores values in variables,
or passes the result of a call to a functor. Its body is made of the steps of those operands, with a few
steps of its own between them that use each value once. `Assembled` says so, and every method that the
built-in recipes declare is assembled from exactly what its node or attachment uses. So what holds of the
steps of every operand has to be carried over to whole bodies only once.
-/

namespace GoTrees

open Go List

variable {x : Context} {us : List Use} {body : List Stmt}

/-! ### Uses of operands -/

/-- What a method does with an operand. -/
inductive Use where
  /-- Evaluates an operand. -/
  | read (o : Operand)
  /-- Stores a value in a variable. -/
  | store (v : Variable)
  /-- Calls a method with the result of another one. -/
  | apply (m : Method)

/-- What an action uses to answer a status once its method was called: the functor, unless the status is
given. It gets the result of the method, if that has one. -/
def Action.functorUses (a : Action) (isVoid : Bool) : List Use :=
  match a.resultFunctor with
  | some functor =>
    if a.resultOption = .invalid then
      if isVoid then [.read (.call functor.1 functor.2)] else [.apply functor.1]
    else []
  | none => []

/-- What an action uses. A method that answers a status decides by itself. -/
def Action.uses (x : Context) (a : Action) : List Use :=
  match a.method with
  | none => []
  | some method =>
    .read (.call method.1 method.2) ::
      if x.catalog.classify method.1.result = .status then []
      else a.functorUses (x.catalog.classify method.1.result = .void)

/-- What the methods of a node use, in their order. -/
def NodeKind.uses (x : Context) : NodeKind → List Use
  | .reference (some (.var (.const _ (.string _)))) => []
  | .reference (some o) | .frames (some o) | .wait (some o) | .waitFrames (some o)
  | .finish (some o) _ => [.read o]
  | .counted _ (some v) | .loopUntil (some v) _ | .weight (some v) => [.read (.var v)]
  | .action a => a.uses x
  | .assignment { target := some target, source := some source, .. } => [.read source, .store target]
  | .compute { target := some target, first := some first, second := some second, .. } =>
    [.read first, .read second, .store target]
  | .condition c =>
    match c.left, c.right, c.operator.symbol? with
    | some left, some right, some _ => [.read left, .read right]
    | _, _, _ => []
  | _ => []

def AttachAction.uses (a : AttachAction) : List Use :=
  match a.classify, a.target, a.first, a.second with
  | .call, some (.call m args), _, _ => [.read (.call m args)]
  | .assign, some (.var target), _, some second => [.read second, .store target]
  | .compare _, some target, _, some second => [.read target, .read second]
  | .compute _, some (.var target), some first, some second => [.read first, .read second, .store target]
  | _, _, _, _ => []

/-- What the methods of an item use, in their order. -/
def Item.uses (x : Context) : Item → List Use
  | .node n => n.kind.uses x
  | .attachment a => a.kind.action?.elim [] AttachAction.uses

/-! ### Assembled bodies -/

/-- The expression is made of the values, each of which it uses once; those of a right operand come first. -/
inductive Built : List Expr → Expr → Prop
  | value (e : Expr) : Built [e] e
  | literal (text : String) : Built [] (.literal text)
  | string (s : String) : Built [] (.string s)
  | status (s : Status) : Built [] s.expr
  | running : Built [] agentVar
  | converted {es : List Expr} {e : Expr} (type : String) (part : Built es e) :
      Built es (.converted type e)
  | not {es : List Expr} {e : Expr} (part : Built es e) : Built es (.not e)
  | binary {es es' : List Expr} {l r : Expr} (operator : String) (left : Built es l) (right : Built es' r) :
      Built (es' ++ es) (.binary l operator r)

def functorCall (m : Method) (result : String) : Expr :=
  .call (.select (Context.receiver m.className).value (memberName m.name)) [.name result]

/-- The statements use the operands in their order and leave the values to be used, the last one first. -/
inductive Assembled (x : Context) : List Use → List Stmt → List Expr → Prop
  | nil : Assembled x [] [] []
  | read {us : List Use} {body : List Stmt} {es : List Expr} (part : Assembled x us body es) (o : Operand)
      (slot name : String) :
      Assembled x (us ++ [.read o]) (body ++ ((x.operand o slot).value.bind name).1.map .step)
        (((x.operand o slot).value.bind name).2 :: es)
  /-- Calls a method and keeps the result. -/
  | keep {us : List Use} {body : List Stmt} {es : List Expr} (part : Assembled x us body es) (c : Call)
      (slot y : String) :
      Assembled x (us ++ [.read (.call c.1 c.2)])
        (body ++ ((x.callMethod c slot).value.pre ++ [Step.define y (x.callMethod c slot).value.expr]
          ++ (x.callMethod c slot).value.post).map .step) (.name y :: es)
  /-- Calls a method for what it does. -/
  | perform {us : List Use} {body : List Stmt} {es : List Expr} (part : Assembled x us body es) (c : Call)
      (slot : String) :
      Assembled x (us ++ [.read (.call c.1 c.2)]) (body ++ (x.callMethod c slot).value.statement.map .step) es
  | store {us : List Use} {body : List Stmt} {used es : List Expr} {e : Expr}
      (part : Assembled x us body (used ++ es)) (built : Built used e) (v : Variable) (slot : String) :
      Assembled x (us ++ [.store v]) (body ++ (x.writeVariable v e slot).value.map .step) es
  | apply {us : List Use} {body : List Stmt} {es : List Expr} {y : String}
      (part : Assembled x us body (.name y :: es)) (m : Method) :
      Assembled x (us ++ [.apply m]) body (functorCall m y :: es)
  | define {us : List Use} {body : List Stmt} {used es : List Expr} {e : Expr}
      (part : Assembled x us body (used ++ es)) (built : Built used e) (y : String) :
      Assembled x us (body ++ [.step (.define y e)]) (.name y :: es)
  | assign {us : List Use} {body : List Stmt} {used es : List Expr} {e : Expr}
      (part : Assembled x us body (used ++ es)) (built : Built used e) (y : String) :
      Assembled x us (body ++ [.step (.assign (.name y) e)]) es
  | ret {us : List Use} {body : List Stmt} {used es : List Expr} {e : Expr}
      (part : Assembled x us body (used ++ es)) (built : Built used e) :
      Assembled x us (body ++ [.step (.ret e)]) es
  | giveUp {us : List Use} {body : List Stmt} {es : List Expr} (part : Assembled x us body es)
      (message : String) : Assembled x us (body ++ [NodeRecipe.giveUp message]) es
  | ifThen {us us' : List Use} {body inner : List Stmt} {used es : List Expr} {e : Expr}
      (part : Assembled x us body (used ++ es)) (built : Built used e) (branch : Assembled x us' inner []) :
      Assembled x (us ++ us') (body ++ [.ifThen e inner]) es

section Parts

variable {x : Context} {us : List Use} {body : List Stmt} {es : List Expr}

/-- An operand that is kept in a variable. -/
theorem Assembled.hold (part : Assembled x us body es) (o : Operand) (slot name y : String) :
    Assembled x (us ++ [.read o])
      (body ++ (((x.operand o slot).value.bind name).1
        ++ [Step.define y ((x.operand o slot).value.bind name).2]).map .step) (.name y :: es) := by
  have kept := (part.read o slot name).define (.value _) y
  simpa using kept

theorem Assembled.transfer (part : Assembled x us body es) (target : Variable) (source : Operand)
    (slot : String) {value : Expr} (built : Built [((x.operand source slot).value.bind slot).2] value) :
    Assembled x (us ++ [.read source, .store target])
      (body ++ (((x.operand source slot).value.bind slot).1
        ++ (x.writeVariable target value "opl").value).map .step) es := by
  have stored := (part.read source slot slot).store built target "opl"
  simpa using stored

theorem Assembled.calculate (part : Assembled x us body es) (target : Variable) (first second : Operand)
    (type symbol : String) :
    Assembled x (us ++ [.read first, .read second, .store target])
      (body ++ (((x.operand first "opr1").value.bind "opr1").1
        ++ ((x.operand second "opr2").value.bind "opr2").1
        ++ (x.writeVariable target (.converted type
            (.binary ((x.operand first "opr1").value.bind "opr1").2 symbol
              ((x.operand second "opr2").value.bind "opr2").2)) "opl").value).map .step) es := by
  have both := (part.read first "opr1" "opr1").read second "opr2" "opr2"
  have stored := both.store (.converted type (.binary symbol (.value _) (.value _))) target "opl"
  simpa using stored

/-- Every function among the declarations is assembled. -/
def AllAssembled (x : Context) (us : List Use) (decls : List Decl) : Prop :=
  ∀ f : Func, .func f ∈ decls → Assembled x us f.body []

theorem allAssembled_nil : AllAssembled x us [] := fun _ h => nomatch h

theorem allAssembled_methodDecls (part : Assembled x us body []) (className name : String)
    (result : Option String) : AllAssembled x us (methodDecls className name result body) := by
  intro f mem
  obtain rfl := eq_of_mem_methodDecls mem
  exact part

theorem allAssembled_getterDecls (x : Context) (o : Operand) (slot className name result : String)
    (convert : Option String) :
    AllAssembled x [.read o] (getterDecls className name result (x.operand o slot).value convert) := by
  have value := (Assembled.nil (x := x)).read o slot "ret"
  have answer {e : Expr} (built : Built [((x.operand o slot).value.bind "ret").2] e) :
      Assembled x [.read o] ((((x.operand o slot).value.bind "ret").1 ++ [Step.ret e]).map .step) [] := by
    simpa using value.ret built
  cases convert with
  | none => exact allAssembled_methodDecls (answer (.value _)) className name _
  | some type => exact allAssembled_methodDecls (answer (.converted type (.value _))) className name _

end Parts

/-! ### Nodes -/

namespace NodeRecipe

theorem assembled_subtreeBody (x : Context) (tree : Operand) :
    Assembled x (NodeKind.uses x (.reference (some tree))) (subtreeBody x tree).value [] := by
  fun_cases subtreeBody x tree with
  | case1 native name => exact Assembled.nil.ret (.string name)
  | case2 native name => exact Assembled.nil.giveUp _
  | case3 =>
    have uses : NodeKind.uses x (.reference (some tree)) = [.read tree] := by
      rw [NodeKind.uses]
      assumption
    have name := ((Assembled.nil (x := x)).read tree "subtree" "subtree").ret (.value _)
    have found := Assembled.nil.ifThen (.binary "!=" .running (.literal "nil")) name
    rw [uses]
    simpa [Expr.nil] using found.giveUp "subtree not found"

theorem assembled_assignmentBody (x : Context) (a : Assignment) :
    Assembled x (NodeKind.uses x (.assignment a)) ((assignmentBody x a).value.map .step) [] := by
  obtain ⟨target, source, casting⟩ := a
  cases target with
  | none => exact .nil
  | some target =>
    cases source with
    | none => exact .nil
    | some source =>
      cases casting
      · exact Assembled.nil.transfer target source "opr" (.value _)
      · exact Assembled.nil.transfer target source "opr" (.converted _ (.value _))

theorem assembled_computeBody (x : Context) (c : Compute) :
    Assembled x (NodeKind.uses x (.compute c)) ((computeBody x c).value.map .step) [] := by
  obtain ⟨target, first, operator, second⟩ := c
  match target, first, second with
  | some target, some first, some second =>
    exact Assembled.nil.calculate target first second _ operator.symbol
  | none, _, _ | some _, none, _ | some _, some _, none => exact .nil

theorem assembled_conditionBody (x : Context) (c : Condition) :
    Assembled x (NodeKind.uses x (.condition c)) ((conditionBody x c).value.map .step) [] := by
  rw [NodeKind.uses]
  fun_cases conditionBody x c with
  | case1 left right symbol hl hr hs =>
    have one := (Assembled.nil (x := x)).hold left "opl" "oplRet" "opl"
    have two := one.hold right "opr" "oprRet" "opr"
    have answer := two.ret (.binary symbol (.value _) (.value _))
    simpa [hl, hr, hs] using answer
  | case2 =>
    next missing =>
    split
    · next hl hr hs => exact (missing _ _ _ hl hr hs).elim
    · exact Assembled.nil.ret (.literal _)

/-- The status of an action uses its functor, after the result it may be called with. -/
theorem assembled_actionStatus (a : Action) (isVoid : Bool)
    (part : Assembled x us body (if keepsResult a isVoid then [.name "result"] else [])) :
    Assembled x (us ++ a.functorUses isVoid)
      (body ++ ((actionStatus x a isVoid).value.1 ++ [Step.ret (actionStatus x a isVoid).value.2]).map .step)
      [] := by
  rw [Action.functorUses]
  rw [keepsResult] at part
  fun_cases actionStatus x a isVoid with
  | case1 functor some invalid void =>
    simp only [void, Bool.not_true, Bool.false_and, Bool.false_eq_true, if_false] at part
    have status := (part.read (.call functor.1 functor.2) "functor" "functor").ret (.value _)
    simpa [some, invalid, void, Context.callMethod] using status
  | case2 functor some invalid notVoid =>
    simp only [some, invalid, notVoid] at part
    have status := (part.apply functor.1).ret (.value _)
    simpa [some, invalid, notVoid, functorCall] using status
  | case3 functor some given =>
    simp only [given, decide_false, Bool.and_false, Bool.false_and, Bool.false_eq_true, if_false] at part
    simpa [some, given] using part.ret (.status _)
  | case4 none =>
    simp only [none, Option.isSome_none, Bool.and_false, Bool.false_eq_true, if_false] at part
    simpa [none] using part.ret (.status _)

/-- The body of an action node uses its method, and then what its status uses. -/
theorem assembled_actionBody (x : Context) (a : Action) :
    Assembled x (a.uses x) ((actionBody x a).value.map .step) [] := by
  rw [Action.uses]
  fun_cases actionBody x a with
  | case1 none =>
    rw [none]
    exact Assembled.nil.ret (.status _)
  | case2 method some =>
    rw [some]
    simp only [Emit.value_bind]
    split
    · have answer := ((Assembled.nil (x := x)).keep method "method" "result").ret (.value _)
      simpa using answer
    · -- the result is kept exactly where the functor gets it
      let isVoid := decide (x.catalog.classify method.1.result = .void)
      let call := (x.callMethod method "method").value
      have called : Assembled x [.read (.call method.1 method.2)]
          ((call.pre ++ [if keepsResult a isVoid then Step.define "result" call.expr else .eval call.expr]
            ++ call.post).map .step)
          (if keepsResult a isVoid then [.name "result"] else []) := by
        split
        · exact (Assembled.nil (x := x)).keep method "method" "result"
        · exact (Assembled.nil (x := x)).perform method "method"
      have answer := assembled_actionStatus a isVoid called
      simpa [isVoid, call] using answer

end NodeRecipe

/-! ### Attachments -/

namespace AttachmentRecipe

theorem assembled_compareBody {es : List Expr}
    (part : Assembled x us body es) (r : Relation) (target second : Operand) :
    Assembled x (us ++ [.read target, .read second]) (body ++ (compareBody x r target second).value) es := by
  have one := part.hold target "opl" "oplRet" "opl"
  have two := one.hold second "opr2" "opr2Ret" "opr2"
  have compared := two.define (.binary r.symbol (.value _) (.value _)) "op"
  have fail := (Assembled.nil (x := x)).assign (.status .failure) "result"
  have checked := compared.ifThen (.not (.value _)) fail
  simpa [compareBody] using checked

/-- The body of an attachment is assembled behind whatever stands before it. -/
theorem assembled_actionBody {es : List Expr}
    (part : Assembled x us body es) (a : AttachAction) :
    Assembled x (us ++ a.uses) (body ++ (actionBody x a).value) es := by
  rw [AttachAction.uses]
  fun_cases actionBody x a with
  | case1 m args hc ht =>
    rw [hc, ht]
    exact part.perform (m, args) "opl"
  | case2 target second hc ht hs =>
    rw [hc, ht, hs]
    exact part.transfer target second "opr2" (.value _)
  | case3 r target second hc ht hs =>
    rw [hc, ht, hs]
    exact assembled_compareBody part r target second
  | case4 op target first second hc ht hf hs =>
    rw [hc, ht, hf, hs]
    exact part.calculate target first second _ op.symbol
  | case5 =>
    next noCall noAssign noCompare noCompute =>
    split
    · next hc ht => exact (noCall _ _ hc ht).elim
    · next hc ht hs => exact (noAssign _ _ hc ht hs).elim
    · next hc ht hs => exact (noCompare _ _ _ hc ht hs).elim
    · next hc ht hf hs => exact (noCompute _ _ _ _ hc ht hf hs).elim
    · simpa using part

theorem assembled_update (x : Context) (a : AttachAction) : Assembled x a.uses
    ([.step (.define "result" Status.success.expr)] ++ (actionBody x a).value
      ++ [.step (.ret (.name "result"))]) [] := by
  have start := (Assembled.nil (x := x)).define (.status .success) "result"
  exact (assembled_actionBody start a).ret (.value _)

end AttachmentRecipe

/-! ### Methods -/

theorem NodeRecipe.uses_of_getter? {x : Context} {k : NodeKind} {g : Getter} (h : k.getter? = some g) :
    k.uses x = [.read g.operand] := by
  unfold NodeKind.getter? at h
  split at h <;> cases h <;> rfl

open NodeRecipe AttachmentRecipe in
/-- Whatever a built-in recipe makes for an item is assembled from what the item uses. -/
theorem Item.allAssembled_methods (x : Context) (i : Item) (className : String) :
    AllAssembled x (i.uses x) (i.methods x className).value := by
  have source := i.methodsFrom x className
  generalize i.methods x className = decls at source ⊢
  cases source with
  | none => exact allAssembled_nil
  | reference tree kind =>
    rw [uses, kind]
    exact allAssembled_methodDecls (assembled_subtreeBody x tree) className _ _
  | getter of =>
    rw [uses, uses_of_getter? of]
    exact allAssembled_getterDecls x _ _ className _ _ _
  | action a kind =>
    rw [uses, kind]
    exact allAssembled_methodDecls (NodeRecipe.assembled_actionBody x a) className _ _
  | assignment a kind =>
    rw [uses, kind]
    exact allAssembled_methodDecls (assembled_assignmentBody x a) className _ _
  | compute c kind =>
    rw [uses, kind]
    exact allAssembled_methodDecls (assembled_computeBody x c) className _ _
  | condition c kind =>
    rw [uses, kind]
    exact allAssembled_methodDecls (assembled_conditionBody x c) className _ _
  | update action has =>
    rw [uses, has]
    exact allAssembled_methodDecls (assembled_update x action) className _ _

/-- Each method of a class is assembled from what its item uses. -/
theorem Generation.assembled_method {i : Item} {className : String} {f : Func}
    (mem : .func f ∈ (declareItem { toContext := x } (i, className)).value) (method : f.receiver.isSome) :
    Assembled x (i.uses x) f.body [] := i.allAssembled_methods x className f (mem_methods mem method)

end GoTrees
