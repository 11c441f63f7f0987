import GoTrees.Proofs.Getters
import GoTrees.Proofs.Temporaries

/-!
# Generated methods are well scoped

The operands of a method have different slots, none of which is on the branch of another, and the variables
that a method introduces itself are slots without turns. So a body is put together from tidy parts with the
names of different slots, for every operand and all that is nested in it.
-/

namespace GoTrees

open Go Slot List

variable (x : Context) {y : String} {as bs known : List String}

namespace Slot

/-- The name belongs to one of the slots. -/
def Among (slots : List String) (y : String) : Prop := ∃ s ∈ slots, Owns s y

/-- The slots of the first list are on other branches than those of the second. -/
def Separate (as bs : List String) : Prop := ∀ a ∈ as, ∀ b ∈ bs, Plain a ∧ Plain b ∧ Apart a b

instance (as bs : List String) : Decidable (Separate as bs) :=
  inferInstanceAs (Decidable (∀ a ∈ as, ∀ b ∈ bs, _))

instance (slots : List String) (y : String) : Decidable (Among slots y) :=
  inferInstanceAs (Decidable (∃ s ∈ slots, _))

theorem Owns.among {s : String} (h : Owns s y) : Among [s] y := ⟨s, mem_singleton_self s, h⟩

theorem among_append :
    Among (as ++ bs) y ↔ Among as y ∨ Among bs y := by
  simp [Among, or_and_right, exists_or]

theorem Among.mono (sub : as ⊆ bs) : Among as y → Among bs y
  | ⟨a, ha, hy⟩ => ⟨a, sub ha, hy⟩

theorem Among.not_among (separate : Separate as bs) :
    Among as y → ¬ Among bs y := by
  rintro ⟨a, ha, hy⟩ ⟨b, hb, hy'⟩
  obtain ⟨plainA, plainB, apart⟩ := separate a ha b hb
  exact hy.not_owns plainA plainB apart hy'

end Slot

/-! ### Parts of bodies -/

section Parts

variable {known uses uses' : List String} {as bs : List String} {pre pre' post post' : List Step}

theorem tidy_seq (t : Tidy known (Among as) pre uses post)
    (t' : Tidy (known ++ uses) (Among bs) pre' uses' post') (separate : Separate as bs) :
    Tidy known (Among (as ++ bs)) (pre ++ pre') (uses ++ uses') (post ++ post') :=
  (t.seq t' fun _ => Among.not_among separate).widen fun _ => among_append.mpr

theorem tidy_define {x : String} {e : Expr} (h : e.names ⊆ known) :
    Tidy known (Among [x]) [.define x e] [x] [] :=
  (Tidy.define h).widen fun y (h : y = x) => h ▸ (Owns.refl x).among

theorem tidy_value (o : Operand) (slot : String) (plain : Plain slot) :
    Tidy ambient (Among [slot]) ((x.operand o slot).value.bind slot).1
      ((x.operand o slot).value.bind slot).2.names [] :=
  (Context.tidy_bound plain (x.tidy_operand o plain)).widen fun _ => Owns.among

/-- A result is bound to its slot, and the temporaries are those of the slot. -/
theorem tidy_result (o : Operand) (slot ret : String) (plain : Plain slot)
    (spelled : ret = slot ++ "Ret") :
    Tidy ambient (Among [slot])
      (((x.operand o slot).value.bind ret).1 ++ [.define slot ((x.operand o slot).value.bind ret).2])
      [slot] [] := by
  have new : ¬ Temporary slot ret := fun h =>
    h.not_owns plain (k := "Ret") rfl (by decide) (by decide) (spelled ▸ .refl _)
  have value := Emission.tidy_bind (x.tidy_operand o plain) new
  have apart : ∀ y, Temporary slot y ∨ y = ret → ¬ y = slot := by
    rintro y (h | rfl) rfl
    · exact h.ne plain rfl
    · exact not_owns_self plain (k := "Ret") (by decide) (spelled ▸ .refl y)
  have result : Tidy (ambient ++ ((x.operand o slot).value.bind ret).2.names) (· = slot)
      [.define slot ((x.operand o slot).value.bind ret).2] [slot] [] :=
    .define (subset_append_right _ _)
  refine ((value.seq result apart).use (by simp)).widen ?_
  rintro y ((h | rfl) | rfl)
  · exact h.owns.among
  · exact (spelled ▸ (Owns.refl _).shorten (under_append (by decide)) : Owns slot y).among
  · exact (Owns.refl y).among

theorem tidy_store (sub : ambient ⊆ known) (x : Context) (v : Variable) (value : Expr)
    (hv : value.names ⊆ known) (slot : String) (plain : Plain slot) :
    Tidy known (Among [slot]) (x.writeVariable v value slot).value [] [] :=
  (x.tidy_writeVariable sub v value hv plain).widen fun _ h => h.owns.among

end Parts

theorem tidy_last {uses : List String} {own : String → Prop} {pre : List Step} {s : Step}
    (t : Tidy known own pre uses []) (h : s.InScope (known ++ uses)) (none : s.introduced = []) :
    Tidy known own (pre ++ [s]) [] [] :=
  t.finish (.step h none)

theorem tidy_calculate (target : Variable) (first second : Operand)
    (type symbol : String) :
    Tidy ambient (Among ["opr1", "opr2", "opl"])
      (((x.operand first "opr1").value.bind "opr1").1 ++ ((x.operand second "opr2").value.bind "opr2").1
        ++ (x.writeVariable target (.converted type
            (.binary ((x.operand first "opr1").value.bind "opr1").2 symbol
              ((x.operand second "opr2").value.bind "opr2").2)) "opl").value) [] [] := by
  have one := tidy_value x first "opr1" (by decide)
  have two := tidy_value x second "opr2" (by decide)
  have both := tidy_seq one (two.mono (subset_append_left _ _)) (by decide)
  have store := tidy_store (subset_append_left ambient _) x target
    (.converted type (.binary ((x.operand first "opr1").value.bind "opr1").2 symbol
      ((x.operand second "opr2").value.bind "opr2").2)) (subset_append_right ambient _)
    "opl" (by decide)
  exact (tidy_seq both store (by decide)).use (nil_subset _)

theorem tidy_transfer (target : Variable) (source : Operand) (slot : String)
    (separate : Separate [slot] ["opl"]) {value : Expr}
    (h : value.names = ((x.operand source slot).value.bind slot).2.names) :
    Tidy ambient (Among [slot, "opl"]) (((x.operand source slot).value.bind slot).1
      ++ (x.writeVariable target value "opl").value) [] [] := by
  obtain ⟨plain, plain', _⟩ := separate slot mem_cons_self "opl" mem_cons_self
  have read := tidy_value x source slot plain
  rw [← h] at read
  have store := tidy_store (subset_append_left ambient _) x target value
    (subset_append_right ambient _) "opl" plain'
  exact (tidy_seq read store separate).use (nil_subset _)

namespace NodeRecipe

theorem tidy_assignmentBody (a : Assignment) :
    Tidy ambient (Among ["opr", "opl"]) (assignmentBody x a).value [] [] := by
  fun_cases assignmentBody x a with
  | case1 target source =>
    cases h : a.casting
    · exact tidy_transfer x _ _ "opr" (by decide) rfl
    · exact tidy_transfer x _ _ "opr" (by decide) rfl
  | case2 => exact .nothing (nil_subset _)

theorem tidy_computeBody (c : Compute) :
    Tidy ambient (Among ["opr1", "opr2", "opl"]) (computeBody x c).value [] [] := by
  fun_cases computeBody x c with
  | case1 target first second => exact tidy_calculate ..
  | case2 => exact .nothing (nil_subset _)

theorem tidy_conditionBody (c : Condition) :
    Tidy ambient (Among ["opl", "opr"]) (conditionBody x c).value [] [] := by
  fun_cases conditionBody x c with
  | case1 left right symbol =>
    have one := tidy_result x left "opl" "oplRet" (by decide) rfl
    have two := tidy_result x right "opr" "oprRet" (by decide) rfl
    have both := tidy_seq one (two.mono (subset_append_left _ _)) (by decide)
    have compared : Step.InScope (ambient ++ (["opl"] ++ ["opr"]))
        (.ret (.binary (.name "opl") symbol (.name "opr"))) := by simp [Step.InScope, ambient]
    have body := tidy_last both compared rfl
    simpa using body
  | case2 => exact .step (nil_subset _) rfl

/-! ### Actions -/

theorem tidy_actionStatus (sub : ambient ⊆ known) (x : Context) (a : Action)
    (isVoid : Bool) (kept : keepsResult a isVoid = true → "result" ∈ known) :
    Tidy known (Among ["functor"]) (actionStatus x a isVoid).value.1
      (actionStatus x a isVoid).value.2.names [] := by
  fun_cases actionStatus x a isVoid with
  | case1 functor => exact (tidy_value x (.call functor.1 functor.2) "functor" (by decide)).mono sub
  | case2 functor hf invalid notVoid =>
    have result : "result" ∈ known := kept (by simp [keepsResult, hf, invalid, notVoid])
    have agent : "agent" ∈ known := sub (by decide)
    refine .nothing ?_
    simp [Context.names_receiver, result, agent]
  | case3 => exact .nothing (nil_subset _)
  | case4 => exact .nothing (nil_subset _)

theorem tidy_called (method : Call) (keep : Bool) :
    let call := (x.callMethod method "method").value
    Tidy ambient (Among ["method", "result"])
      (call.pre ++ [if keep then .define "result" call.expr else .eval call.expr] ++ call.post)
      (if keep then ["result"] else []) [] := by
  intro call
  have read : Tidy ambient (Among ["method"]) call.pre call.expr.names call.post :=
    (x.tidy_operand (.call method.1 method.2) (by decide)).widen fun _ h => h.owns.among
  cases keep with
  | true =>
    have define : Tidy (ambient ++ call.expr.names) (Among ["result"]) [.define "result" call.expr]
        ["result"] [] := tidy_define (subset_append_right _ _)
    have kept := (tidy_seq read define (by decide)).settle
    rw [List.append_nil] at kept
    exact kept.use (by simp)
  | false =>
    exact (call.tidy_statement read).widen fun _ => Among.mono (by decide)

/-- The body of an action introduces variables of its slots, each before it is used. -/
theorem tidy_actionBody (a : Action) :
    Tidy ambient (Among ["method", "result", "functor"]) (actionBody x a).value [] [] := by
  fun_cases actionBody x a with
  | case1 => exact .step (nil_subset _) rfl
  | case2 method =>
    simp only [Emit.value_bind]
    split
    · have called := tidy_called x method true
      have answer : Step.InScope (ambient ++ ["result"]) (.ret (.name "result")) := by
        simp [Step.InScope]
      exact (tidy_last called answer rfl).widen fun _ => Among.mono (by decide)
    · -- the functor gets the result only where it was kept
      let isVoid := decide (x.catalog.classify method.1.result = .void)
      have called := tidy_called x method (keepsResult a isVoid)
      have status := tidy_actionStatus
        (subset_append_left ambient (if keepsResult a isVoid then ["result"] else [])) x a isVoid
        (by intro kept; simp [kept])
      exact tidy_last (tidy_seq called status (by decide))
        (subset_append_of_subset_right _ (subset_append_right _ _)) rfl

/-! ### Subtrees -/

theorem tidyBody_giveUp (own : String → Prop) (message : String)
    (h : "panic" ∈ known) : TidyBody known own [giveUp message] :=
  .ofSteps (.step (by simpa [Step.InScope] using h) rfl)

theorem tidyBody_subtreeBody (tree : Operand) :
    TidyBody ambient (Among ["subtree"]) (subtreeBody x tree).value := by
  fun_cases subtreeBody x tree with
  | case1 => exact .ofSteps (.step (nil_subset _) rfl)
  | case2 => exact tidyBody_giveUp _ _ (by decide)
  | case3 =>
    have name := tidy_value x tree "subtree" (by decide)
    have answer := tidy_last name (s := .ret _) (subset_append_right _ _) rfl
    have found := TidyBody.ifThen (.binary agentVar "!=" .nil) (by decide) (.ofSteps answer)
    refine (found.append (tidyBody_giveUp (fun _ => False) _ ?_) fun _ _ => id).widen (by simp)
    exact mem_append_left _ (by decide)

end NodeRecipe

/-! ### Attachments -/

namespace AttachmentRecipe

theorem tidyBody_compareBody (r : Relation) (target second : Operand) :
    TidyBody (ambient ++ ["result"]) (Among ["opl", "opr2", "op"])
      (compareBody x r target second).value := by
  have one := tidy_result x target "opl" "oplRet" (by decide) rfl
  have two := tidy_result x second "opr2" "opr2Ret" (by decide) rfl
  have both := tidy_seq one (two.mono (subset_append_left _ _)) (by decide)
  have compared : Tidy (ambient ++ (["opl"] ++ ["opr2"])) (Among ["op"])
      [.define "op" (.binary (.name "opl") r.symbol (.name "opr2"))] ["op"] [] :=
    tidy_define (by simp [ambient])
  have steps := (tidy_seq both compared (by decide)).mono (subset_append_left ambient ["result"])
  have op := steps.reach (mem_append_right _ (mem_singleton_self "op"))
  have fail {known : List String} (h : "result" ∈ known) : TidyBody known (fun _ => False)
      [.step (.assign (.name "result") Status.failure.expr)] := by
    have assign : Step.InScope known (.assign (.name "result") Status.failure.expr) :=
      ⟨by simpa using h, nil_subset _⟩
    exact .ofSteps (.step assign rfl)
  have checked := TidyBody.afterSteps steps
    (.ifThen (.not (.name "op")) (by simpa using op) (fail (by simp))) fun _ _ => id
  simpa [compareBody] using checked

/-- The body of an attachment introduces variables of its slots, each before it is used. -/
theorem tidyBody_actionBody (a : AttachAction) :
    TidyBody (ambient ++ ["result"]) (Among ["opr1", "opr2", "opl", "op"]) (actionBody x a).value := by
  have known : ambient ⊆ ambient ++ ["result"] := subset_append_left _ _
  fun_cases actionBody x a with
  | case1 m args =>
    have call := Emission.tidy_statement (x.tidy_operand (.call m args) (show Plain "opl" by decide))
    exact .ofSteps ((call.mono known).widen fun y h => h.owns.among.mono (by decide))
  | case2 target second =>
    have body := tidy_transfer x target second "opr2" (by decide) rfl
    exact .ofSteps ((body.mono known).widen fun _ => Among.mono (by decide))
  | case3 r target second =>
    exact (tidyBody_compareBody x r target second).widen fun _ => Among.mono (by decide)
  | case4 op target first second =>
    have body := tidy_calculate x target first second (x.goType first.type).value op.symbol
    exact .ofSteps ((body.mono known).widen fun _ => Among.mono (by decide))
  | case5 => exact .ofSteps (.nothing (nil_subset _))

theorem tidyBody_update (a : AttachAction) :
    TidyBody ambient (Among ["result", "opr1", "opr2", "opl", "op"])
      ([.step (.define "result" Status.success.expr)] ++ (actionBody x a).value
        ++ [.step (.ret (.name "result"))]) := by
  have start : Tidy ambient (Among ["result"]) [.define "result" Status.success.expr] ["result"] [] :=
    tidy_define (nil_subset _)
  have body := (TidyBody.afterSteps start (tidyBody_actionBody x a) fun _ =>
    Among.not_among (by decide)).widen fun _ => among_append.mpr
  have answer {known : List String} (h : "result" ∈ known) :
      TidyBody known (fun _ => False) [.step (.ret (.name "result"))] :=
    .ofSteps (.step (by simpa [Step.InScope] using h) rfl)
  refine (body.append (answer ?_) fun _ _ => id).widen (by simp)
  simp [Stmt.allOpened, Stmt.opened, Step.introduced]

end AttachmentRecipe

/-! ### Methods -/

def AllWellScoped (decls : List Decl) : Prop := ∀ f : Func, .func f ∈ decls → f.WellScoped

theorem allWellScoped_nil : AllWellScoped [] := fun _ h => nomatch h

theorem eq_of_mem_methodDecls {className name : String} {result : Option String} {body : List Stmt}
    {f : Func} (mem : .func f ∈ methodDecls className name result body) :
    f = { receiver := some ("n", className), name := name, params := [("agent", "bt.Agent")],
          result := result, body := body } := by
  simpa [methodDecls] using mem

theorem allWellScoped_methodDecls {slots : List String} {body : List Stmt}
    (t : TidyBody ambient (Among slots) body) (new : ∀ y ∈ ambient, ¬ Among slots y)
    (className name : String) (result : Option String) :
    AllWellScoped (methodDecls className name result body) := by
  intro f mem
  obtain rfl := eq_of_mem_methodDecls mem
  have names : ambient.Nodup := by decide
  exact ⟨names.append t.fresh fun y hy hy' => new y hy (t.owned y hy'), t.inScope⟩

/-- A slot whose names can stand in a method beside the name of the returned value. -/
def FitsGetter (slot : String) : Prop :=
  Plain slot ∧ ¬ Owns slot "ret" ∧ ∀ y ∈ ambient, ¬ Among [slot, "ret"] y

instance (slot : String) : Decidable (FitsGetter slot) := inferInstanceAs (Decidable (_ ∧ _))

theorem allWellScoped_getterDecls (o : Operand) {slot : String} (fits : FitsGetter slot)
    (className name result : String) (convert : Option String) :
    AllWellScoped (getterDecls className name result (x.operand o slot).value convert) := by
  obtain ⟨plain, new, free⟩ := fits
  let bound := (x.operand o slot).value.bind "ret"
  have value : Tidy ambient (Among [slot, "ret"]) bound.1 bound.2.names [] := by
    refine (Emission.tidy_bind (x.tidy_operand o plain) fun h => new h.owns).widen ?_
    rintro y (h | rfl)
    · exact h.owns.among.mono (by simp)
    · exact (Owns.refl "ret").among.mono (by simp)
  have answer (e : Expr) (same : e.names = bound.2.names) :
      Tidy ambient (Among [slot, "ret"]) (bound.1 ++ [.ret e]) [] [] :=
    tidy_last value (same ▸ subset_append_right ambient _ : e.names ⊆ _) rfl
  cases convert with
  | none => exact allWellScoped_methodDecls (.ofSteps (answer bound.2 rfl)) free className name _
  | some type =>
    have converted := answer (.converted type bound.2) rfl
    exact allWellScoped_methodDecls (.ofSteps converted) free className name _

open NodeRecipe AttachmentRecipe in
/-- The methods of every item are well scoped. -/
theorem Item.allWellScoped_methods (i : Item) (className : String) :
    AllWellScoped (i.methods x className).value := by
  have fits : ∀ slot ∈ ["count", "frames", "weight", "time", "status"], FitsGetter slot := by decide
  have source := i.methodsFrom x className
  generalize i.methods x className = decls at source ⊢
  cases source with
  | none => exact allWellScoped_nil
  | reference tree => exact allWellScoped_methodDecls (tidyBody_subtreeBody x tree) (by decide) className _ _
  | getter of => exact allWellScoped_getterDecls x _ (fits _ (NodeKind.getter?_spec of).1) className _ _ _
  | action a =>
    exact allWellScoped_methodDecls (.ofSteps (NodeRecipe.tidy_actionBody x a)) (by decide) className _ _
  | assignment a =>
    exact allWellScoped_methodDecls (.ofSteps (tidy_assignmentBody x a)) (by decide) className _ _
  | compute c =>
    exact allWellScoped_methodDecls (.ofSteps (NodeRecipe.tidy_computeBody x c)) (by decide) className _ _
  | condition c =>
    exact allWellScoped_methodDecls (.ofSteps (tidy_conditionBody x c)) (by decide) className _ _
  | update action => exact allWellScoped_methodDecls (tidyBody_update x action) (by decide) className _ _

namespace Generation

/-- Every method of a class is well scoped. -/
theorem wellScoped_method {x : Context} {i : Item} {className : String} {f : Func}
    (mem : .func f ∈ (declareItem { toContext := x } (i, className)).value) (method : f.receiver.isSome) :
    f.WellScoped := i.allWellScoped_methods x className f (mem_methods mem method)

/-- Every method of the class of a node or an attachment introduces its variables once and under new
names, and refers to them only after that, whatever the operands. -/
theorem methods_wellScoped (x : Context) (i : Item) (className : String) (f : Func)
    (mem : .func f ∈ (declareItem { toContext := x } (i, className)).value)
    (method : f.receiver.isSome) : f.WellScoped := wellScoped_method mem method

/-- An assignment from a call with nested arguments by reference to an element of another agent. -/
def tribute : Node where
  id := 1
  kind := .assignment {
    target := some (.element { name := "Gold", owner := .named "king", isElement := true }
      (.property { name := "Turn", owner := .named "clock" })),
    source := some (.call
      { name := "Collect", owner := .named "clerk", params := [{ isRef := true }, {}] }
      [some (.call { name := "Count", params := [{ isOut := true }] }
        [some (.var (.property { name := "Farms", owner := .named "duke" }))]),
       some (.var (.const "int" (.int 3)))]) }

theorem methods_wellScoped_tribute : ∃ f : Func,
    .func f ∈ (declareItem { catalog := {} } (.node tribute, "Tribute")).value ∧ f.receiver.isSome ∧
    Stmt.allIntroduced f.body = ["pAgent_opr", "pAgent_oprP0P0", "oprP0P0", "oprP0", "pAgent_oprP0P0Out",
      "pAgent_opl", "pAgent_oplIndex"] ∧
    f.WellScoped := by
  have mem : .func _ ∈ (declareItem { catalog := {} } (.node tribute, "Tribute")).value :=
    mem_append_right _ mem_cons_self
  exact ⟨_, mem, rfl, by decide, methods_wellScoped _ _ _ _ mem rfl⟩

end Generation

end GoTrees
