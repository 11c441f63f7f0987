import GoTrees.Proofs.Captures

/-!
# Captured constants of classes

The operands of a method have slots on different branches, so what they capture is complete together, and with
it the whole method. A class has one method that captures, and a constructor that does not; it declares
what has been captured for the method and sets it in the constructor.
-/

namespace GoTrees

open Go Slot Needs List

variable (x : Context)

/-! ### Bodies of methods -/

theorem Needs.Complete.seq {as bs u u' : List String} {a b : Needs} (ha : a.Complete (Among as) u)
    (hb : b.Complete (Among bs) u') (separate : Separate as bs) :
    (a ++ b).Complete (Among (as ++ bs)) (u ++ u') :=
  (ha.append hb fun _ => Among.not_among separate).widen fun _ => among_append.mpr

theorem complete_value (o : Operand) (slot name : String) :
    (x.operand o slot).needs.Complete (Among [slot])
      (stepAccesses ((x.operand o slot).value.bind name).1 ++
        ((x.operand o slot).value.bind name).2.accesses) :=
  ((x.complete_operand o slot).widen fun _ h => Owns.among (.inl h)).access (Emission.accesses_bind _ name)

theorem complete_store (v : Variable) (value : Expr) (slot : String) :
    ∃ used, (x.writeVariable v value slot).needs.Complete (Among [slot]) used ∧
      stepAccesses (x.writeVariable v value slot).value ⊆ used ++ value.accesses := by
  obtain ⟨used, complete, sub⟩ := x.complete_writeVariable v value slot
  exact ⟨used, complete.widen fun _ h => Owns.among (.inl ((Context.under_indexSlot slot).trans h)), sub⟩

theorem complete_transfer (target : Variable) (source : Operand) (slot : String)
    (separate : Separate [slot] ["opl"]) {value : Expr}
    (h : value.accesses = ((x.operand source slot).value.bind slot).2.accesses) :
    ((x.operand source slot).needs ++ (x.writeVariable target value "opl").needs).Complete
      (Among [slot, "opl"])
      (stepAccesses (((x.operand source slot).value.bind slot).1 ++
        (x.writeVariable target value "opl").value)) := by
  obtain ⟨used, store, written⟩ := complete_store x target value "opl"
  refine ((complete_value x source slot slot).seq store separate).access ?_
  intro f hf
  have written := @written f
  rw [h] at written
  simp only [stepAccesses_append, mem_append] at hf written ⊢
  tauto

/-- A computation accesses the fields captured for both operands and the target. -/
theorem complete_calculate (target : Variable) (first second : Operand) (type symbol : String) :
    ((x.operand first "opr1").needs ++ (x.operand second "opr2").needs ++
      (x.writeVariable target (.converted type
        (.binary ((x.operand first "opr1").value.bind "opr1").2 symbol
          ((x.operand second "opr2").value.bind "opr2").2)) "opl").needs).Complete
      (Among ["opr1", "opr2", "opl"])
      (stepAccesses (((x.operand first "opr1").value.bind "opr1").1 ++
        ((x.operand second "opr2").value.bind "opr2").1 ++
        (x.writeVariable target (.converted type
          (.binary ((x.operand first "opr1").value.bind "opr1").2 symbol
            ((x.operand second "opr2").value.bind "opr2").2)) "opl").value)) := by
  obtain ⟨used, store, written⟩ := complete_store x target (.converted type
    (.binary ((x.operand first "opr1").value.bind "opr1").2 symbol
      ((x.operand second "opr2").value.bind "opr2").2)) "opl"
  have both := (complete_value x first "opr1" "opr1").seq (complete_value x second "opr2" "opr2") (by decide)
  refine (both.seq store (by decide)).access ?_
  intro f hf
  have written := @written f
  simp only [Expr.accesses, stepAccesses_append, mem_append] at hf written ⊢
  tauto

namespace NodeRecipe

theorem complete_assignmentBody (a : Assignment) :
    (assignmentBody x a).needs.Complete (Among ["opr", "opl"]) (stepAccesses (assignmentBody x a).value) := by
  fun_cases assignmentBody x a with
  | case1 target source =>
    cases h : a.casting
    · have body := complete_transfer x target source "opr" (by decide) rfl
      simpa using body
    · have body := complete_transfer x target source "opr" (by decide)
        (show (Expr.converted (x.goType target.type).value
          ((x.operand source "opr").value.bind "opr").2).accesses = _
          from rfl)
      simpa using body.around (x.captureless_goType target.type)
  | case2 => exact captureless_empty.complete _

theorem complete_computeBody (c : Compute) :
    (computeBody x c).needs.Complete (Among ["opr1", "opr2", "opl"])
      (stepAccesses (computeBody x c).value) := by
  fun_cases computeBody x c with
  | case1 target first second =>
    have body := complete_calculate x target first second (x.goType target.type).value c.operator.symbol
    simpa [Needs.append_assoc] using body.around (x.captureless_goType target.type)
  | case2 => exact captureless_empty.complete _

theorem complete_conditionBody (c : Condition) :
    (conditionBody x c).needs.Complete (Among ["opl", "opr"]) (stepAccesses (conditionBody x c).value) := by
  fun_cases conditionBody x c with
  | case1 left right symbol =>
    have both := (complete_value x left "opl" "oplRet").seq (complete_value x right "opr" "oprRet") (by decide)
    simpa using both
  | case2 => exact captureless_empty.complete _

theorem complete_actionStatus (a : Action) (isVoid : Bool) :
    (actionStatus x a isVoid).needs.Complete (Among ["functor"])
      (stepAccesses (actionStatus x a isVoid).value.1 ++ (actionStatus x a isVoid).value.2.accesses) := by
  fun_cases actionStatus x a isVoid with
  | case1 functor =>
    exact (complete_value x (.call functor.1 functor.2) "functor" "functor").before captureless_empty
  | case2 functor =>
    have foreign := (Context.foreign_receiver functor.1.className).2
    have other := Expr.isReceiver_of_names foreign
    have accesses := Expr.accesses_of_names foreign
    have none := ((Context.captureless_receiver functor.1.className).complete (Among ["functor"])).before
      captureless_empty
    simpa [other, accesses] using none
  | case3 => exact captureless_empty.complete _
  | case4 => exact captureless_empty.complete _

/-- An action accesses the fields captured for its method and functor. -/
theorem complete_actionBody (a : Action) :
    (actionBody x a).needs.Complete (Among ["method", "functor"]) (stepAccesses (actionBody x a).value) := by
  fun_cases actionBody x a with
  | case1 => exact captureless_empty.complete _
  | case2 method =>
    let call := (x.callMethod method "method").value
    have called : (x.callMethod method "method").needs.Complete (Among ["method"]) call.accesses :=
      (x.complete_operand (.call method.1 method.2) "method").widen fun _ h => Owns.among (.inl h)
    simp only [Emit.value_bind, Emit.needs_bind]
    split
    · refine ((called.before captureless_empty).widen fun _ => Among.mono (by simp)).access ?_
      simp [Emission.accesses, call]
    · let isVoid := decide (x.catalog.classify method.1.result = .void)
      have body := called.seq ((complete_actionStatus x a isVoid).before captureless_empty) (by decide)
      have step : (if keepsResult a isVoid then Step.define "result" call.expr else .eval call.expr).accesses =
          call.expr.accesses := by split <;> rfl
      have written : stepAccesses (call.pre ++ [if keepsResult a isVoid then .define "result" call.expr
          else .eval call.expr] ++ call.post ++ (actionStatus x a isVoid).value.1 ++
            [.ret (actionStatus x a isVoid).value.2]) =
          call.accesses ++ (stepAccesses (actionStatus x a isVoid).value.1 ++
            (actionStatus x a isVoid).value.2.accesses) := by
        simp [Emission.accesses, step]
      rw [← written] at body
      exact body

theorem complete_subtreeBody (tree : Operand) :
    (subtreeBody x tree).needs.Complete (Among ["subtree"]) (Stmt.allAccesses (subtreeBody x tree).value) := by
  fun_cases subtreeBody x tree with
  | case1 => exact captureless_empty.complete _
  | case2 => exact captureless_empty.complete _
  | case3 =>
    have name := complete_value x tree "subtree" "subtree"
    refine (name.before captureless_empty).access ?_
    simp [agentVar, Expr.nil, giveUp]

end NodeRecipe

namespace AttachmentRecipe

theorem complete_compareBody (r : Relation) (target second : Operand) :
    (compareBody x r target second).needs.Complete (Among ["opl", "opr2"])
      (Stmt.allAccesses (compareBody x r target second).value) := by
  have both := (complete_value x target "opl" "oplRet").seq
    (complete_value x second "opr2" "opr2Ret") (by decide)
  simpa [compareBody, Status.expr] using both

/-- The action of an attachment accesses the fields captured for its operands. -/
theorem complete_actionBody (a : AttachAction) :
    (actionBody x a).needs.Complete (Among ["opr1", "opr2", "opl"])
      (Stmt.allAccesses (actionBody x a).value) := by
  fun_cases actionBody x a with
  | case1 m args =>
    have call := (x.complete_operand (.call m args) "opl").widen fun _ h => Owns.among (.inl h)
    refine ((call.before captureless_empty).widen fun _ => Among.mono (by simp)).access ?_
    simp [Emission.statement, Emission.accesses, Context.callMethod]
  | case2 target second =>
    have body := complete_transfer x target second "opr2" (by decide) rfl
    refine Complete.widen ?_ fun _ => Among.mono (show ["opr2", "opl"] ⊆ ["opr1", "opr2", "opl"] by simp)
    simpa [assignBody] using body
  | case3 r target second => exact (complete_compareBody x r target second).widen fun _ => Among.mono (by simp)
  | case4 op target first second =>
    have body := complete_calculate x target first second (x.goType first.type).value op.symbol
    simpa [computeBody, Needs.append_assoc] using body.after (x.captureless_goType first.type)
  | case5 => exact captureless_empty.complete _

end AttachmentRecipe

/-! ### Classes -/

@[simp] theorem declAccesses_methodDecls (className name : String) (result : Option String)
    (body : List Stmt) :
    declAccesses (methodDecls className name result body) = Stmt.allAccesses body := by
  simp [methodDecls, declAccesses]

theorem declAccesses_getterDecls (className name result : String) (e : Emission) (convert : Option String) :
    declAccesses (getterDecls className name result e convert) =
      stepAccesses (e.bind "ret").1 ++ (e.bind "ret").2.accesses := by
  cases convert <;> simp [getterDecls]

/-- A method that does nothing but answer an operand. -/
theorem complete_getter (o : Operand) (slot : String) {decls : Emission → List Decl}
    (h : ∀ e, declAccesses (decls e) = stepAccesses (e.bind "ret").1 ++ (e.bind "ret").2.accesses) :
    (x.operand o slot >>= fun e => pure (decls e)).needs.Complete (Among [slot])
      (declAccesses (x.operand o slot >>= fun e => pure (decls e)).value) := by
  rw [Emit.value_bind, Emit.value_pure, h]
  exact (complete_value x o slot "ret").before captureless_empty

def CompleteClass (methods : Emit (List Decl)) (setup : Emit (List Step)) : Prop :=
  (methods.needs ++ setup.needs).Complete (fun _ => True) (declAccesses methods.value)

/-- A class is complete if its method and its setup are. -/
theorem completeClass_of (slots : List String) {methods : Emit (List Decl)} {setup : Emit (List Step)}
    (h : methods.needs.Complete (Among slots) (declAccesses methods.value)) (none : setup.needs.Captureless) :
    CompleteClass methods setup :=
  (h.before none).widen fun _ _ => trivial

/-- To set fixed fields captures nothing. -/
theorem Item.captureless_fixedSetup (i : Item) : (i.fixedSetup x).needs.Captureless := by
  rcases i.needs_fixedSetup x with same | same <;> rw [same]
  · exact captureless_empty
  · exact Context.captureless_usePackage "bt"

open NodeRecipe AttachmentRecipe in
/-- The methods and the constructor of every item are complete. -/
theorem Item.completeClass (className : String) (i : Item) :
    CompleteClass (i.methods x className) (i.fixedSetup x) := by
  have setup := i.captureless_fixedSetup x
  have source := i.methodsFrom x className
  generalize i.methods x className = decls, i.fixedSetup x = fixed at source setup ⊢
  cases source with
  | none => exact completeClass_of [] (captureless_empty.complete _) setup
  | reference tree => exact completeClass_of ["subtree"] (by simpa using complete_subtreeBody x tree) setup
  | getter =>
    exact completeClass_of _ (complete_getter x _ _ fun e => declAccesses_getterDecls className _ _ e _) setup
  | action a =>
    have body := (NodeRecipe.complete_actionBody x a).after (Context.captureless_usePackage "bt")
    exact completeClass_of ["method", "functor"] (by simpa [stepsMethod] using body) setup
  | assignment a =>
    exact completeClass_of ["opr", "opl"] (by simpa [stepsMethod] using complete_assignmentBody x a) setup
  | compute c =>
    exact completeClass_of ["opr1", "opr2", "opl"]
      (by simpa [stepsMethod] using complete_computeBody x c) setup
  | condition c =>
    exact completeClass_of ["opl", "opr"] (by simpa [stepsMethod] using complete_conditionBody x c) setup
  | update action =>
    have body := (AttachmentRecipe.complete_actionBody x action).after (Context.captureless_usePackage "bt")
    exact completeClass_of ["opr1", "opr2", "opl"] (by simpa [updateMethod, Status.expr] using body) setup

namespace Generation

/-- A class has the fields that its methods capture, and its constructor sets them. -/
theorem declareItem_eq (i : Item) (className : String) :
    let captures := (i.methods x className).needs ++ (i.fixedSetup x).needs
    let decls := (declareItem { toContext := x } (i, className)).value
    decls = [] ∨ ∃ runtime, decls =
      [.embedding className runtime captures.fields, .blank,
       .func { name := "New" ++ className, result := some ("*" ++ className)
               body := ([Step.define "n" (.new className)] ++ (i.fixedSetup x).value ++ captures.setup ++
                 [Step.ret self]).map .step },
       .blank] ++ (i.methods x className).value := by
  intro captures decls
  simp only [decls, declareItem_builtin]
  split
  · exact .inr ⟨_, rfl⟩
  · exact .inl rfl

/-- The captures of a class are complete, whatever the operands of its node or attachment. The methods and the
constructor never capture a field twice, the methods access no other fields of their receiver, and what is
set up for the constructor assigns to captured fields or below them. So the class declares each captured
field once, and its constructor sets declared fields beside the fixed ones. -/
theorem captures_complete (x : Context) (i : Item) (className : String) :
    let captures := (i.methods x className).needs ++ (i.fixedSetup x).needs
    let fields := captures.fields.map Row.name
    let decls := (declareItem { toContext := x } (i, className)).value
    fields.Nodup ∧
    (∀ f : Func, .func f ∈ (i.methods x className).value → Stmt.allAccesses f.body ⊆ fields) ∧
    (∀ s ∈ captures.setup, ∃ field ∈ fields, ∃ place value,
      s = .assign place value ∧ Context.Within (.select self field) place) ∧
    (decls = [] ∨ ∃ runtime, decls =
      [.embedding className runtime captures.fields, .blank,
       .func { name := "New" ++ className, result := some ("*" ++ className)
               body := ([Step.define "n" (.new className)] ++ (i.fixedSetup x).value ++ captures.setup ++
                 [Step.ret self]).map .step },
       .blank] ++ (i.methods x className).value) := by
  intro captures fields decls
  obtain ⟨distinct, -, reach, setup⟩ := i.completeClass x className
  refine ⟨distinct, fun f mem => ?_, fun s mem => ?_, declareItem_eq x i className⟩
  · refine List.Subset.trans (fun field access => ?_) reach
    exact mem_flatMap.mpr ⟨.func f, mem, access⟩
  · obtain ⟨field, declared, assigns⟩ := setup s mem
    exact ⟨field, declared, assigns s (mem_singleton_self s)⟩

/-- An assignment from a call with constants at two depths, to an element at a constant index. -/
def levy : Node where
  id := 1
  kind := .assignment {
    target := some (.element { name := "Gold", isElement := true }
      (.const "Turn" (.struct [("day", .int 2)]))),
    source := some (.call { name := "Collect", params := [{ isRef := true }, {}] }
      [some (.call { name := "Count", params := [{}] } [some (.var (.const "vector<int>" (.array [.int 1])))]),
       some (.var (.const "int" (.int 3)))]) }

theorem captures_complete_levy :
    let methods := (Item.node levy).methods { catalog := {} } "Levy"
    let captures := methods.needs ++ ((Item.node levy).fixedSetup { catalog := {} }).needs
    declAccesses methods.value = ["oprP0P0", "oplIndex", "oprP1"] ∧
    captures.fields.map Row.name = ["oprP0P0", "oprP1", "oplIndex"] ∧ (captures.fields.map Row.name).Nodup ∧
    ∀ f : Func, .func f ∈ methods.value → Stmt.allAccesses f.body ⊆ captures.fields.map Row.name := by
  intro methods captures
  obtain ⟨distinct, accesses, -⟩ := captures_complete { catalog := {} } (.node levy) "Levy"
  exact ⟨by decide +kernel, by decide +kernel, distinct, accesses⟩

end Generation

end GoTrees
