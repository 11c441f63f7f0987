import GoTrees.Proofs.Comments
import GoTrees.Proofs.CompleteClasses
import GoTrees.Proofs.Recipes
import GoTrees.Proofs.UsedTypes

/-!
# Types that classes cite

The methods of a class are made of the operands of its node or attachment, and its fields and its
constructor of what these leave to it. So a class whose code needs the import of the generated types cites
them in a method, in a field or in its constructor. Assignments and computations that write to a constant
are the exception: they leave out the value, with all that it owes.
-/

namespace GoTrees

open Go Text List

variable {target : Variable} {second : Operand}

/-! ### Methods -/

/-- An emission of steps pays for the generated types that it needs. -/
abbrev Emit.PaysSteps (e : Emit (List Step)) : Prop := e.Owes False Step.AllLegible (Step.AnyCites typesAlias)

/-- An emission of a body pays for the generated types that it needs. -/
abbrev Emit.PaysBody (e : Emit (List Stmt)) : Prop :=
  e.Owes False (fun b => Step.AllLegible (Stmt.allInner b))
    (fun b => Step.AnyCites typesAlias (Stmt.allInner b))

/-- An emission of declarations pays for the generated types that it needs. -/
abbrev Emit.PaysDecls (e : Emit (List Decl)) : Prop := e.Owes False (fun _ => True) (Decl.AnyCites typesAlias)

section Methods

variable {q className name : String} {result : Option String} {x : Context}

theorem cites_methodDecls {body : List Stmt} (legible : Step.AllLegible (Stmt.allInner body))
    (h : Step.AnyCites q (Stmt.allInner body)) : Decl.AnyCites q (methodDecls className name result body) := by
  obtain ⟨s, mem, cites⟩ := h
  exact ⟨_, mem_cons_self, Decl.cites_func ⟨s, mem, cites.text (legible s mem)⟩⟩

theorem pays_method {body : Emit (List Stmt)} (h : body.PaysBody) :
    (body >>= fun b => pure (methodDecls className name result b)).PaysDecls :=
  .andThen h fun _ hb => .pure trivial (cites_methodDecls hb)

theorem pays_steps {steps : Emit (List Step)} (h : steps.PaysSteps) :
    (steps >>= fun s => pure (s.map Stmt.step)).PaysBody :=
  .andThen h fun s hs => .pure (by rwa [Stmt.allInner_map_step]) (by rw [Stmt.allInner_map_step]; exact id)

theorem pays_stepsMethod {body : Emit (List Step)} (h : body.PaysSteps) :
    (body >>= fun steps => pure (methodDecls className name result (steps.map .step))).PaysDecls :=
  .andThen h fun s hs => .pure trivial fun cites =>
    cites_methodDecls (by rwa [Stmt.allInner_map_step]) (by rwa [Stmt.allInner_map_step])

/-- A method that answers an operand. -/
theorem pays_getter {value : Emit Emission} (h : value.Owes False Emission.Legible Emission.Cites)
    {type : String} {convert : Option String} (hc : ∀ t ∈ convert, AllChars IsPlain t) :
    (value >>= fun e => pure (getterDecls className name type e convert)).PaysDecls := by
  refine .andThen h fun e he => .pure trivial fun cites => ?_
  have bound := he.bind (by decide : AllChars IsPlain "ret")
  have method (answer : Step) (legible : answer.Legible)
      (answers : (e.bind "ret").2.Cites typesAlias → answer.Cites typesAlias) :
      Decl.AnyCites typesAlias
        (methodDecls className name (some type) (((e.bind "ret").1 ++ [answer]).map .step)) := by
    refine cites_methodDecls ?_ ?_ <;> rw [Stmt.allInner_map_step]
    · exact forall_mem_append.mpr ⟨bound.1, forall_mem_singleton.mpr legible⟩
    · rw [Step.anyCites_append, Step.anyCites_singleton]
      exact (cites.bind "ret").imp_right answers
  cases convert with
  | none => exact method (.ret _) bound.2 id
  | some t => exact method (.ret (.converted t _)) ⟨bound.2, legible_plain (hc t rfl)⟩ .inl

theorem pays_none : (pure [] : Emit (List Decl)).PaysDecls := .pure trivial False.elim

end Methods

/-! ### Items -/

def AttachAction.written? (a : AttachAction) : Option Variable :=
  match a.classify, a.target with
  | .assign, some (.var v) | .compute _, some (.var v) => some v
  | _, _ => none

namespace Item

def written? : Item → Option Variable
  | node n => match n.kind with
    | .assignment a => a.target
    | .compute c => c.target
    | _ => none
  | attachment a => a.kind.action?.bind AttachAction.written?

/-- What an item says is spelled, and it does not write to a constant. -/
structure Spelled (x : Context) (i : Item) : Prop where
  operands : ∀ o ∈ i.operands, o.DeepSpelled x
  written : ∀ v ∈ i.written?, v.property?.isSome = true
  unknown : ∀ cls ∈ i.unknown?, AllChars IsRowChar cls

theorem rowChars_runtimeClass {cls : String} (h : AllChars IsRowChar cls) :
    AllChars IsRowChar (runtimeClass cls).1 ∧ AllChars IsRowChar (runtimeClass cls).2 := by
  rw [runtimeClass]
  cases found : splitLast cls "." with
  | none => exact ⟨(by decide : AllChars IsRowChar "bt"), h⟩
  | some parts => exact h.splitLast found

theorem Spelled.runtime {x : Context} {i : Item} (h : i.Spelled x) :
    AllChars IsRowChar i.runtimeType.1 ∧ AllChars IsRowChar i.runtimeType.2 := by
  cases i with
  | node n =>
    rw [runtimeType, Node.runtimeType]
    split
    · next cls kind => exact rowChars_runtimeClass (h.unknown cls (unknown?_node.mpr kind))
    · generalize n.kind.tag = tag
      cases tag <;> decide
  | attachment a =>
    rw [runtimeType, Attachment.runtimeType]
    split
    · next cls kind => exact rowChars_runtimeClass (h.unknown cls (unknown?_attachment.mpr kind))
    · generalize a.kind.tag = tag
      cases tag <;> decide

end Item

/-! ### Recipes of nodes -/

namespace NodeRecipe

variable {x : Context}

theorem legible_giveUp (message : String) : Step.AllLegible (Stmt.allInner [giveUp message]) := by
  have call : (Expr.call (.name "panic") [.string message]).Legible :=
    ⟨legible_plain (by decide), trivial, trivial⟩
  exact forall_mem_singleton.mpr call

theorem pays_subtreeBody (hx : x.Spelled) {tree : Operand} (h : tree.DeepSpelled x) :
    (subtreeBody x tree).PaysBody := by
  rw [subtreeBody.eq_def]
  split
  · next name =>
    split
    · exact .pure (forall_mem_singleton.mpr trivial) False.elim
    · exact .pure (legible_giveUp _) False.elim
  · refine .andThen (owes_operand hx h (by decide)) fun e he => ?_
    have bound := he.bind (by decide : AllChars IsPlain "subtree")
    have inner : Stmt.allInner [.ifThen (.binary agentVar "!=" .nil)
        (((e.bind "subtree").1 ++ [Step.ret (e.bind "subtree").2]).map .step), giveUp "subtree not found"] =
        (e.bind "subtree").1 ++ [.ret (e.bind "subtree").2] ++ Stmt.allInner [giveUp "subtree not found"] := by
      rw [Stmt.allInner, Stmt.inner, Stmt.allInner_map_step]
    refine .pure (inner ▸ ?_) (inner ▸ ?_)
    · exact forall_mem_append.mpr ⟨forall_mem_append.mpr ⟨bound.1,
        forall_mem_singleton.mpr bound.2⟩, legible_giveUp _⟩
    · rw [Step.anyCites_append, Step.anyCites_append, Step.anyCites_singleton]
      exact fun cites => .inl (cites.bind "subtree")

theorem owes_actionStatus (hx : x.Spelled) {a : Action} (h : ∀ o ∈ a.operands, o.DeepSpelled x)
    (isVoid : Bool) : (actionStatus x a isVoid).Owes False LegiblePart PartCites := by
  have given : LegiblePart ([], a.resultOption.expr) := ⟨by rintro _ ⟨⟩, legible_status _⟩
  rw [actionStatus]
  split
  · next functor found =>
    have deep := h functor.operand (by simp [Action.operands, found])
    have self : functor.1.Spelled := (deep _ .self).1
    split
    · split
      · exact .andThen (owes_operand hx deep (by decide)) fun _ he =>
          .pure (he.bind (by decide : AllChars IsPlain "functor")) fun cites => cites.bind "functor"
      · refine .bind (owes_receiver self.className) fun agent ha =>
          .pure ⟨by rintro _ ⟨⟩, ⟨ha, ?_⟩, ?_, trivial⟩ ?_
        · exact legible_plain (plain_memberName self.name)
        · exact legible_plain (by decide)
        · rintro (⟨⟨⟩⟩ | ⟨cites, -⟩)
          exact .inr (.inl cites)
    · exact .pure given False.elim
  · exact .pure given False.elim

/-- The body of an action cites the package of types if it needs it. -/
theorem pays_actionBody (hx : x.Spelled) {a : Action} (h : ∀ o ∈ a.operands, o.DeepSpelled x) :
    (actionBody x a).PaysSteps := by
  have result : Go.Legible "result" := legible_plain (by decide)
  rw [actionBody]
  split
  · exact .pure (forall_mem_singleton.mpr (legible_status _)) False.elim
  · next method found =>
    have deep := h method.operand (by simp [Action.operands, found])
    refine .bind (owes_operand hx deep (by decide)) fun call hc => ?_
    have legible {step : Step} (hs : step.Legible) : Step.AllLegible (call.pre ++ [step] ++ call.post) :=
      forall_mem_append.mpr ⟨forall_mem_append.mpr ⟨hc.pre, forall_mem_singleton.mpr hs⟩, hc.post⟩
    have cited {step : Step} (hs : call.expr.Cites typesAlias → step.Cites typesAlias) (cites : call.Cites) :
        Step.AnyCites typesAlias (call.pre ++ [step] ++ call.post) := by
      rw [Step.anyCites_append, Step.anyCites_append, Step.anyCites_singleton, or_assoc]
      exact cites.imp_right (Or.imp_left hs)
    dsimp only
    split
    · refine .pure (forall_mem_append.mpr ⟨legible ⟨result, hc.expr⟩, forall_mem_singleton.mpr result⟩) ?_
      rintro (⟨⟨⟩⟩ | cites)
      exact Step.anyCites_append.mpr (.inl (cited id cites))
    · refine .bind (owes_actionStatus hx h _) fun status hs => .pure ?_ ?_
      · refine forall_mem_append.mpr ⟨forall_mem_append.mpr ⟨legible ?_, hs.1⟩,
          forall_mem_singleton.mpr hs.2⟩
        split
        · exact ⟨result, hc.expr⟩
        · exact hc.expr
      · intro debt
        rw [Step.anyCites_append, Step.anyCites_append, Step.anyCites_singleton, or_assoc]
        rcases debt with (⟨⟨⟩⟩ | cites) | cites
        · refine .inl (cited (fun own => ?_) cites)
          split <;> exact own
        · exact .inr cites

theorem plain_type {o : Operand} (h : o.DeepSpelled x) : AllChars IsPlain o.type := by
  have self := h _ .self
  match o with
  | .var (.const _ _) => exact self.1
  | .var (.property _) | .var (.element _ _) => exact self.type
  | .call _ _ => exact self.1.result

theorem owes_store (hx : x.Spelled) (ht : (Operand.var target).DeepSpelled x)
    (settable : target.property?.isSome = true) {steps : List Step} (hs : Step.AllLegible steps) {value : Expr}
    (hv : value.Legible) :
    (x.writeVariable target value "opl" >>= fun write => pure (steps ++ write)).Owes
      (Step.AnyCites typesAlias steps ∨ value.Cites typesAlias) Step.AllLegible
        (Step.AnyCites typesAlias) := by
  refine .pay (owes_writeVariable hx ht settable hv (by decide)) (Step.AnyCites typesAlias steps) Or.symm
    fun _ hw => .pure (forall_mem_append.mpr ⟨hs, hw⟩) fun debt => Step.anyCites_append.mpr debt.symm

theorem pays_assignmentBody (hx : x.Spelled) {a : Assignment}
    (h : ∀ o ∈ (NodeKind.assignment a).operands, o.DeepSpelled x)
    (settable : ∀ v ∈ a.target, v.property?.isSome = true) : (assignmentBody x a).PaysSteps := by
  rw [assignmentBody.eq_def]
  split
  · next target source hasTarget hasSource =>
    have deepTarget := h (.var target) (by simp [NodeKind.operands, hasTarget])
    have deepSource := h source (by simp [NodeKind.operands, hasSource])
    refine .andThen (owes_operand hx deepSource (by decide)) fun e he => ?_
    have bound := he.bind (by decide : AllChars IsPlain "opr")
    have store {value : Expr} (hv : value.Legible) :=
      owes_store hx deepTarget (settable target hasTarget) bound.1 hv
    dsimp only
    split
    · refine .bind (owes_goType hx (plain_type deepTarget)) fun type htype => ?_
      refine .andThen (.pure ⟨bound.2, legible_plain htype⟩ ?_) fun _ hv => store hv
      rintro (cites | cites)
      · exact (cites.bind "opr").imp_right .inl
      · exact .inr (.inr cites)
    · exact .andThen (.pure bound.2 fun cites => cites.bind "opr") fun _ hv => store hv
  · exact .pure (by rintro _ ⟨⟩) False.elim

/-- The value of a computation is converted to a type, so it also has what the type cites. -/
theorem owes_calculate (hx : x.Spelled) (ht : (Operand.var target).DeepSpelled x)
    (settable : target.property?.isSome = true) {first second : List Step × Expr} (hf : LegiblePart first)
    (hs : LegiblePart second) {type : String} (htype : AllChars IsPlain type) (op : Arithmetic) :
    (x.writeVariable target (.converted type (.binary first.2 op.symbol second.2)) "opl" >>= fun write =>
      pure (first.1 ++ second.1 ++ write)).Owes (PartCites first ∨ PartCites second ∨ Cites typesAlias type)
        Step.AllLegible (Step.AnyCites typesAlias) := by
  have value : (Expr.converted type (.binary first.2 op.symbol second.2)).Legible :=
    ⟨⟨hf.2, (gaps_arithmetic op).isMark, hs.2⟩, legible_plain htype⟩
  have cites : (Expr.converted type (.binary first.2 op.symbol second.2)).Cites typesAlias ↔
      (first.2.Cites typesAlias ∨ second.2.Cites typesAlias) ∨ Cites typesAlias type := Iff.rfl
  refine (owes_store hx ht settable (forall_mem_append.mpr ⟨hf.1, hs.1⟩) value).mono ?_ (fun _ => id)
    fun _ _ => id
  rw [cites, Step.anyCites_append, PartCites, PartCites]
  tauto

theorem pays_computeBody (hx : x.Spelled) {c : Compute}
    (h : ∀ o ∈ (NodeKind.compute c).operands, o.DeepSpelled x)
    (settable : ∀ v ∈ c.target, v.property?.isSome = true) : (computeBody x c).PaysSteps := by
  rw [computeBody.eq_def]
  split
  · next target first second hasTarget hasFirst hasSecond =>
    have deepTarget := h (.var target) (by simp [NodeKind.operands, hasTarget])
    have deepFirst := h first (by simp [NodeKind.operands, hasFirst])
    have deepSecond := h second (by simp [NodeKind.operands, hasSecond])
    refine .andThen (owes_operand hx deepFirst (by decide)) fun e1 he1 => ?_
    refine .bind (owes_operand hx deepSecond (by decide)) fun e2 he2 => ?_
    refine .bind (owes_goType hx (plain_type deepTarget)) fun type htype => ?_
    refine (owes_calculate hx deepTarget (settable target hasTarget) (he1.bind (by decide))
      (he2.bind (by decide))
      htype c.operator).mono ?_ (fun _ => id) fun _ _ => id
    rintro ((cites | cites) | cites)
    · exact .inl (cites.bind "opr1")
    · exact .inr (.inl (cites.bind "opr2"))
    · exact .inr (.inr cites)
  · exact .pure (by rintro _ ⟨⟩) False.elim

/-- Two operands that are compared: each is bound to a name of its own. -/
theorem owes_compared {first second : List Step × Expr} (hf : LegiblePart first) (hs : LegiblePart second)
    {left right : String} (hl : Go.Legible left) (hr : Go.Legible right) {rest : List Step}
    (more : Step.AllLegible rest) :
    let steps := first.1 ++ [.define left first.2] ++ second.1 ++ .define right second.2 :: rest
    Step.AllLegible steps ∧ (PartCites first ∨ PartCites second → Step.AnyCites typesAlias steps) := by
  intro steps
  refine ⟨?_, fun cites => ?_⟩
  · refine forall_mem_append.mpr ⟨forall_mem_append.mpr ⟨forall_mem_append.mpr ⟨hf.1, ?_⟩, hs.1⟩,
      forall_mem_cons.mpr ⟨⟨hr, hs.2⟩, more⟩⟩
    exact forall_mem_singleton.mpr ⟨hl, hf.2⟩
  · have left' : (Step.define left first.2).Cites typesAlias ↔ first.2.Cites typesAlias := Iff.rfl
    have right' : (Step.define right second.2).Cites typesAlias ↔ second.2.Cites typesAlias := Iff.rfl
    have whole : steps = first.1 ++ [.define left first.2] ++ second.1 ++
        ([.define right second.2] ++ rest) := rfl
    rw [PartCites, PartCites] at cites
    simp only [whole, Step.anyCites_append, Step.anyCites_singleton, left', right']
    tauto

theorem pays_conditionBody (hx : x.Spelled) {c : Condition}
    (h : ∀ o ∈ (NodeKind.condition c).operands, o.DeepSpelled x) : (conditionBody x c).PaysSteps := by
  rw [conditionBody.eq_def]
  split
  · next left right symbol hasLeft hasRight operator =>
    have deepLeft := h left (by simp [NodeKind.operands, hasLeft])
    have deepRight := h right (by simp [NodeKind.operands, hasRight])
    have opl : Go.Legible "opl" := legible_plain (by decide)
    have opr : Go.Legible "opr" := legible_plain (by decide)
    refine .andThen (owes_operand hx deepLeft (by decide)) fun e1 he1 => ?_
    refine .bind (owes_operand hx deepRight (by decide)) fun e2 he2 => ?_
    have answer : Step.AllLegible [.ret (.binary (.name "opl") symbol (.name "opr"))] :=
      forall_mem_singleton.mpr ⟨opl, (gaps_comparison operator).isMark, opr⟩
    obtain ⟨legible, cited⟩ := owes_compared (he1.bind (by decide : AllChars IsPlain "oplRet"))
      (he2.bind (by decide : AllChars IsPlain "oprRet")) opl opr answer
    exact .pure legible fun debt => cited (debt.imp (·.bind "oplRet") (·.bind "oprRet"))
  · exact .pure (forall_mem_singleton.mpr (legible_bool false)) False.elim

end NodeRecipe

/-! ### Recipes of attachments -/

namespace AttachmentRecipe

open NodeRecipe (owes_compared owes_store owes_calculate plain_type)

variable {x : Context}

theorem pays_compareBody (hx : x.Spelled) (r : Relation) {target : Operand} (ht : target.DeepSpelled x)
    (hs : second.DeepSpelled x) : (compareBody x r target second).PaysBody := by
  have opl : Go.Legible "opl" := legible_plain (by decide)
  have opr2 : Go.Legible "opr2" := legible_plain (by decide)
  refine .andThen (owes_operand hx ht (by decide)) fun e1 he1 => ?_
  refine .bind (owes_operand hx hs (by decide)) fun e2 he2 => ?_
  have compared : Step.AllLegible [.define "op" (.binary (.name "opl") r.symbol (.name "opr2"))] :=
    forall_mem_singleton.mpr ⟨legible_plain (by decide), opl, (gaps_relation r).isMark, opr2⟩
  have fail : (Step.assign (.name "result") Status.failure.expr).Legible :=
    ⟨legible_plain (by decide), legible_status _⟩
  obtain ⟨legible, cited⟩ := owes_compared (he1.bind (by decide : AllChars IsPlain "oplRet"))
    (he2.bind (by decide : AllChars IsPlain "opr2Ret")) opl opr2 compared
  refine .pure ?_ fun debt => ?_ <;> rw [Stmt.allInner_append, Stmt.allInner_map_step]
  · exact forall_mem_append.mpr ⟨legible, forall_mem_singleton.mpr fail⟩
  · exact Step.anyCites_append.mpr (.inl (cited (debt.imp (·.bind "oplRet") (·.bind "opr2Ret"))))

theorem pays_assignBody (hx : x.Spelled) (ht : (Operand.var target).DeepSpelled x)
    (settable : target.property?.isSome = true)
    (hs : second.DeepSpelled x) : (assignBody x target second).PaysSteps := by
  refine .andThen (owes_operand hx hs (by decide)) fun e he => ?_
  have bound := he.bind (by decide : AllChars IsPlain "opr2")
  exact (owes_store hx ht settable bound.1 bound.2).mono (·.bind "opr2") (fun _ => id) fun _ _ => id

theorem pays_computeBody (hx : x.Spelled) (op : Arithmetic) {first : Operand}
    (ht : (Operand.var target).DeepSpelled x) (settable : target.property?.isSome = true)
    (hf : first.DeepSpelled x) (hs : second.DeepSpelled x) :
    (computeBody x op target first second).PaysSteps := by
  refine .andThen (owes_goType hx (plain_type hf)) fun type htype => ?_
  refine .bind (owes_operand hx hf (by decide)) fun e1 he1 => ?_
  refine .bind (owes_operand hx hs (by decide)) fun e2 he2 => ?_
  refine (owes_calculate hx ht settable (he1.bind (by decide)) (he2.bind (by decide)) htype op).mono ?_
    (fun _ => id)
    fun _ _ => id
  rintro ((cites | cites) | cites)
  · exact .inr (.inr cites)
  · exact .inl (cites.bind "opr1")
  · exact .inr (.inl (cites.bind "opr2"))

/-- The body of an attachment cites the package of types if it needs it. -/
theorem pays_actionBody (hx : x.Spelled) {action : AttachAction} (h : ∀ o ∈ action.operands, o.DeepSpelled x)
    (settable : ∀ v ∈ action.written?, v.property?.isSome = true) : (actionBody x action).PaysBody := by
  have target {o : Operand} (given : action.target = some o) : o.DeepSpelled x :=
    h o (by simp [AttachAction.operands, given])
  have first {o : Operand} (given : action.first = some o) : o.DeepSpelled x :=
    h o (by simp [AttachAction.operands, given])
  have second {o : Operand} (given : action.second = some o) : o.DeepSpelled x :=
    h o (by simp [AttachAction.operands, given])
  rw [actionBody.eq_def]
  split
  · next m args _ given =>
    refine .andThen (owes_operand hx (target given) (by decide)) fun e he => .pure ?_ fun cites => ?_ <;>
      rw [Stmt.allInner_map_step, Emission.statement]
    · exact forall_mem_append.mpr ⟨forall_mem_append.mpr ⟨he.pre,
        forall_mem_singleton.mpr he.expr⟩, he.post⟩
    · rw [Step.anyCites_append, Step.anyCites_append, Step.anyCites_singleton, or_assoc]
      exact cites
  · next v second' kind given1 given2 =>
    refine pays_steps (pays_assignBody hx (target given1) (settable v ?_) (second given2))
    rw [AttachAction.written?, kind, given1]
    rfl
  · next r _ _ _ given1 given2 => exact pays_compareBody hx r (target given1) (second given2)
  · next op v _ _ kind given1 given2 given3 =>
    refine pays_steps (pays_computeBody hx op (target given1) (settable v ?_) (first given2) (second given3))
    rw [AttachAction.written?, kind, given1]
    rfl
  · exact .pure (by rintro _ ⟨⟩) False.elim

theorem pays_updateMethod (hx : x.Spelled) {action : AttachAction} (h : ∀ o ∈ action.operands, o.DeepSpelled x)
    (settable : ∀ v ∈ action.written?, v.property?.isSome = true) (className : String) :
    (updateMethod x className action).PaysDecls := by
  have success : (Step.define "result" Status.success.expr).Legible :=
    ⟨legible_plain (by decide), legible_status _⟩
  have answer : (Step.ret (.name "result")).Legible := legible_plain (s := "result") (by decide)
  refine .bind .useRuntime fun _ _ => .bind (pays_actionBody hx h settable) fun body hb => .pure trivial ?_
  rw [or_self, false_or]
  refine fun cites => cites_methodDecls ?_ ?_ <;> rw [Stmt.allInner_append, Stmt.allInner_append]
  · exact forall_mem_append.mpr ⟨forall_mem_append.mpr ⟨forall_mem_singleton.mpr success, hb⟩,
      forall_mem_singleton.mpr answer⟩
  · rw [Step.anyCites_append, Step.anyCites_append]
    exact .inl (.inr cites)

end AttachmentRecipe

/-! ### Recipes of items -/

namespace Item

open NodeRecipe AttachmentRecipe

variable {x : Context} {i : Item}

/-- To set fixed fields owes nothing. -/
theorem owes_fixedSetup (x : Context) (i : Item) :
    (i.fixedSetup x).Owes False (fun _ => True) (fun _ => False) := by
  rcases i.needs_fixedSetup x with same | same <;>
    exact ⟨trivial, same ▸ ⟨by rintro _ ⟨⟩, by rintro _ ⟨⟩⟩, by simp [same, Emit.usePackage, Emit.require],
      by simp [same, Emit.usePackage, Emit.require]⟩

/-- The methods that the built-in recipes make pay for the generated types that they need. -/
theorem pays_methods (hx : x.Spelled) (hi : i.Spelled x) (className : String) :
    (i.methods x className).PaysDecls := by
  have slots : ∀ slot ∈ ["count", "frames", "weight", "time", "status"], AllChars IsPlain slot := by decide
  have deep := hi.operands
  have settable := hi.written
  have source := i.methodsFrom x className
  generalize i.methods x className = decls at source ⊢
  cases source with
  | none => exact pays_none
  | reference tree kind =>
    rw [operands, kind] at deep
    exact pays_method (pays_subtreeBody hx (deep tree (by simp [NodeKind.operands])))
  | getter of =>
    obtain ⟨slot, -, answer⟩ := NodeKind.getter?_spec of
    refine pays_getter (owes_operand hx (deep _ (mem_operands_of_getter? of)) (slots _ slot)) ?_
    rcases answer with ⟨-, convert⟩ | ⟨-, convert⟩ <;> dsimp only at convert <;> subst convert
    · rintro _ ⟨⟩; decide
    · rintro _ ⟨⟩
  | action a kind =>
    rw [operands, kind] at deep
    refine .bind .useRuntime fun _ _ => (pays_stepsMethod (NodeRecipe.pays_actionBody hx deep)).mono ?_
      (fun _ value => value) fun _ _ cites => cites
    simp
  | assignment a kind =>
    rw [operands, kind] at deep
    rw [written?, kind] at settable
    exact pays_stepsMethod (pays_assignmentBody hx deep settable)
  | compute c kind =>
    rw [operands, kind] at deep
    rw [written?, kind] at settable
    exact pays_stepsMethod (NodeRecipe.pays_computeBody hx deep settable)
  | condition c kind =>
    rw [operands, kind] at deep
    exact pays_stepsMethod (pays_conditionBody hx deep)
  | update action has =>
    refine pays_updateMethod hx (fun o mem => deep o ?_) (fun v mem => settable v ?_) className
    · simpa [operands, Attachment.operands, has] using mem
    · simpa [written?, has] using mem

end Item

/-! ### Classes -/

namespace Go

/-- What stands in front of a dot where an import is used. -/
def Import.qualifier : Import → String
  | .runtime package => package
  | .types => typesAlias

def Decl.Uses (ds : List Decl) (i : Import) : Prop :=
  AllChars IsRowChar i.qualifier ∧ Decl.AnyCites i.qualifier ds

theorem Decl.Uses.mono {ds es : List Decl} (sub : ds ⊆ es) {i : Import} (h : Decl.Uses ds i) :
    Decl.Uses es i := by
  obtain ⟨plain, d, mem, cites⟩ := h
  exact ⟨plain, d, sub mem, cites⟩

end Go

def Emit.Uses (e : Emit (List Decl)) : Prop := ∀ i ∈ e.needs.imports, Decl.Uses e.value i

theorem Emit.Uses.pure (ds : List Decl) : Emit.Uses (Pure.pure ds) := by
  rintro _ ⟨⟩

theorem Emit.Uses.append {e f : Emit (List Decl)} (he : e.Uses) (hf : f.Uses) : (e ++ f).Uses := by
  intro i mem
  rw [Emit.needs_append, Needs.imports_append, mem_append] at mem
  rcases mem with mem | mem
  · exact (he i mem).mono (subset_append_left _ _)
  · exact (hf i mem).mono (subset_append_right _ _)

/-- Emitted declarations use all that they need, the runtime of the trees apart, which every tree uses
anyway. -/
def Emit.Paid (e : Emit (List Decl)) : Prop :=
  ∀ i ∈ e.needs.imports, i = .runtime "bt" ∨ Decl.Uses e.value i

theorem Emit.Paid.pure (ds : List Decl) : Emit.Paid (Pure.pure ds) := by
  rintro _ ⟨⟩

theorem Emit.Paid.append {e f : Emit (List Decl)} (he : e.Paid) (hf : f.Paid) : (e ++ f).Paid := by
  intro i mem
  rw [Emit.needs_append, Needs.imports_append, mem_append] at mem
  rcases mem with mem | mem
  · exact (he i mem).imp_right (Decl.Uses.mono (subset_append_left _ _))
  · exact (hf i mem).imp_right (Decl.Uses.mono (subset_append_right _ _))

section Classes

variable {x : Context} {name runtime : String} {setup : List Step} {needs : Needs} {methods : List Decl}

/-- A class holds the fields and the steps that its methods leave to it. -/
theorem cites_classDecls (legible : needs.Legible) (h : needs.Cites) :
    Decl.AnyCites typesAlias (classDecls name runtime setup needs methods) := by
  rcases h with ⟨r, mem, cites⟩ | ⟨s, mem, cites⟩
  · exact ⟨_, mem_append_left _ mem_cons_self, Decl.cites_field mem (legible.fields r mem) cites⟩
  · refine ⟨_, mem_append_left _ (mem_cons_of_mem _ (mem_cons_of_mem _ mem_cons_self)),
      Decl.cites_func ⟨s, ?_, cites.text (legible.setup s mem)⟩⟩
    rw [Stmt.allInner_map_step]
    exact mem_append_left _ (mem_append_right _ mem)

/-- A class cites all that it needs if its methods do. -/
theorem paid_class {runtime : String × String} (plain : AllChars IsRowChar runtime.1)
    {setup : Emit (List Step)} (hs : setup.Owes False (fun _ => True) (fun _ => False))
    {methods : Emit (List Decl)} (hm : methods.PaysDecls) :
    (declareClass runtime [] setup methods name).Paid := by
  have later (h : methods.needs.Cites ∨ setup.needs.Cites) :
      Decl.AnyCites typesAlias (declareClass runtime [] setup methods name).value :=
    cites_classDecls (hm.needs.append hs.needs) (Needs.cites_append.mpr h)
  have used (debt : .types ∈ methods.needs.imports ∨ .types ∈ setup.needs.imports) :
      Decl.AnyCites typesAlias (declareClass runtime [] setup methods name).value := by
    rcases debt with mem | mem
    · rcases hm.cites (.inr mem) with ⟨d, held, cites⟩ | left
      · exact ⟨d, mem_append_right _ held, cites⟩
      · exact later (.inl left)
    · exact later (.inr ((hs.cites (.inr mem)).resolve_left id))
  intro i mem
  rw [declareClass, mem_cons, Needs.imports_append, mem_append] at mem
  rcases mem with rfl | mem
  · exact .inr ⟨plain, _, mem_append_left _ mem_cons_self, Decl.cites_embedding (cites_self _ _)⟩
  · have known : i = .runtime "bt" ∨ i = .types := mem.elim (hm.imports i) (hs.imports i)
    refine known.imp_right fun types => ?_
    subst types
    exact ⟨(by decide : AllChars IsRowChar typesAlias), used mem⟩

theorem paid_declareItem (hx : x.Spelled) {i : Item} (hi : i.Spelled x) (className : String) :
    (Generation.declareItem { toContext := x } (i, className)).Paid := by
  rw [Generation.declareItem_builtin]
  split
  · exact paid_class hi.runtime.1 (i.owes_fixedSetup x) (Item.pays_methods hx hi className)
  · exact .pure []

end Classes

end GoTrees
