import GoTrees.Proofs.Coverage
import GoTrees.Proofs.Getters

/-!
# Imports that cover classes

A class embeds a runtime type, whose package it needs, and holds a constructor and the methods that the recipe
of its kind makes from its operands. Names of classes come from paths and may hold any characters but dots and
line breaks, so lines with such a name are looked at as they stand; all other lines are put together from
operands.
-/

namespace GoTrees

open Go Text List

variable {cls name : String} {target : Variable} {second : Operand}

/-! ### Runtime classes -/

/-- A runtime class by itself, or behind a package other than the alias of the types. -/
def ClassWritten (cls : String) : Prop :=
  IsWord cls ∨ ∃ package type, IsWord package ∧ IsWord type ∧ package ≠ typesAlias ∧
    cls = package ++ "." ++ type

/-- The package and the type of a runtime class are words. -/
structure RuntimeWritten (r : String × String) : Prop where
  package : IsWord r.1
  type : IsWord r.2
  other : r.1 ≠ typesAlias

theorem IsWord.dot_notMem {w : String} (h : IsWord w) : '.' ∉ w.toList :=
  fun mem => absurd (h _ mem) (by decide)

/-- A class that is written well names a class of the runtime. -/
theorem runtimeClass_written (h : ClassWritten cls) : RuntimeWritten (runtimeClass cls) := by
  have none_of_word {w : String} (hw : IsWord w) : splitLastChars ['.'] w.toList = none :=
    splitLastChars_eq_none (containsChars_of_not_mem (mem_singleton_self '.') (IsWord.dot_notMem hw))
  rcases h with word | ⟨package, type, hp, ht, other, rfl⟩
  · have same : runtimeClass cls = ("bt", cls) := by
      rw [runtimeClass, splitLast, show ".".toList = ['.'] from rfl, none_of_word word]
      rfl
    rw [same]
    exact ⟨(by decide : IsWord "bt"), word, (by decide : "bt" ≠ typesAlias)⟩
  · have last : splitLastChars ['.'] ('.' :: type.toList) = some ([], type.toList) := by
      rw [splitLastChars, none_of_word ht]
      simp
    have same : runtimeClass (package ++ "." ++ type) = (package, type) := by
      have chars : (package ++ "." ++ type).toList = package.toList ++ '.' :: type.toList := by simp
      rw [runtimeClass, splitLast, chars, show ".".toList = ['.'] from rfl, splitLastChars_append last]
      simp
    rw [same]
    exact ⟨hp, ht, other⟩

theorem NodeTag.runtimeWritten (tag : NodeTag) : RuntimeWritten tag.runtimeType := by
  cases tag <;> exact ⟨by decide, by decide, by decide⟩

theorem AttachmentTag.runtimeWritten (tag : AttachmentTag) : RuntimeWritten tag.runtimeType := by
  cases tag <;> exact ⟨by decide, by decide, by decide⟩

namespace Item

def operands : Item → List Operand
  | node n => n.kind.operands
  | attachment a => a.operands

/-- The runtime class of an item of an unknown kind. -/
def unknown? : Item → Option String
  | node n => match n.kind with
    | .unknown cls => some cls
    | _ => none
  | attachment a => match a.kind with
    | .unknown cls => some cls
    | _ => none

theorem unknown?_node {n : Node} : (node n).unknown? = some cls ↔ n.kind = .unknown cls := by
  rw [unknown?]
  cases n.kind <;> simp

theorem unknown?_attachment {a : Attachment} :
    (attachment a).unknown? = some cls ↔ a.kind = .unknown cls := by
  rw [unknown?]
  cases a.kind <;> simp

/-- What an item says is beside the package. -/
structure Beside (pkg : String) (i : Item) : Prop where
  operands : ∀ o ∈ i.operands, o.DeepBeside pkg
  unknown : ∀ cls ∈ i.unknown?, ClassWritten cls

variable {pkg tree : String} {i : Item}

theorem Beside.runtime (h : i.Beside pkg) : RuntimeWritten i.runtimeType := by
  cases i with
  | node n =>
    rw [runtimeType, Node.runtimeType]
    split
    · next cls kind => exact runtimeClass_written (h.unknown cls (unknown?_node.mpr kind))
    · exact NodeTag.runtimeWritten _
  | attachment a =>
    rw [runtimeType, Attachment.runtimeType]
    split
    · next cls kind => exact runtimeClass_written (h.unknown cls (unknown?_attachment.mpr kind))
    · exact AttachmentTag.runtimeWritten _

end Item

/-! ### Names of classes -/

section ClassNames

variable {pkg tree : String} {i : Item}

theorem IsWord.flush {w : String} (h : IsWord w) : AllChars IsFlush w :=
  fun c hc => ⟨fun dot => IsWord.dot_notMem h (dot ▸ hc), fun feed => absurd (h c hc) (by rw [feed]; decide)⟩

theorem flush_toString (id : Int) : AllChars IsFlush (toString id) := by
  intro c hc
  have numeral := isNumeral_of_mem_toString hc
  constructor <;> rintro rfl <;> exact absurd numeral (by decide)

/-- The name of a class is written in one piece. -/
theorem flush_className (h : i.Beside pkg) (ht : AllChars IsFlush tree) :
    AllChars IsFlush (Generation.className tree i) := by
  have parts {kind name : String} (hk : IsWord kind) (hn : AllChars IsFlush name) :
      AllChars IsFlush (kind ++ "_" ++ tree ++ "_" ++ name) :=
    ((((IsWord.flush hk).append (by decide)).append ht).append (by decide)).append hn
  cases i with
  | node n =>
    have named : IsWord n.exportClass := by
      rw [Node.exportClass]
      split
      · next cls kind => exact (runtimeClass_written (h.unknown cls (Item.unknown?_node.mpr kind))).type
      · generalize n.kind.tag = tag
        cases tag <;> decide
    exact parts named (AllChars.append (by decide) (flush_toString n.id))
  | attachment a =>
    have named : IsWord a.exportClass := by
      rw [Attachment.exportClass]
      split
      · next cls kind => exact (runtimeClass_written (h.unknown cls (Item.unknown?_attachment.mpr kind))).type
      · generalize a.kind.tag = tag
        cases tag <;> decide
    exact allChars_pascalCase (fun _ hc => upperChar_flush hc)
      (parts named (AllChars.append (by decide) (flush_toString a.id)))

end ClassNames

/-! ### Classes -/

section Classes

variable {u : Usage} {pkg name : String}

/-- All declarations have no qualifiers but allowed ones. -/
abbrev Go.Decl.AllAllowed (A : List Char → Prop) (ds : List Decl) : Prop := ∀ d ∈ ds, d.Allowed A

theorem allowed_new (hn : AllChars IsFlush name) :
    (Step.define "n" (.new name)).Allowed u.Permits := by
  have flush : AllChars IsFlush ("n" ++ " := " ++ ("new(" ++ name) ++ ")") :=
    (AllChars.append (by decide) (AllChars.append (by decide) hn)).append (by decide)
  have same : (Step.define "n" (.new name)).text = "n" ++ " := " ++ ("new(" ++ name) ++ ")" := by
    simp [Step.text, Expr.text, String.append_assoc]
  rw [Step.Allowed, same]
  exact (raw_flush flush).lineAllows (getLast?_append_ne (by decide) (by decide) _)

/-- A class has no qualifiers but those of its runtime class, setup and methods. -/
theorem allowed_classDecls (w : Watched u.pkg) (hn : AllChars IsFlush name) {runtime : String × String}
    (hr : RuntimeWritten runtime) (imported : .runtime runtime.1 ∈ u.imports) {setup : List Step}
    (hs : Step.AllAllowed u.Permits setup) {needs : Needs} (hneeds : needs.Permitted u)
    {methods : List Decl} (hm : Decl.AllAllowed u.Permits methods) :
    Decl.AllAllowed u.Permits
      (classDecls name (runtime.1 ++ "." ++ runtime.2) setup needs methods) := by
  have embedded : Clean u.Permits (runtime.1 ++ "." ++ runtime.2) :=
    ((hr.package.selectable (permits_runtime imported hr.other)).select hr.type).clean
  have body : Step.AllAllowed u.Permits
      ([.define "n" (.new name)] ++ setup ++ needs.setup ++ [.ret self]) := by
    simp only [Step.AllAllowed, forall_mem_append, forall_mem_singleton]
    exact ⟨⟨⟨allowed_new hn, hs⟩, hneeds.setup⟩, allowed_ret (selectable_self w).clean⟩
  have new : AllChars IsFlush ("New" ++ name) := AllChars.append (by decide) hn
  have result : AllChars IsFlush ("*" ++ name) := AllChars.append (by decide) hn
  refine forall_mem_append.mpr ⟨?_, hm⟩
  rw [forall_mem_cons, forall_mem_cons, forall_mem_cons, forall_mem_singleton]
  refine ⟨allowed_embedding hn embedded hneeds.fields, allowed_blank, ?_, allowed_blank⟩
  refine Func.Written.allowed ⟨by rintro _ ⟨⟩, new, by rintro _ ⟨⟩, ?_⟩ (allAllowed_steps body)
  rintro _ ⟨⟩
  exact raw_flush result

/-- A class uses imported packages only if its setup and its methods do. -/
theorem covered_class (w : Watched u.pkg) (hn : AllChars IsFlush name) {runtime : String × String}
    (hr : RuntimeWritten runtime) {setup : Emit (List Step)} (hs : .runtime runtime.1 ∈ u.imports →
      setup.Covered u (Step.AllAllowed u.Permits))
    {methods : Emit (List Decl)} (hm : methods.Covered u (Decl.AllAllowed u.Permits)) :
    (declareClass runtime [] setup methods name).Covered u
      (Decl.AllAllowed u.Permits) := by
  intro sub
  obtain ⟨own, rest⟩ := cons_subset.mp sub
  rw [Needs.imports_append, append_subset] at rest
  obtain ⟨methodsValue, methodsNeeds⟩ := hm rest.1
  obtain ⟨setupValue, setupNeeds⟩ := hs own rest.2
  have needs := methodsNeeds.append setupNeeds
  refine ⟨allowed_classDecls w hn hr own setupValue needs methodsValue, ?_, by rintro _ ⟨⟩, by rintro _ ⟨⟩⟩
  intro p mem
  rcases mem_cons.mp mem with same | mem
  · cases same
    exact hr.package
  · exact needs.words p mem

/-- A type that stands in the head of a method. -/
theorem raw_bt (w : Watched u.pkg) {type : String} (ht : IsWord type) :
    Raw u.Permits ("bt" ++ "." ++ type) :=
  raw_member (by decide) (permits_word w.other.symm) ht

theorem allowed_methodDecls (w : Watched u.pkg) (hn : AllChars IsFlush name) {method : String}
    (hm : AllChars IsFlush method) {result : Option String} (hr : ∀ r ∈ result, Raw u.Permits r)
    {body : List Stmt} (hb : Stmt.AllAllowed u.Permits body) :
    Decl.AllAllowed u.Permits (methodDecls name method result body) := by
  refine forall_mem_cons.mpr ⟨?_, forall_mem_singleton.mpr allowed_blank⟩
  refine Func.Written.allowed ⟨?_, hm, ?_, hr⟩ hb
  · rintro _ ⟨⟩
    exact ⟨(by decide : AllChars IsFlush "n"), hn⟩
  · exact forall_mem_singleton.mpr ⟨by decide, raw_bt w (by decide : IsWord "Agent")⟩

theorem allowed_getterDecls (w : Watched u.pkg) (hn : AllChars IsFlush name) {method result : String}
    (hm : AllChars IsFlush method) (hr : Raw u.Permits result) {value : Emission}
    (hv : value.Allowed u.Permits) {convert : Option String} (hc : ∀ t ∈ convert, IsWord t) :
    Decl.AllAllowed u.Permits (getterDecls name method result value convert) := by
  have bound := hv.bind (by decide : IsWord "ret")
  have method (answer : Step) (ha : answer.Allowed u.Permits) :
      Decl.AllAllowed u.Permits
      (methodDecls name method (some result) (((value.bind "ret").1 ++ [answer]).map .step)) :=
    allowed_methodDecls w hn hm (by rintro _ ⟨⟩; exact hr)
      (allAllowed_steps (forall_mem_append.mpr ⟨bound.1, forall_mem_singleton.mpr ha⟩))
  cases convert with
  | none => exact method _ (allowed_ret bound.2)
  | some type => exact method _ (allowed_ret (clean_converted (hc type rfl).clean bound.2))

theorem allowed_setSelf (w : Watched u.pkg) {field : String} (hf : IsWord field) {e : Expr}
    (he : Clean u.Permits e.text) : (setSelf field e).Allowed u.Permits :=
  allowed_assign (selectable_select (selectable_self w) hf).clean he

end Classes

/-! ### Recipes of nodes -/

theorem gaps_arithmetic (a : Arithmetic) : Gaps (" " ++ a.symbol ++ " ") := by
  cases a with
  | add | sub | mul => exact gaps_of_plain (by decide) (by decide)
  -- a slash between blanks starts no comment
  | div => exact ⟨[' ', '/', ' '], fun _ => rfl, by decide, (by decide : AllChars (isGap · = true) " / ")⟩

theorem gaps_relation (r : Relation) : Gaps (" " ++ r.symbol ++ " ") := by
  cases r <;> exact gaps_of_plain (by decide) (by decide)

theorem gaps_comparison {c : Comparison} {symbol : String} (h : c.symbol? = some symbol) :
    Gaps (" " ++ symbol ++ " ") := by
  cases c with
  | invalid => cases h
  | relation r =>
    cases h
    exact gaps_relation r
  | conjunction | disjunction =>
    cases h
    exact gaps_of_plain (by decide) (by decide)

namespace NodeRecipe

variable {u : Usage} {pkg className : String} {x : Context} {n : Node}

theorem covered_no_setup : (pure [] : Emit (List Step)).Covered u
    (Step.AllAllowed u.Permits) := .pure (by rintro _ ⟨⟩)

theorem covered_no_methods : (pure [] : Emit (List Decl)).Covered u
    (Decl.AllAllowed u.Permits) := .pure (by rintro _ ⟨⟩)

/-- Policies are those of the package of the parallel node, which its class imports. -/
theorem covered_policies (hx : x.Beside u.pkg) (imported : .runtime n.runtimeType.1 ∈ u.imports) :
    (parallel.setup x n).Covered u (Step.AllAllowed u.Permits) := by
  refine .pure ?_
  split
  · next p kind =>
    have composites : u.Permits "composites".toList := by
      rw [Node.runtimeType, kind] at imported
      exact permits_runtime imported (by decide)
    have member {item : String} (hi : IsWord item) :
        Clean u.Permits (Expr.member "composites" item).text :=
      (selectable_member (by decide) composites hi).clean
    have none : Clean u.Permits (Expr.literal "").text := clean_empty
    rw [Step.AllAllowed, forall_mem_cons, forall_mem_cons, forall_mem_cons,
      forall_mem_singleton]
    refine ⟨allowed_setSelf hx.toWatched (by decide) ?_, allowed_setSelf hx.toWatched (by decide) ?_,
      allowed_setSelf hx.toWatched (by decide) ?_, allowed_setSelf hx.toWatched (by decide) ?_⟩
    · cases p.failure with
      | unspecified => exact none
      | one | all => exact member (by decide)
    · cases p.success with
      | unspecified => exact none
      | one | all => exact member (by decide)
    · cases p.exit with
      | unspecified => exact none
      | leave | abort => exact member (by decide)
    · cases p.childFinish with
      | unspecified => exact none
      | once | loop => exact member (by decide)
  · rintro _ ⟨⟩

theorem allAllowed_giveUp (message : String) : Stmt.AllAllowed u.Permits [giveUp message] := by
  have panic : Clean u.Permits (Expr.name "panic").text := clean_bare (by decide)
  have call := (panic.append (g := "(") (gaps_of_plain (by decide) (by decide)) (clean_quote message)).close
    (g := ")") (gaps_of_plain (by decide) (by decide))
  exact allAllowed_step (allowed_eval call)

theorem covered_subtreeBody (hx : x.Beside u.pkg) {tree : Operand} (h : tree.DeepBeside u.pkg) :
    (subtreeBody x tree).Covered u (Stmt.AllAllowed u.Permits) := by
  rw [subtreeBody.eq_def]
  split
  · next name =>
    split
    · exact .pure (allAllowed_step (allowed_ret (clean_quote name)))
    · exact .pure (allAllowed_giveUp _)
  · refine .bind (covered_operand hx h (by decide : IsWord "subtree")) fun e he => .pure ?_
    have bound := he.bind (by decide : IsWord "subtree")
    have given : Clean u.Permits (Expr.binary agentVar "!=" .nil).text :=
      clean_binary (selectable_agentVar hx.toWatched).clean (gaps_of_plain (by decide) (by decide)) clean_nil
    refine (allAllowed_ifThen given (allAllowed_steps ?_)).append (allAllowed_giveUp _)
    exact forall_mem_append.mpr ⟨bound.1, forall_mem_singleton.mpr (allowed_ret bound.2)⟩

theorem covered_callMethod (hx : x.Beside u.pkg) {c : Call} (h : c.operand.DeepBeside u.pkg) {slot : String}
    (hs : IsWord slot) : (x.callMethod c slot).Covered u (Emission.Allowed u.Permits) :=
  covered_operand hx h hs

theorem covered_actionStatus (hx : x.Beside u.pkg) {a : Action} (h : ∀ o ∈ a.operands, o.DeepBeside u.pkg)
    (isVoid : Bool) : (actionStatus x a isVoid).Covered u
      fun r => Step.AllAllowed u.Permits r.1 ∧ Clean u.Permits r.2.text := by
  have given : Step.AllAllowed u.Permits [] ∧
      Clean u.Permits a.resultOption.expr.text :=
    ⟨by rintro _ ⟨⟩, clean_status hx.toWatched _⟩
  rw [actionStatus]
  split
  · next functor found =>
    have deep := h functor.operand (by simp [Action.operands, found])
    have self : functor.1.Beside u.pkg := deep _ .self
    split
    · split
      · exact .bind (covered_callMethod hx deep (by decide)) fun _ he =>
          .pure (he.bind (by decide : IsWord "functor"))
      · refine .bind (covered_receiver hx.toWatched fun _ => self.className) fun agent ha => ?_
        have method := (selectable_select ha self.name.memberName).clean
        refine .pure ⟨by rintro _ ⟨⟩, (selectable_call hx.base method ?_).clean⟩
        exact forall_mem_singleton.mpr (clean_bare (by decide))
    · exact .pure given
  · exact .pure given

/-- The body of an action uses imported packages only. -/
theorem covered_actionBody (hx : x.Beside u.pkg) {a : Action} (h : ∀ o ∈ a.operands, o.DeepBeside u.pkg) :
    (actionBody x a).Covered u (Step.AllAllowed u.Permits) := by
  have result : Clean u.Permits (Expr.name "result").text := clean_bare (by decide)
  rw [actionBody]
  split
  · exact .pure (forall_mem_singleton.mpr (allowed_ret (clean_status hx.toWatched _)))
  · next method found =>
    have deep := h method.operand (by simp [Action.operands, found])
    refine .bind (covered_callMethod hx deep (by decide)) fun call hc => ?_
    have answer (step : Step) (hs : step.Allowed u.Permits) :
        Step.AllAllowed u.Permits (call.pre ++ [step] ++ call.post) :=
      forall_mem_append.mpr ⟨forall_mem_append.mpr ⟨hc.pre, forall_mem_singleton.mpr hs⟩, hc.post⟩
    have kept : (Step.define "result" call.expr).Allowed u.Permits := allowed_define result hc.expr
    dsimp only
    split
    · exact .pure (forall_mem_append.mpr ⟨answer _ kept, forall_mem_singleton.mpr (allowed_ret result)⟩)
    · refine .bind (covered_actionStatus hx h _) fun status hs => .pure ?_
      refine forall_mem_append.mpr ⟨forall_mem_append.mpr ⟨answer _ ?_, hs.1⟩,
        forall_mem_singleton.mpr (allowed_ret hs.2)⟩
      split
      · exact kept
      · exact allowed_eval hc.expr

theorem covered_stepsMethod (w : Watched u.pkg) (hc : AllChars IsFlush className) (hn : AllChars IsFlush name)
    {result : Option String} (hr : ∀ r ∈ result, Raw u.Permits r) {body : Emit (List Step)}
    (hb : body.Covered u (Step.AllAllowed u.Permits)) :
    (body >>= fun steps => pure (methodDecls className name result (steps.map .step))).Covered u
      (Decl.AllAllowed u.Permits) :=
  .bind hb fun _ hs => .pure (allowed_methodDecls w hc hn hr (allAllowed_steps hs))

theorem typeBeside_of_deepBeside {o : Operand} (h : o.DeepBeside pkg) : TypeBeside pkg o.type := by
  have self := h _ .self
  match o with
  | .var (.const _ _) => exact self.1.1
  | .var (.property _) | .var (.element _ _) => exact self.type
  | .call _ _ => exact self.result

theorem covered_store (hx : x.Beside u.pkg) (ht : (Operand.var target).DeepBeside u.pkg)
    {steps : List Step} (hs : Step.AllAllowed u.Permits steps) {value : Expr}
    (hv : Clean u.Permits value.text) :
    (x.writeVariable target value "opl" >>= fun write => pure (steps ++ write)).Covered u
      (Step.AllAllowed u.Permits) :=
  .bind (covered_writeVariable hx ht hv (by decide)) fun _ hw => .pure (forall_mem_append.mpr ⟨hs, hw⟩)

theorem covered_assignmentBody (hx : x.Beside u.pkg) {a : Assignment}
    (h : ∀ o ∈ (NodeKind.assignment a).operands, o.DeepBeside u.pkg) :
    (assignmentBody x a).Covered u (Step.AllAllowed u.Permits) := by
  rw [assignmentBody.eq_def]
  split
  · next target source hasTarget hasSource =>
    have deepTarget := h (.var target) (by simp [NodeKind.operands, hasTarget])
    have deepSource := h source (by simp [NodeKind.operands, hasSource])
    refine .bind (covered_operand hx deepSource (by decide : IsWord "opr")) fun e he => ?_
    have bound := he.bind (by decide : IsWord "opr")
    dsimp only
    split
    · refine .bind (covered_goType hx (typeBeside_of_deepBeside deepTarget)) fun type htype => ?_
      exact .bind (.pure (clean_converted htype.clean bound.2)) fun _ hv =>
        covered_store hx deepTarget bound.1 hv
    · exact .bind (.pure bound.2) fun _ hv => covered_store hx deepTarget bound.1 hv
  · exact covered_no_setup

theorem covered_computeBody (hx : x.Beside u.pkg) {c : Compute}
    (h : ∀ o ∈ (NodeKind.compute c).operands, o.DeepBeside u.pkg) :
    (computeBody x c).Covered u (Step.AllAllowed u.Permits) := by
  rw [computeBody.eq_def]
  split
  · next target first second hasTarget hasFirst hasSecond =>
    have deepTarget := h (.var target) (by simp [NodeKind.operands, hasTarget])
    have deepFirst := h first (by simp [NodeKind.operands, hasFirst])
    have deepSecond := h second (by simp [NodeKind.operands, hasSecond])
    refine .bind (covered_operand hx deepFirst (by decide : IsWord "opr1")) fun e1 he1 => ?_
    refine .bind (covered_operand hx deepSecond (by decide : IsWord "opr2")) fun e2 he2 => ?_
    have bound1 := he1.bind (by decide : IsWord "opr1")
    have bound2 := he2.bind (by decide : IsWord "opr2")
    refine .bind (covered_goType hx (typeBeside_of_deepBeside deepTarget)) fun type htype => ?_
    exact covered_store hx deepTarget (forall_mem_append.mpr ⟨bound1.1, bound2.1⟩)
      (clean_converted htype.clean (clean_binary bound1.2 (gaps_arithmetic c.operator) bound2.2))
  · exact covered_no_setup

theorem covered_conditionBody (hx : x.Beside u.pkg) {c : Condition}
    (h : ∀ o ∈ (NodeKind.condition c).operands, o.DeepBeside u.pkg) :
    (conditionBody x c).Covered u (Step.AllAllowed u.Permits) := by
  rw [conditionBody.eq_def]
  split
  · next left right symbol hasLeft hasRight operator =>
    have deepLeft := h left (by simp [NodeKind.operands, hasLeft])
    have deepRight := h right (by simp [NodeKind.operands, hasRight])
    have gaps := gaps_comparison operator
    refine .bind (covered_operand hx deepLeft (by decide : IsWord "opl")) fun e1 he1 => ?_
    refine .bind (covered_operand hx deepRight (by decide : IsWord "opr")) fun e2 he2 => .pure ?_
    have bound1 := he1.bind (by decide : IsWord "oplRet")
    have bound2 := he2.bind (by decide : IsWord "oprRet")
    have opl : Clean u.Permits (Expr.name "opl").text := clean_bare (by decide)
    have opr : Clean u.Permits (Expr.name "opr").text := clean_bare (by decide)
    refine forall_mem_append.mpr ⟨forall_mem_append.mpr ⟨forall_mem_append.mpr ⟨bound1.1, ?_⟩,
      bound2.1⟩, forall_mem_cons.mpr ⟨allowed_define opr bound2.2, ?_⟩⟩
    · exact forall_mem_singleton.mpr (allowed_define opl bound1.2)
    · exact forall_mem_singleton.mpr (allowed_ret (clean_binary opl gaps opr))
  · exact .pure (forall_mem_singleton.mpr (allowed_ret (clean_bool false)))

theorem mem_operands_of_getter? {k : NodeKind} {g : Getter} (h : k.getter? = some g) :
    g.operand ∈ k.operands := by
  unfold NodeKind.getter? at h
  split at h <;> cases h <;> simp [NodeKind.operands]

end NodeRecipe

/-! ### Recipes of attachments -/

namespace AttachmentRecipe

open NodeRecipe (covered_no_setup covered_no_methods covered_callMethod covered_store typeBeside_of_deepBeside)

variable {u : Usage} {pkg className : String} {x : Context} {a : Attachment}

theorem covered_compareBody (hx : x.Beside u.pkg) (r : Relation) {target : Operand}
    (ht : target.DeepBeside u.pkg) (hs : second.DeepBeside u.pkg) :
    (compareBody x r target second).Covered u (Stmt.AllAllowed u.Permits) := by
  refine .bind (covered_operand hx ht (by decide : IsWord "opl")) fun e1 he1 => ?_
  refine .bind (covered_operand hx hs (by decide : IsWord "opr2")) fun e2 he2 => .pure ?_
  have bound1 := he1.bind (by decide : IsWord "oplRet")
  have bound2 := he2.bind (by decide : IsWord "opr2Ret")
  have opl : Clean u.Permits (Expr.name "opl").text := clean_bare (by decide)
  have opr2 : Clean u.Permits (Expr.name "opr2").text := clean_bare (by decide)
  have op : Clean u.Permits (Expr.name "op").text := clean_bare (by decide)
  have result : Clean u.Permits (Expr.name "result").text := clean_bare (by decide)
  refine (allAllowed_steps ?_).append (allAllowed_ifThen (clean_not op)
    (allAllowed_step (allowed_assign result (clean_status hx.toWatched _))))
  refine forall_mem_append.mpr ⟨forall_mem_append.mpr ⟨forall_mem_append.mpr ⟨bound1.1, ?_⟩,
    bound2.1⟩, forall_mem_cons.mpr ⟨allowed_define opr2 bound2.2, ?_⟩⟩
  · exact forall_mem_singleton.mpr (allowed_define opl bound1.2)
  · exact forall_mem_singleton.mpr (allowed_define op (clean_binary opl (gaps_relation r) opr2))

theorem covered_assignBody (hx : x.Beside u.pkg) (ht : (Operand.var target).DeepBeside u.pkg)
    (hs : second.DeepBeside u.pkg) :
    (assignBody x target second).Covered u (Step.AllAllowed u.Permits) := by
  refine .bind (covered_operand hx hs (by decide : IsWord "opr2")) fun e he => ?_
  have bound := he.bind (by decide : IsWord "opr2")
  exact covered_store hx ht bound.1 bound.2

theorem covered_computeBody (hx : x.Beside u.pkg) (op : Arithmetic) {first : Operand}
    (ht : (Operand.var target).DeepBeside u.pkg) (hf : first.DeepBeside u.pkg) (hs : second.DeepBeside u.pkg) :
    (computeBody x op target first second).Covered u (Step.AllAllowed u.Permits) := by
  refine .bind (covered_goType hx (typeBeside_of_deepBeside hf)) fun type htype => ?_
  refine .bind (covered_operand hx hf (by decide : IsWord "opr1")) fun e1 he1 => ?_
  refine .bind (covered_operand hx hs (by decide : IsWord "opr2")) fun e2 he2 => ?_
  have bound1 := he1.bind (by decide : IsWord "opr1")
  have bound2 := he2.bind (by decide : IsWord "opr2")
  exact covered_store hx ht (forall_mem_append.mpr ⟨bound1.1, bound2.1⟩)
    (clean_converted htype.clean (clean_binary bound1.2 (gaps_arithmetic op) bound2.2))

/-- The body of an attachment uses imported packages only. -/
theorem covered_actionBody (hx : x.Beside u.pkg) {action : AttachAction}
    (h : ∀ o ∈ action.operands, o.DeepBeside u.pkg) :
    (actionBody x action).Covered u (Stmt.AllAllowed u.Permits) := by
  have target {o : Operand} (given : action.target = some o) : o.DeepBeside u.pkg :=
    h o (by simp [AttachAction.operands, given])
  have first {o : Operand} (given : action.first = some o) : o.DeepBeside u.pkg :=
    h o (by simp [AttachAction.operands, given])
  have second {o : Operand} (given : action.second = some o) : o.DeepBeside u.pkg :=
    h o (by simp [AttachAction.operands, given])
  rw [actionBody.eq_def]
  split
  · next m args _ given =>
    have deep : (Call.operand (m, args)).DeepBeside u.pkg := target given
    refine .bind (covered_callMethod hx deep (by decide)) fun e he => .pure (allAllowed_steps ?_)
    exact forall_mem_append.mpr ⟨forall_mem_append.mpr ⟨he.pre,
      forall_mem_singleton.mpr (allowed_eval he.expr)⟩, he.post⟩
  · next given1 given2 =>
    exact .bind (covered_assignBody hx (target given1) (second given2)) fun _ hs => .pure (allAllowed_steps hs)
  · next r _ _ _ given1 given2 => exact covered_compareBody hx r (target given1) (second given2)
  · next op _ _ _ _ given1 given2 given3 =>
    exact .bind (covered_computeBody hx op (target given1) (first given2) (second given3)) fun _ hs =>
      .pure (allAllowed_steps hs)
  · exact .pure allAllowed_nil

theorem covered_updateMethod (hx : x.Beside u.pkg) (hc : AllChars IsFlush className) {action : AttachAction}
    (h : ∀ o ∈ action.operands, o.DeepBeside u.pkg) : (updateMethod x className action).Covered u
      (Decl.AllAllowed u.Permits) := by
  have result : Clean u.Permits (Expr.name "result").text := clean_bare (by decide)
  refine .bind (.usePackage (by decide)) fun _ _ => .bind (covered_actionBody hx h) fun body hb => .pure ?_
  refine allowed_methodDecls hx.toWatched hc (by decide)
    (by rintro _ ⟨⟩; exact raw_bt hx.toWatched (by decide : IsWord "Status")) ?_
  exact ((allAllowed_step (allowed_define result (clean_status hx.toWatched _))).append hb).append
    (allAllowed_step (allowed_ret result))

end AttachmentRecipe

/-! ### Items -/

namespace Item

open NodeRecipe AttachmentRecipe

variable {u : Usage} {pkg className : String} {x : Context} {i : Item}

/-- The fixed fields of a node get values that name no package but that of its runtime type. -/
theorem covered_nodeSetup (hx : x.Beside u.pkg) {n : Node} (imported : .runtime n.runtimeType.1 ∈ u.imports) :
    ((Item.node n).fixedSetup x).Covered u (Step.AllAllowed u.Permits) := by
  have set {field : String} {e : Expr} (hf : IsWord field) (he : Clean u.Permits e.text) :
      Step.AllAllowed u.Permits [setSelf field e] :=
    forall_mem_singleton.mpr (allowed_setSelf hx.toWatched hf he)
  have weight : Selectable u.Permits (Expr.select self "doGetWeight").text :=
    selectable_select (selectable_self hx.toWatched) (by decide)
  have none : (pure [] : Emit (List Step)).Covered u (Step.AllAllowed u.Permits) :=
    covered_no_setup
  refine Registry.builtin_node
    (P := fun r => (r.setup x n).Covered u (Step.AllAllowed u.Permits)) none ?_ n.tag
  simp only [Registry.builtinNodes, forall_mem_cons, not_mem_nil, false_imp_iff, implies_true]
  refine ⟨none, covered_policies hx imported, none, none, none, .pure ?_, none, .pure ?_, .pure ?_,
    none, none, none, none, none, none, .pure ?_, none, none, trivial⟩
  · split
    · exact set (by decide) (clean_bool _)
    · rintro _ ⟨⟩
  · split
    · exact set (by decide) (clean_quote _)
    · rintro _ ⟨⟩
  · split
    · exact set (by decide) weight.clean
    · rintro _ ⟨⟩
  · split
    · exact set (by decide) (clean_bool _)
    · rintro _ ⟨⟩

/-- Attachments set their id, and their phase or mode by a name of the runtime. -/
theorem covered_attachmentSetup (hx : x.Beside u.pkg) (a : Attachment) :
    ((Item.attachment a).fixedSetup x).Covered u (Step.AllAllowed u.Permits) := by
  have id : (setSelf "Id" (.int a.id)).Allowed u.Permits :=
    allowed_setSelf hx.toWatched (by decide) (clean_int a.id)
  have named {field name : String} (hf : IsWord field) (hn : IsWord name) :
      (setSelf field (.member "bt" name)).Allowed u.Permits :=
    allowed_setSelf hx.toWatched hf (selectable_runtime hx.toWatched hn).clean
  refine .bind (P := Step.AllAllowed u.Permits) ?_ fun _ hs => .pure (forall_mem_cons.mpr ⟨id, hs⟩)
  refine Registry.builtin_attachment
    (P := fun r => (r.setup x a).Covered u (Step.AllAllowed u.Permits))
    covered_no_setup ?_ a.tag
  simp only [Registry.builtinAttachments, precondition, effector, event, forall_mem_cons, not_mem_nil,
    false_imp_iff, implies_true, and_true]
  refine ⟨covered_no_setup, ?_, ?_, ?_⟩
  · split
    · next phase conj _ _ =>
      have member : IsWord ("PreconditionPhase" ++ phase.name) := by cases phase <;> decide
      refine .bind (.usePackage (by decide)) fun _ _ => .pure ?_
      exact forall_mem_cons.mpr ⟨named (by decide) member,
        forall_mem_singleton.mpr (allowed_setSelf hx.toWatched (by decide) (clean_bool conj))⟩
    · exact covered_no_setup
  · split
    · next phase _ _ =>
      have member : IsWord ("EffectorPhase" ++ phase.name) := by cases phase <;> decide
      exact .bind (.usePackage (by decide)) fun _ _ =>
        .pure (forall_mem_singleton.mpr (named (by decide) member))
    · exact covered_no_setup
  · split
    · next e _ =>
      have member : IsWord ("EventMode" ++ e.mode.name) := by cases e.mode <;> decide
      refine .bind (.usePackage (by decide)) fun _ _ => .pure ?_
      rw [Step.AllAllowed, forall_mem_cons, forall_mem_cons, forall_mem_cons, forall_mem_singleton]
      exact ⟨allowed_setSelf hx.toWatched (by decide) (clean_quote _),
        allowed_setSelf hx.toWatched (by decide) (clean_bool e.once), named (by decide) member,
        allowed_setSelf hx.toWatched (by decide) (clean_quote _)⟩
    · exact covered_no_setup

theorem covered_fixedSetup (hx : x.Beside u.pkg) (imported : .runtime i.runtimeType.1 ∈ u.imports) :
    (i.fixedSetup x).Covered u (Step.AllAllowed u.Permits) := by
  cases i with
  | node n => exact covered_nodeSetup hx imported
  | attachment a => exact covered_attachmentSetup hx a

/-- The methods that the built-in recipes make name no package without its import. -/
theorem covered_methods (hx : x.Beside u.pkg) (hi : i.Beside u.pkg) (hc : AllChars IsFlush className) :
    (i.methods x className).Covered u (Decl.AllAllowed u.Permits) := by
  have slots : ∀ slot ∈ ["count", "frames", "weight", "time", "status"], IsWord slot := by decide
  have names : ∀ name ∈ ["GetCount", "GetFrames", "doGetWeight", "GetTime", "GetStatus"],
      AllChars IsFlush name := by
    decide
  have status : Raw u.Permits "bt.Status" := raw_bt hx.toWatched (by decide : IsWord "Status")
  have deep := hi.operands
  have source := i.methodsFrom x className
  generalize i.methods x className = decls at source ⊢
  cases source with
  | none => exact covered_no_methods
  | reference tree kind =>
    rw [operands, kind] at deep
    refine .bind (covered_subtreeBody hx (deep tree (by simp [NodeKind.operands]))) fun body hb => .pure ?_
    exact allowed_methodDecls hx.toWatched hc (by decide) (by rintro _ ⟨⟩; exact raw_flush (by decide)) hb
  | getter of =>
    obtain ⟨slot, name, answer⟩ := NodeKind.getter?_spec of
    refine .bind (covered_operand hx (deep _ (mem_operands_of_getter? of)) (slots _ slot)) fun _ he => .pure ?_
    rcases answer with ⟨int, convert⟩ | ⟨int, convert⟩ <;> dsimp only at int convert <;> subst int convert
    · exact allowed_getterDecls hx.toWatched hc (names _ name) (raw_flush (by decide)) he
        (by rintro _ ⟨⟩; decide)
    · exact allowed_getterDecls hx.toWatched hc (names _ name) status he (by rintro _ ⟨⟩)
  | action a kind =>
    rw [operands, kind] at deep
    exact .bind (.usePackage (by decide)) fun _ _ => covered_stepsMethod hx.toWatched hc (by decide)
      (by rintro _ ⟨⟩; exact status) (NodeRecipe.covered_actionBody hx deep)
  | assignment a kind =>
    rw [operands, kind] at deep
    exact covered_stepsMethod hx.toWatched hc (by decide) (by rintro _ ⟨⟩) (covered_assignmentBody hx deep)
  | compute c kind =>
    rw [operands, kind] at deep
    exact covered_stepsMethod hx.toWatched hc (by decide) (by rintro _ ⟨⟩)
      (NodeRecipe.covered_computeBody hx deep)
  | condition c kind =>
    rw [operands, kind] at deep
    exact covered_stepsMethod hx.toWatched hc (by decide) (by rintro _ ⟨⟩; exact raw_flush (by decide))
      (covered_conditionBody hx deep)
  | update action has =>
    refine covered_updateMethod hx hc fun o mem => deep o ?_
    simpa [operands, Attachment.operands, has] using mem

end Item

end GoTrees
