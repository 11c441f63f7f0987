import GoTrees.Proofs.Arguments

/-!
# Names that an operand mentions

The variables that the steps and the expression of an operand introduce or refer to are told apart by their
names, whatever the slot of the operand is. Names of agents have more underscores than the slots they belong
to, and the numbers of the arguments tell the other names apart. So what one argument of a call binds occurs
in no other part of the call.
-/

namespace GoTrees

open Go Slot List

variable (p : Param) {s y slot : String} {i : Nat}

/-! ### Names that occur -/

/-- The variables that a step introduces or refers to. -/
def Go.Step.names : Step → List String
  | .define y e => y :: e.names
  | .assign target e => target.names ++ e.names
  | .eval e | .ret e => e.names
  | .comment _ | .verbatim _ => []

@[simp] theorem Go.Step.names_define (y : String) (e : Expr) : (Step.define y e).names = y :: e.names := rfl

@[simp] theorem Go.Step.names_assign (target e : Expr) :
    (Step.assign target e).names = target.names ++ e.names := rfl

@[simp] theorem Go.Step.names_eval (e : Expr) : (Step.eval e).names = e.names := rfl

/-- The variables that steps introduce or refer to. -/
def stepNames (ss : List Step) : List String := ss.flatMap Step.names

@[simp] theorem stepNames_nil : stepNames [] = [] := rfl

@[simp] theorem stepNames_cons (s : Step) (ss : List Step) : stepNames (s :: ss) = s.names ++ stepNames ss :=
  rfl

@[simp] theorem stepNames_append (as bs : List Step) :
    stepNames (as ++ bs) = stepNames as ++ stepNames bs := flatMap_append

theorem introduced_subset_stepNames : ∀ ss : List Step, introduced ss ⊆ stepNames ss
  | [] => List.Subset.refl _
  | s :: ss => by
      have rest := introduced_subset_stepNames ss
      have first : s.introduced ⊆ s.names := by
        cases s <;> simp [Step.introduced, Step.names]
      rw [introduced_cons, stepNames_cons]
      exact append_subset.mpr ⟨subset_append_of_subset_left _ first,
        subset_append_of_subset_right _ rest⟩

namespace Slot

/-- The number of underscores in a name. -/
def underscores (s : String) : Nat := s.toList.count '_'

theorem underscores_append (s t : String) : underscores (s ++ t) = underscores s + underscores t := by
  rw [underscores, String.toList_append, count_append]
  rfl

theorem underscores_argument (i : Nat) : underscores (argument i) = 0 := by
  rw [underscores, toList_argument, count_eq_zero]
  intro h
  rcases mem_cons.mp h with h | h
  · cases h
  · exact absurd (isDigit_of_mem_toString h) (by decide)

theorem underscores_agent (s : String) : underscores (agent s) = underscores s + 1 := by
  rw [agent, underscores_append, Nat.add_comm]
  rfl

/-- The name is one that every method can refer to, or it has more underscores than the slot, as names of
agents have. -/
def Outside (s y : String) : Prop := y ∈ ambient ∨ underscores s < underscores y

theorem outside_agent (s : String) : Outside s (agent s) := by
  right
  rw [underscores_agent]
  omega

theorem Outside.of_append {t : String} (flat : underscores t = 0) (h : Outside (s ++ t) y) :
    Outside s y := by
  rw [Outside, underscores_append, flat] at h
  exact h

/-- The slot of an argument of a call, or of an argument of that argument, and so on. -/
inductive Deeper : String → String → Prop
  | argument (s : String) (i : Nat) : Deeper s (s ++ argument i)
  | nested {s y : String} {i : Nat} : Deeper (s ++ argument i) y → Deeper s y

theorem Deeper.under (h : Deeper s y) : Under s y := by
  induction h with
  | argument s i => exact under_append (turns_argument i)
  | nested h ih => exact (under_append (turns_argument _)).trans ih

theorem Deeper.push (h : Deeper s y) (i : Nat) : Deeper s (y ++ Slot.argument i) := by
  induction h with
  | argument s j => exact .nested (.argument _ i)
  | nested h ih => exact .nested ih

theorem Deeper.length_lt (h : Deeper s y) : s.toList.length < y.toList.length := by
  induction h with
  | argument s i =>
    rw [String.toList_append, length_append, toList_argument, length_cons]
    omega
  | nested h ih =>
    rw [String.toList_append, length_append] at ih
    omega

theorem Deeper.ne (h : Deeper s y) : y ≠ s := by
  rintro rfl
  exact absurd h.length_lt (Nat.lt_irrefl _)

/-- The slot of an argument is no name from outside. -/
theorem Deeper.not_outside (h : Deeper s y) : ¬ Outside s y := by
  have shape : underscores y = underscores s ∧ 'P' ∈ y.toList := by
    induction h with
    | argument s i =>
      rw [underscores_append, underscores_argument, String.toList_append, toList_argument]
      simp
    | nested h ih =>
      rw [underscores_append, underscores_argument] at ih
      exact ih
  have capital : ∀ y ∈ ambient, 'P' ∉ y.toList := by decide
  rintro (known | more)
  · exact capital y known shape.2
  · omega

theorem not_under_arguments {j : Nat} (ne : i ≠ j) (h : Under (s ++ argument i) y) :
    ¬ Under (s ++ argument j) y := by
  intro h'
  rcases h.comparable h' with u | u
  · exact not_under_argument ne (under_append_left.mp u)
  · exact not_under_argument ne.symm (under_append_left.mp u)

end Slot

/-- The variables that an operand introduces or refers to. -/
def Emission.names (e : Emission) : List String := stepNames e.pre ++ e.expr.names ++ stepNames e.post

namespace Context

/-- The variables that arguments introduce or refer to. -/
def Arguments.names (a : Arguments) : List String :=
  stepNames a.pre ++ Expr.allNames a.exprs ++ stepNames a.post

variable (x : Context)

theorem outside_receiver (className slot : String) :
    ∀ y ∈ (receiver className).value.names, Outside slot y := by
  intro y hy
  rw [names_receiver, mem_singleton] at hy
  exact .inl (by simp [hy, ambient])

theorem outside_namedAgent (name className slot : String) :
    ∀ y ∈ stepNames (x.namedAgent name className slot).value.1
      ++ (x.namedAgent name className slot).value.2.names, Outside slot y := by
  have owner := outside_agent slot
  have running : Outside slot "agent" := .inl (by decide)
  rw [agent] at owner
  rw [namedAgent]
  split
  · simpa [names_assertedAgent, agentVar] using ⟨owner, running, owner⟩
  · simpa [names_receiver] using ⟨owner, running, owner⟩

theorem outside_ownerOf (p : Property) (slot : String) :
    ∀ y ∈ stepNames (x.ownerOf p slot).value.1 ++ (x.ownerOf p slot).value.2.names, Outside slot y := by
  rw [ownerOf]
  split
  · simpa using outside_receiver _ slot
  · exact x.outside_namedAgent _ _ slot

theorem names_checkId (p : Property) : (checkId p).value.names = [] := rfl

theorem names_readFrom (p : Property) (owner : Expr) (i : Option Expr) :
    stepNames (x.readFrom p owner i).value.1 ++ (x.readFrom p owner i).value.2.names ⊆
      owner.names ++ indexNames i := by
  rw [readFrom]
  split
  · simp [names_checkId, names_indexed, names_stored]
  · have field := names_memberAccess p owner
    simpa [names_indexed] using subset_append_of_subset_left _ field

theorem names_writeTo (p : Property) (owner value : Expr) (i : Option Expr) :
    stepNames (x.writeTo p owner i value).value ⊆ owner.names ++ indexNames i ++ value.names := by
  rw [writeTo]
  split
  · cases i with
    | some i => simp [names_checkId, names_stored, indexNames]
    | none => simp [names_checkId, names_lookupArgs, indexNames]
  · have field := names_memberAccess p owner
    simp only [Emit.value_bind, Emit.value_pure, stepNames_cons, Step.names_assign, stepNames_nil,
      List.append_nil, names_indexed]
    exact append_subset_append (append_subset_append field _) _

theorem pre_constant (native : String) (value : Value) (slot : String) :
    (x.constant native value slot).value.pre = [] := by
  fun_cases constant x native value slot <;> rfl

theorem bind_readVariable (v : Variable) (slot name : String) :
    (x.readVariable v slot).value.bind name =
      ((x.readVariable v slot).value.pre, (x.readVariable v slot).value.expr) := by
  rw [Emission.bind, post_readVariable]
  rfl

/-- Reading a variable mentions nothing but agents. -/
theorem outside_readVariable : ∀ (v : Variable) (slot : String),
    ∀ y ∈ stepNames (x.readVariable v slot).value.pre ++ (x.readVariable v slot).value.expr.names,
      Outside slot y
  | .const native value, slot, y, hy => by
      have known := (x.tidy_constant native value slot fun _ => False).reach
      rw [readVariable, pre_constant] at hy
      rw [pre_constant, introduced_nil, List.append_nil] at known
      exact .inl (known (by simpa using hy))
  | .property p, slot, y, hy => by
      have owner := x.outside_ownerOf p slot
      have read := x.names_readFrom p (x.ownerOf p slot).value.2 none
      simp only [readVariable, Emit.value_bind, Emit.value_pure, stepNames_append, List.append_assoc] at hy
      rcases mem_append.mp hy with hy | hy
      · exact owner y (mem_append_left _ hy)
      · exact owner y (mem_append_right _ (by simpa [indexNames] using read hy))
  | .element p index, slot, y, hy => by
      have owner := x.outside_ownerOf p slot
      have place := outside_readVariable index (indexSlot slot)
      have inner {y : String} (h : Outside (indexSlot slot) y) : Outside slot y := h.of_append (by decide)
      simp only [readVariable, Emit.value_bind, Emit.value_pure, bind_readVariable, stepNames_append,
        List.append_assoc] at hy
      rcases mem_append.mp hy with hy | hy
      · exact owner y (mem_append_left _ hy)
      rcases mem_append.mp hy with hy | hy
      · exact inner (place y (mem_append_left _ hy))
      · rcases mem_append.mp (x.names_readFrom p _ _ hy) with hy | hy
        · exact owner y (mem_append_right _ hy)
        · exact inner (place y (mem_append_right _ hy))

/-- Writing a variable mentions nothing but the value and agents. -/
theorem outside_writeVariable (v : Variable) (value : Expr) (slot : String) :
    ∀ y ∈ stepNames (x.writeVariable v value slot).value, y ∈ value.names ∨ Outside slot y := by
  intro y hy
  cases v with
  | const native constant => cases hy
  | property p =>
    have owner := x.outside_ownerOf p slot
    simp only [writeVariable, Emit.value_bind, Emit.value_pure, stepNames_append] at hy
    rcases mem_append.mp hy with hy | hy
    · exact .inr (owner y (mem_append_left _ hy))
    · have written := x.names_writeTo p _ _ _ hy
      simp only [indexNames, Option.elim, List.append_nil] at written
      rcases mem_append.mp written with hy | hy
      · exact .inr (owner y (mem_append_right _ hy))
      · exact .inl hy
  | element p index =>
    have owner := x.outside_ownerOf p slot
    have place := x.outside_readVariable index (indexSlot slot)
    have inner {y : String} (h : Outside (indexSlot slot) y) : Outside slot y := h.of_append (by decide)
    simp only [writeVariable, Emit.value_bind, Emit.value_pure, bind_readVariable, stepNames_append] at hy
    rcases mem_append.mp hy with hy | hy
    · rcases mem_append.mp hy with hy | hy
      · exact .inr (owner y (mem_append_left _ hy))
      · exact .inr (inner (place y (mem_append_left _ hy)))
    · rcases mem_append.mp (x.names_writeTo p _ _ _ hy) with hy | hy
      · rcases mem_append.mp hy with hy | hy
        · exact .inr (owner y (mem_append_right _ hy))
        · exact .inr (inner (place y (mem_append_right _ hy)))
      · exact .inl hy

/-! ### Names of a call -/

/-- The name comes from outside, or it is the slot or lies under it. -/
def Held (slot y : String) : Prop := Outside slot y ∨ Under slot y

theorem value_constArgument (native : String) (value : Value) (slot : String) :
    (x.constArgument p native value slot).value =
      if p.isByRef then
        { pre := [.define slot (x.capture native value slot).value], exprs := [.address slot] }
      else { exprs := [(x.capture native value slot).value] } := by
  rw [constArgument]
  cases p.isByRef <;> rfl

theorem held_constArgument (native : String) (value : Value) (slot : String) :
    ∀ y ∈ (x.constArgument p native value slot).value.names, Held slot y := by
  have object : Held slot "n" := .inl (.inl (by decide))
  have own : Held slot slot := .inr (.refl slot)
  rw [constArgument]
  split
  · simpa [Arguments.names, names_capture] using ⟨own, object, own⟩
  · simpa [Arguments.names, names_capture] using object

theorem value_variableArgument (v : Variable) (e : Emission) (slot : String) :
    (x.variableArgument p v e slot).value =
      if p.isByRef then {
        pre := e.pre ++ [.define slot e.expr]
        exprs := [.address slot]
        post := if isWritable v then (x.writeVariable v (.name slot) (slot ++ "Out")).value else [] }
      else { pre := e.pre, exprs := [e.expr] } := by
  rw [variableArgument]
  cases p.isByRef <;> cases isWritable v <;> rfl

/-- An argument that is a variable mentions names from outside or under its slot. -/
theorem held_variableArgument (v : Variable) (slot : String) :
    ∀ y ∈ (x.variableArgument p v (x.readVariable v slot).value slot).value.names, Held slot y := by
  have read := x.outside_readVariable v slot
  have own : Held slot slot := .inr (.refl slot)
  have written : ∀ y ∈ stepNames (x.writeVariable v (.name slot) (slot ++ "Out")).value, Held slot y := by
    intro y hy
    rcases x.outside_writeVariable v _ _ y hy with h | h
    · obtain rfl := mem_singleton.mp h
      exact own
    · exact .inl (h.of_append (by decide))
  rw [value_variableArgument]
  intro y hy
  split at hy
  · simp only [Arguments.names, stepNames_append, stepNames_cons, Step.names_define, stepNames_nil,
      Expr.allNames, Expr.names, mem_append, mem_cons, not_mem_nil, or_false] at hy
    rcases hy with ((hy | rfl | hy) | rfl) | hy
    · exact .inl (read y (mem_append_left _ hy))
    · exact own
    · exact .inl (read y (mem_append_right _ hy))
    · exact own
    · split at hy
      · exact written y hy
      · cases hy
  · exact .inl (read y (by simpa [Arguments.names] using hy))

theorem callArgument_eq (e : Emission) (slot : String) : callArgument p e slot =
    if p.isByRef then { pre := e.pre ++ [.define slot e.expr] ++ e.post, exprs := [.address slot] }
    else { pre := (e.bind slot).1, exprs := [(e.bind slot).2] } := rfl

theorem names_callArgument (e : Emission) (slot : String) :
    (callArgument p e slot).names ⊆ slot :: e.names := by
  intro y hy
  rw [callArgument_eq, Emission.bind] at hy
  split_ifs at hy <;> simp [Arguments.names, Emission.names] at hy ⊢ <;> tauto

/-- What a bound parameter adds to a call belongs to its slot, if a nested call does. -/
theorem held_givenArgument (o : Operand) (nested : ∀ y ∈ (x.operand o slot).value.names, Held slot y) :
    ∀ y ∈ (x.givenArgument p o slot).value.names, Held slot y := by
  fun_cases givenArgument x p o slot with
  | case1 native value => exact x.held_constArgument p native value slot
  | case2 v => exact x.held_variableArgument p v slot
  | case3 =>
    intro y hy
    rcases mem_cons.mp (names_callArgument p _ slot hy) with rfl | hy
    · exact .inr (.refl y)
    · exact nested y hy

theorem held_argumentAt (slot : String) (b : Binding)
    (nested : ∀ o, b.1.2 = some o → ∀ s, ∀ y ∈ (x.operand o s).value.names, Held s y) :
    ∀ y ∈ (x.argumentAt slot b).names, Outside slot y ∨ Under (slot ++ argument b.2) y := by
  obtain ⟨⟨p, o⟩, i⟩ := b
  cases o with
  | none =>
    have none := x.names_defaultLiteral p.type
    simp [argumentAt, unboundArgument, Arguments.names, none]
  | some o =>
    intro y hy
    have held := x.held_givenArgument p o (nested o rfl (argSlot slot i)) y hy
    rw [argSlot_eq] at held
    exact held.imp (Outside.of_append (underscores_argument i)) id

theorem outside_callee (m : Method) (slot : String) :
    ∀ y ∈ stepNames (x.callee m slot).1 ++ (x.callee m slot).2.names, Outside slot y := by
  rw [callee]
  split
  · simpa using outside_receiver m.className slot
  · exact x.outside_namedAgent _ _ slot

theorem mem_names_append {a b : Arguments} :
    y ∈ (a.append b).names ↔ y ∈ a.names ∨ y ∈ b.names := by
  simp [Arguments.append, Arguments.names]
  tauto

theorem mem_names_argumentsAt : ∀ {bs : List Binding},
    y ∈ (x.argumentsAt slot bs).names → ∃ b ∈ bs, y ∈ (x.argumentAt slot b).names
  | b :: bs, h => by
      rw [argumentsAt, map_cons, Arguments.concat, mem_names_append] at h
      rcases h with h | h
      · exact ⟨b, mem_cons_self, h⟩
      · obtain ⟨b', hb', h'⟩ := mem_names_argumentsAt h
        exact ⟨b', mem_cons_of_mem _ hb', h'⟩

theorem held_callMethod (c : Call) (slot : String) (nested : ∀ b ∈ Call.bindings c, ∀ o, b.1.2 = some o →
      ∀ s, ∀ y ∈ (x.operand o s).value.names, Held s y) :
    ∀ y ∈ (x.callMethod c slot).value.names, Outside slot y ∨ ∃ i, Under (slot ++ argument i) y := by
  intro y hy
  have parts : y ∈ stepNames (x.callee c.1 slot).1 ++ (x.callee c.1 slot).2.names ∨
      y ∈ (x.argumentsAt slot (Call.bindings c)).names := by
    simp only [value_callMethod, Emission.names, Arguments.names, stepNames_append, Expr.names,
      mem_append] at hy ⊢
    tauto
  rcases parts with hy | hy
  · exact .inl (x.outside_callee c.1 slot y hy)
  · obtain ⟨b, hb, hy⟩ := x.mem_names_argumentsAt hy
    exact (x.held_argumentAt slot b (nested b hb) y hy).imp id fun h => ⟨b.2, h⟩

/-- An operand mentions no variables but those from outside and those under its slot. -/
theorem held_operand (o : Operand) : ∀ slot, ∀ y ∈ (x.operand o slot).value.names, Held slot y := by
  induction o using Operand.nested_induction with
  | var v =>
    intro slot y hy
    have read := x.outside_readVariable v slot
    rw [operand, Emission.names, post_readVariable] at hy
    exact .inl (read y (by simpa using hy))
  | call m args ih =>
    intro slot y hy
    have bound : ∀ b ∈ Call.bindings (m, args), ∀ o, b.1.2 = some o →
        ∀ s, ∀ y ∈ (x.operand o s).value.names, Held s y := by
      rintro ⟨⟨p, o'⟩, i⟩ hb o rfl
      exact ih o (mem_of_getElem? (Option.join_eq_some_iff.mp (Call.mem_bindings.mp hb).2))
    rcases x.held_callMethod (m, args) slot bound y hy with h | ⟨i, h⟩
    · exact .inl h
    · exact .inr ((under_append (turns_argument i)).trans h)

/-! ### One argument among the others -/

/-- The name comes from outside or belongs to an argument of another number. -/
def Strange (slot : String) (i : Nat) (y : String) : Prop :=
  Outside slot y ∨ ∃ j, j ≠ i ∧ Under (slot ++ argument j) y

theorem not_strange (deep : Deeper slot y) (own : Under (slot ++ argument i) y) :
    ¬ Strange slot i y := by
  rintro (h | ⟨j, ne, h⟩)
  · exact deep.not_outside h
  · exact not_under_arguments ne h own

/-- A call seen from one of its arguments: what belongs to its agent and to the arguments before and after it
mentions strange names only. -/
structure Around (slot : String) (e : Emission) (i : Nat) (a : Arguments) (agent : List Step × Expr)
    (left right : Arguments) : Prop where
  pre_eq : e.pre = agent.1 ++ left.pre ++ a.pre ++ right.pre
  expr_eq : e.expr = .call agent.2 (left.exprs ++ a.exprs ++ right.exprs)
  post_eq : e.post = left.post ++ a.post ++ right.post
  strange : ∀ y ∈ stepNames agent.1 ++ agent.2.names ++ left.names ++ right.names, Strange slot i y

/-- Each argument of a call stands between the arguments before and after it. -/
theorem exists_around {c : Call} {b : Binding} (hb : b ∈ Call.bindings c) (slot : String) :
    ∃ agent left right, Around slot (x.callMethod c slot).value b.2
      (x.argumentAt slot b) agent left right := by
  obtain ⟨left, right, split, hl, hr⟩ := Call.bindings_split hb
  have whole : x.argumentsAt slot (Call.bindings c) =
      (x.argumentsAt slot left).append ((x.argumentAt slot b).append (x.argumentsAt slot right)) := by
    rw [split, argumentsAt, map_append, Arguments.concat_append]
    rfl
  have other : ∀ b', b'.2 ≠ b.2 → ∀ y ∈ (x.argumentAt slot b').names, Strange slot b.2 y := by
    intro b' ne y hy
    have held := x.held_argumentAt slot b' (fun o _ => x.held_operand o) y hy
    exact held.imp id fun h => ⟨b'.2, ne, h⟩
  have callee := x.outside_callee c.1 slot
  refine ⟨x.callee c.1 slot, x.argumentsAt slot left, x.argumentsAt slot right, ?_, ?_, ?_, ?_⟩
  · simp [value_callMethod, whole, Arguments.append]
  · simp [value_callMethod, whole, Arguments.append]
  · simp [value_callMethod, whole, Arguments.append]
  · rw [forall_mem_append, forall_mem_append]
    refine ⟨⟨fun y hy => .inl (callee y hy), ?_⟩, ?_⟩
    · intro y hy
      obtain ⟨b', hb', hy⟩ := x.mem_names_argumentsAt hy
      exact other b' (hl b' hb') y hy
    · intro y hy
      obtain ⟨b', hb', hy⟩ := x.mem_names_argumentsAt hy
      exact other b' (hr b' hb') y hy

/-- A variable of one argument is mentioned by no other. -/
theorem Around.notMem {e : Emission} {a left right : Arguments}
    {agent : List Step × Expr} (h : Around slot e i a agent left right) (own : ¬ Strange slot i y) :
    y ∉ stepNames (agent.1 ++ left.pre) ∧ y ∉ stepNames right.pre ∧
      (y ∈ e.expr.names → y ∈ Expr.allNames a.exprs) ∧ (y ∈ stepNames e.post → y ∈ stepNames a.post) := by
  have absent : y ∉ stepNames agent.1 ++ agent.2.names ++ left.names ++ right.names :=
    fun hy => own (h.strange y hy)
  rw [h.expr_eq, h.post_eq]
  simp only [Arguments.names, mem_append, stepNames_append, Expr.names, Expr.allNames_append, not_or] at *
  tauto

end Context

end GoTrees
