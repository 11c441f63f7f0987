import GoTrees.Proofs.Mentions

/-!
# Arguments by reference

A call passes an argument by reference through a temporary: the steps before it bind the temporary to the
value of the argument, the call takes its address, and the steps after it write it back, if there is a place
to write to. A call that is itself an argument is settled, with its own write-backs, before the call around
it is made.
-/

namespace GoTrees

open Go Slot List

variable (slot : String) {c inner : Call} {s : String} {p : Param}

namespace Context

variable (x : Context)

/-! ### Values and write-backs -/

/-- The values that steps bind a variable to. -/
def definitions (y : String) (ss : List Step) : List Expr :=
  ss.filterMap fun
    | .define z e => if z = y then some e else none
    | _ => none

theorem definitions_append (y : String) (as bs : List Step) :
    definitions y (as ++ bs) = definitions y as ++ definitions y bs := filterMap_append

theorem definitions_define (y : String) (e : Expr) : definitions y [.define y e] = [e] := by
  simp [definitions]

/-- A variable that does not occur is not bound. -/
theorem definitions_eq_nil {y : String} : ∀ {ss : List Step}, y ∉ stepNames ss → definitions y ss = []
  | [], _ => rfl
  | s :: ss, h => by
      rw [stepNames_cons, mem_append, not_or] at h
      have rest := definitions_eq_nil h.2
      rw [← singleton_append, definitions_append, rest, List.append_nil]
      cases s with
      | define z e =>
        have other : z ≠ y := by
          rintro rfl
          exact h.1 mem_cons_self
        simp [definitions, other]
      | _ => rfl

/-- The value of an argument; a constant is captured in a field. -/
def argumentValue (o : Operand) (slot : String) : Expr :=
  match o with
  | .var (.const native value) => (x.capture native value slot).value
  | o => (x.operand o slot).value.expr

/-- The steps that write the temporary of an argument back to its variable: a parameter by reference that is
bound to a property which is not readonly has some, and no other has. -/
def writeBack (slot : String) : Binding → List Step
  | ((p, some (.var v)), i) =>
    if p.isByRef && v.property?.any fun q => !q.isReadonly then
      (x.writeVariable v (.name (argSlot slot i)) (argSlot slot i ++ "Out")).value
    else []
  | _ => []

theorem isWritable_eq (v : Variable) : isWritable v = v.property?.any fun q => !q.isReadonly := by
  rw [isWritable]
  cases v.property? <;> rfl

theorem post_variableArgument (p : Param) (v : Variable) (e : Emission) (slot : String) :
    (x.variableArgument p v e slot).value.post =
      if p.isByRef && v.property?.any fun q => !q.isReadonly then
        (x.writeVariable v (.name slot) (slot ++ "Out")).value
      else [] := by
  rw [value_variableArgument, isWritable_eq]
  cases p.isByRef <;> rfl

/-- A parameter adds its write-back to the steps after the call. -/
theorem post_argumentAt : ∀ b : Binding, (x.argumentAt slot b).post = x.writeBack slot b
  | ((p, none), i) => rfl
  | ((p, some (.var (.const native value))), i) => by
      have given := x.value_constArgument p native value (argSlot slot i)
      rw [argumentAt, givenArgument, given]
      cases byRef : p.isByRef <;> simp [writeBack, Variable.property?]
  | ((p, some (.var (.property q))), i) => x.post_variableArgument p (.property q) _ _
  | ((p, some (.var (.element q index))), i) => x.post_variableArgument p (.element q index) _ _
  | ((p, some (.call m args)), i) => by
      rw [argumentAt, givenArgument, Emit.value_bind, Emit.value_pure, callArgument_eq]
      cases p.isByRef <;> rfl

/-- Does the step store a value? Stores keyed by names are written through their setters. -/
def storing : Step → Bool
  | .assign .. => true
  | .eval (.call (.select _ method) _) => method == "SetLocal" || method == "SetVariable"
  | _ => false

inductive Stores (value : Expr) (slot : String) : Variable → Step → Prop
  | field {p : Property} (early : p.isLateBound = false) : Stores value slot (.property p)
      (.assign (memberAccess p (x.ownerOf p slot).value.2).value value)
  | item {p : Property} {index : Variable} (early : p.isLateBound = false) :
      Stores value slot (.element p index)
        (.assign (.index (memberAccess p (x.ownerOf p slot).value.2).value
          (x.readVariable index (indexSlot slot)).value.expr) value)
  | keyed {p : Property} (late : p.isLateBound = true) : Stores value slot (.property p)
      (.eval (.call (.select (x.ownerOf p slot).value.2 (setter p)) (lookupArgs p ++ [value])))
  | keyedItem {p : Property} {index : Variable} (late : p.isLateBound = true) :
      Stores value slot (.element p index)
        (.assign (.index (stored p (x.ownerOf p slot).value.2 ("[]" ++ (x.goType p.type).value))
          (x.readVariable index (indexSlot slot)).value.expr) value)

theorem storing_ownerOf (p : Property) (slot : String) :
    ∀ s ∈ (x.ownerOf p slot).value.1, storing s = false := by
  rw [ownerOf]
  split
  · exact forall_mem_nil _
  · rw [namedAgent]
    split <;> simp [storing]

theorem storing_readFrom (p : Property) (owner : Expr) (i : Option Expr) :
    ∀ s ∈ (x.readFrom p owner i).value.1, storing s = false := by
  rw [readFrom]
  split <;> simp [storing, checkId]

theorem storing_readVariable : ∀ (v : Variable) (slot : String),
    ∀ s ∈ (x.readVariable v slot).value.pre, storing s = false
  | .const native value, slot => by
      rw [readVariable, pre_constant]
      exact forall_mem_nil _
  | .property p, slot => by
      simp only [readVariable, Emit.value_bind, Emit.value_pure, forall_mem_append]
      exact ⟨x.storing_ownerOf p slot, x.storing_readFrom p _ _⟩
  | .element p index, slot => by
      simp only [readVariable, Emit.value_bind, Emit.value_pure, bind_readVariable, forall_mem_append]
      exact ⟨⟨x.storing_ownerOf p slot, storing_readVariable index _⟩, x.storing_readFrom p _ _⟩

/-- The last step stores the value in the variable, and no other step stores anything. -/
def WritesBack (value : Expr) (slot : String) (v : Variable) (steps : List Step) : Prop :=
  ∃ setup store, steps = setup ++ [store] ∧ (∀ s ∈ setup, storing s = false) ∧ x.Stores value slot v store

theorem writesBack_writeTo {p : Property} {owner value : Expr} {i : Option Expr} {slot : String}
    {v : Variable} {setup : List Step} (silent : ∀ s ∈ setup, storing s = false)
    (early : p.isLateBound = false → x.Stores value slot v
      (.assign (indexed (memberAccess p owner).value i) value))
    (late : p.isLateBound = true → i = none → x.Stores value slot v
      (.eval (.call (.select owner (setter p)) (lookupArgs p ++ [value]))))
    (lateItem : ∀ e, p.isLateBound = true → i = some e → x.Stores value slot v
      (.assign (.index (stored p owner ("[]" ++ (x.goType p.type).value)) e) value)) :
    x.WritesBack value slot v (setup ++ (x.writeTo p owner i value).value) := by
  have checked : ∀ s ∈ setup ++ [(checkId p).value], storing s = false := by
    simpa [or_imp, forall_and] using ⟨silent, rfl⟩
  rw [writeTo]
  split
  · next bound =>
    cases i with
    | none =>
      exact ⟨setup ++ [(checkId p).value], _, by simp, checked, late bound rfl⟩
    | some e =>
      exact ⟨setup ++ [(checkId p).value], _, by simp, checked, lateItem e bound rfl⟩
  · next bound => exact ⟨setup, _, rfl, silent, early (by simpa using bound)⟩

/-- Storing in a variable takes one step that stores, the last one. -/
theorem writesBack_writeVariable {v : Variable} (place : v.property?.isSome) (value : Expr) (slot : String) :
    x.WritesBack value slot v (x.writeVariable v value slot).value := by
  cases v with
  | const native constant => cases place
  | property p =>
    have owner := x.storing_ownerOf p slot
    rw [writeVariable]
    exact x.writesBack_writeTo owner .field (fun h _ => .keyed h) fun _ _ h => by cases h
  | element p index =>
    have owner := x.storing_ownerOf p slot
    have read := x.storing_readVariable index (indexSlot slot)
    simp only [writeVariable, Emit.value_bind, Emit.value_pure, bind_readVariable]
    refine x.writesBack_writeTo ?_ .item (fun _ h => by cases h) ?_
    · rw [forall_mem_append]
      exact ⟨owner, read⟩
    · rintro e h ⟨rfl⟩
      exact .keyedItem h

/-! ### Calls as arguments -/

/-- The first call, at its slot, is an argument of the second one at its slot, or an argument of such an
argument, and so on. -/
inductive Nested : Call → String → Call → String → Prop
  | argument {c inner : Call} {slot : String} {p : Param} {i : Nat}
      (bound : ((p, some (.call inner.1 inner.2)), i) ∈ Call.bindings c) :
      Nested inner (argSlot slot i) c slot
  | deeper {c middle inner : Call} {slot s : String} {p : Param} {i : Nat}
      (bound : ((p, some (.call middle.1 middle.2)), i) ∈ Call.bindings c)
      (rest : Nested inner s middle (argSlot slot i)) : Nested inner s c slot

theorem Nested.slot_deeper {slot : String} (h : Nested inner s c slot) :
    Deeper slot s := by
  induction h with
  | argument bound => exact argSlot_eq _ _ ▸ .argument _ _
  | deeper bound rest ih => exact .nested (argSlot_eq _ _ ▸ ih)

/-- The inner call is settled before the outer one: its steps, the binding of its value to the slot and its
write-backs stand together. The value is not used before, it is bound once, and what the inner call passes by
reference occurs nowhere else. -/
def Settled (inner : Emission) (s : String) (outer : Emission) : Prop :=
  ∃ before after, outer.pre = before ++ (inner.pre ++ [.define s inner.expr] ++ inner.post) ++ after ∧
    s ∉ stepNames before ++ inner.names ∧ s ∉ introduced after ++ introduced outer.post ∧
    ∀ i, argSlot s i ∉ stepNames before ++ stepNames after ++ outer.expr.names ++ stepNames outer.post

theorem argumentAt_call (p : Param) (c : Call) (i : Nat) :
    x.argumentAt slot ((p, some (.call c.1 c.2)), i) =
      callArgument p (x.callMethod c (argSlot slot i)).value (argSlot slot i) := rfl

theorem callArgument_of_post {e : Emission} (writes : e.post ≠ []) (p : Param) (slot : String) :
    (callArgument p e slot).pre = e.pre ++ [.define slot e.expr] ++ e.post ∧
      Expr.allNames (callArgument p e slot).exprs = [slot] ∧ (callArgument p e slot).post = [] := by
  have bound : e.bind slot = (e.pre ++ [.define slot e.expr] ++ e.post, .name slot) := by
    rw [Emission.bind, if_neg (by simpa using writes)]
  rw [callArgument_eq, bound]
  cases p.isByRef <;> exact ⟨rfl, rfl, rfl⟩

theorem callArgument_pre (p : Param) (e : Emission) (slot : String) :
    ∃ rest, (callArgument p e slot).pre = e.pre ++ rest ∧
      stepNames rest ⊆ slot :: e.expr.names ++ stepNames e.post ∧
      introduced rest ⊆ slot :: introduced e.post ∧
      Expr.allNames (callArgument p e slot).exprs ⊆ slot :: e.expr.names ∧
      (callArgument p e slot).post = [] := by
  rw [callArgument_eq, Emission.bind]
  split_ifs
  · exact ⟨[.define slot e.expr] ++ e.post, by simp, by simp, by simp [Step.introduced], by simp, rfl⟩
  · exact ⟨[], by simp, by simp, by simp, by simp, rfl⟩
  · exact ⟨[.define slot e.expr] ++ e.post, by simp, by simp, by simp [Step.introduced], by simp, rfl⟩

theorem not_outside_argument (i : Nat) :
    ¬ Outside (argSlot slot i) (argSlot slot i) := by
  rw [argSlot_eq]
  exact fun h => (Deeper.argument slot i).not_outside (h.of_append (underscores_argument i))

theorem slot_notMem_names (c : Call) (slot : String) (i : Nat) :
    argSlot slot i ∉ (x.callMethod c (argSlot slot i)).value.names := by
  intro h
  rcases x.held_callMethod c _ (fun _ _ o _ => x.held_operand o) _ h with h | ⟨j, h⟩
  · exact not_outside_argument slot i h
  · exact not_under_append (argument_ne j) h

/-- A nested call is settled before the call it is an argument of. -/
theorem settled_argument {slot : String} {i : Nat}
    (bound : ((p, some (.call inner.1 inner.2)), i) ∈ Call.bindings c)
    (writes : (x.callMethod inner (argSlot slot i)).value.post ≠ []) :
    Settled (x.callMethod inner (argSlot slot i)).value (argSlot slot i) (x.callMethod c slot).value := by
  obtain ⟨agent, left, right, around⟩ := x.exists_around bound slot
  rw [argumentAt_call] at around
  obtain ⟨pre, exprs, post⟩ := callArgument_of_post writes p (argSlot slot i)
  have own : ¬ Strange slot i (argSlot slot i) := by
    rw [argSlot_eq]
    exact not_strange (.argument slot i) (.refl _)
  have absent := around.notMem own
  rw [post] at absent
  refine ⟨agent.1 ++ left.pre, right.pre, ?_, ?_, ?_, fun j => ?_⟩
  · rw [around.pre_eq, pre]
  · rw [mem_append, not_or]
    exact ⟨absent.1, x.slot_notMem_names inner slot i⟩
  · rw [mem_append, not_or]
    refine ⟨fun h => absent.2.1 (introduced_subset_stepNames _ h), fun h => ?_⟩
    cases absent.2.2.2 (introduced_subset_stepNames _ h)
  · have deep : Deeper (argSlot slot i) (argSlot (argSlot slot i) j) :=
      argSlot_eq _ j ▸ .argument _ j
    have other : ¬ Strange slot i (argSlot (argSlot slot i) j) := by
      rw [argSlot_eq slot] at deep ⊢
      exact not_strange (.nested deep) deep.under
    have far := around.notMem other
    rw [exprs, post] at far
    simp only [mem_append, not_or]
    refine ⟨⟨⟨far.1, far.2.1⟩, fun h => ?_⟩, fun h => ?_⟩
    · exact deep.ne (mem_singleton.mp (far.2.2.1 h))
    · cases far.2.2.2 h

/-- What is settled within an argument is settled within the call. -/
theorem settled_deeper {middle : Call} {inner : Emission} {slot : String} {i : Nat}
    (bound : ((p, some (.call middle.1 middle.2)), i) ∈ Call.bindings c) (deep : Deeper (argSlot slot i) s)
    (settled : Settled inner s (x.callMethod middle (argSlot slot i)).value) :
    Settled inner s (x.callMethod c slot).value := by
  obtain ⟨agent, left, right, around⟩ := x.exists_around bound slot
  rw [argumentAt_call] at around
  obtain ⟨before, after, pre, unused, once, alone⟩ := settled
  obtain ⟨rest, argPre, restNames, restNew, exprs, post⟩ :=
    callArgument_pre p (x.callMethod middle (argSlot slot i)).value (argSlot slot i)
  have own {y : String} (h : Deeper (argSlot slot i) y) : ¬ Strange slot i y := by
    rw [argSlot_eq] at h
    exact not_strange (.nested h) h.under
  have absent := around.notMem (own deep)
  rw [post] at absent
  refine ⟨agent.1 ++ left.pre ++ before, after ++ rest ++ right.pre, ?_, ?_, ?_, fun j => ?_⟩
  · rw [around.pre_eq, argPre, pre]
    simp only [List.append_assoc]
  · rw [mem_append, not_or] at unused
    rw [stepNames_append, mem_append, mem_append, not_or, not_or]
    exact ⟨⟨absent.1, unused.1⟩, unused.2⟩
  · rw [mem_append, not_or] at once
    have behind : s ∉ introduced rest := fun h =>
      (mem_cons.mp (restNew h)).elim deep.ne once.2
    have later : s ∉ introduced right.pre := fun h => absent.2.1 (introduced_subset_stepNames _ h)
    have last : s ∉ introduced (x.callMethod c slot).value.post := fun h => by
      cases absent.2.2.2 (introduced_subset_stepNames _ h)
    simp only [introduced_append, mem_append, not_or]
    exact ⟨⟨⟨once.1, behind⟩, later⟩, last⟩
  · have farther : Deeper (argSlot slot i) (argSlot s j) := argSlot_eq s j ▸ deep.push j
    have far := around.notMem (own farther)
    have inMiddle := alone j
    simp only [mem_append, not_or] at inMiddle
    obtain ⟨⟨⟨inBefore, inAfter⟩, inExpr⟩, inPost⟩ := inMiddle
    have behind : argSlot s j ∉ stepNames rest := fun h => by
      rcases mem_append.mp (restNames h) with h | h
      · exact (mem_cons.mp h).elim farther.ne inExpr
      · exact inPost h
    rw [post] at far
    simp only [stepNames_append, mem_append, not_or] at far ⊢
    refine ⟨⟨⟨⟨far.1, inBefore⟩, ⟨inAfter, behind⟩, far.2.1⟩, fun h => ?_⟩, fun h => ?_⟩
    · exact (mem_cons.mp (exprs (far.2.2.1 h))).elim farther.ne inExpr
    · cases far.2.2.2 h

/-- Calls at any depth are settled before the call they are nested in. -/
theorem settled_of_nested {slot : String} (h : Nested inner s c slot)
    (writes : (x.callMethod inner s).value.post ≠ []) :
    Settled (x.callMethod inner s).value s (x.callMethod c slot).value := by
  induction h with
  | argument bound => exact x.settled_argument bound writes
  | deeper bound rest ih => exact x.settled_deeper bound rest.slot_deeper (ih writes)

/-! ### The protocol -/

/-- The expression that a parameter adds to a call. -/
def argumentExpr (slot : String) (b : Binding) : Expr := (x.argumentAt slot b).exprs.headD .nil

theorem ne_address_of_names {e : Expr} {y : String} (h : y ∉ e.names) : e ≠ .address y := by
  rintro rfl
  exact h mem_cons_self

/-- An argument is the address of its slot exactly if it is passed by reference. -/
theorem exprs_givenArgument (p : Param) (o : Operand) (slot : String) (i : Nat) : ∃ e,
    (x.givenArgument p o (argSlot slot i)).value.exprs = [e] ∧
      (e = .address (argSlot slot i) ↔ p.isByRef = true) := by
  have strange := not_outside_argument slot i
  fun_cases givenArgument x p o (argSlot slot i) with
  | case1 native value =>
    rw [value_constArgument]
    cases p.isByRef
    · exact ⟨_, rfl, by simp [capture]⟩
    · exact ⟨_, rfl, by simp⟩
  | case2 v =>
    have read := x.outside_readVariable v (argSlot slot i)
    have other : (x.readVariable v (argSlot slot i)).value.expr ≠ .address (argSlot slot i) :=
      ne_address_of_names fun h => strange (read _ (mem_append_right _ h))
    rw [Emit.value_bind, value_variableArgument]
    cases p.isByRef
    · exact ⟨_, rfl, by simpa using other⟩
    · exact ⟨_, rfl, by simp⟩
  | case3 m args =>
    rw [Emit.value_bind, Emit.value_pure, callArgument_eq]
    cases p.isByRef
    · refine ⟨_, rfl, ?_⟩
      have called : (x.operand (.call m args) (argSlot slot i)).value.expr ≠ .address (argSlot slot i) :=
        fun h =>
          Expr.noConfusion
          ((congrArg Emission.expr (x.value_callMethod (m, args) (argSlot slot i))).symm.trans h)
      rw [Emission.bind]
      split <;> simp [called]
    · exact ⟨_, rfl, by simp⟩

/-- A parameter adds one expression to a call, which is the address of its temporary exactly if it is bound
and by reference. -/
theorem exprs_argumentAt (b : Binding) :
    (x.argumentAt slot b).exprs = [x.argumentExpr slot b] ∧
      (x.argumentExpr slot b = .address (argSlot slot b.2) ↔ b.1.1.isByRef = true ∧ b.1.2.isSome = true) := by
  obtain ⟨⟨p, o⟩, i⟩ := b
  cases o with
  | none =>
    have none := x.names_defaultLiteral p.type
    refine ⟨rfl, ?_⟩
    have literal : x.argumentExpr slot ((p, Option.none), i) ≠ .address (argSlot slot i) :=
      ne_address_of_names (by simp [argumentExpr, argumentAt, unboundArgument, none])
    simp [literal]
  | some o =>
    obtain ⟨e, exprs, address⟩ := x.exprs_givenArgument p o slot i
    rw [argumentExpr, argumentAt, exprs]
    simpa using address

theorem exprs_argumentsAt (bs : List Binding) :
    (x.argumentsAt slot bs).exprs = bs.map (x.argumentExpr slot) := by
  rw [argumentsAt, Arguments.exprs_concat, flatMap_map, ← flatMap_pure_eq_map]
  exact flatMap_congr fun b _ => (x.exprs_argumentAt slot b).1

theorem post_argumentsAt (bs : List Binding) :
    (x.argumentsAt slot bs).post = bs.flatMap (x.writeBack slot) := by
  rw [argumentsAt, Arguments.post_concat, flatMap_map]
  exact flatMap_congr fun b _ => x.post_argumentAt slot b

/-- The slot of an argument by reference is defined once, as its value. -/
theorem definitions_givenArgument (byRef : p.isByRef = true) (o : Operand) (slot : String)
    (i : Nat) : definitions (argSlot slot i) (x.givenArgument p o (argSlot slot i)).value.pre =
      [x.argumentValue o (argSlot slot i)] := by
  have strange := not_outside_argument slot i
  fun_cases givenArgument x p o (argSlot slot i) with
  | case1 native value =>
    rw [value_constArgument, if_pos byRef]
    exact definitions_define _ _
  | case2 v notConst =>
    have read := x.outside_readVariable v (argSlot slot i)
    have unread : argSlot slot i ∉ stepNames (x.readVariable v (argSlot slot i)).value.pre :=
      fun h => strange (read _ (mem_append_left _ h))
    rw [Emit.value_bind, value_variableArgument, if_pos byRef, definitions_append, definitions_define,
      definitions_eq_nil unread]
    cases v with
    | const native value => exact absurd rfl (notConst native value)
    | property q => rfl
    | element q index => rfl
  | case3 m args =>
    have absent : argSlot slot i ∉ (x.operand (.call m args) (argSlot slot i)).value.names :=
      x.slot_notMem_names (m, args) slot i
    simp only [Emission.names, mem_append, not_or] at absent
    obtain ⟨⟨before, -⟩, after⟩ := absent
    rw [Emit.value_bind, Emit.value_pure, callArgument_eq, if_pos byRef, definitions_append,
      definitions_append, definitions_define, definitions_eq_nil before, definitions_eq_nil after]
    rfl

/-- How a call at a slot passes its arguments by reference. -/
structure TwoPhase (c : Call) (slot : String) (e : Emission) : Prop where
  /-- The call takes the address of a temporary exactly for parameters by reference that are bound. -/
  addresses : ∃ target exprs, e.expr = .call target exprs ∧ exprs.length = c.1.params.length ∧
    ∀ b ∈ Call.bindings c, exprs[b.2]? = some (.address (argSlot slot b.2)) ↔
      b.1.1.isByRef = true ∧ b.1.2.isSome = true
  /-- Before the call, the temporary is bound once, to the value of the argument. -/
  initialised : ∀ p o i, ((p, some o), i) ∈ Call.bindings c → p.isByRef = true →
    definitions (argSlot slot i) e.pre = [x.argumentValue o (argSlot slot i)]
  /-- After the call there are the write-backs in the order of the parameters, and nothing else. -/
  writtenBack : e.post = (Call.bindings c).flatMap (x.writeBack slot)
  /-- A write-back stores the temporary in its own variable, once. -/
  stored : ∀ p v i q, ((p, some (.var v)), i) ∈ Call.bindings c → p.isByRef = true → v.property? = some q →
    q.isReadonly = false → x.WritesBack (.name (argSlot slot i)) (argSlot slot i ++ "Out") v
      (x.writeBack slot ((p, some (.var v)), i))
  /-- A call with write-backs is settled before the call that it is nested in, at any depth. -/
  settled : ∀ inner s, Nested inner s c slot → (x.callMethod inner s).value.post ≠ [] →
    Settled (x.callMethod inner s).value s e

/-- Every call passes its arguments by reference in two phases, whatever is nested in it. -/
theorem callMethod_twoPhase (x : Context) (c : Call) (slot : String) :
    x.TwoPhase c slot (x.callMethod c slot).value where
  addresses := by
    refine ⟨_, _, congrArg Emission.expr (x.value_callMethod c slot), ?_, ?_⟩
    · rw [exprs_argumentsAt, length_map, Call.bindings, length_zipIdx, length_bindings]
    · intro b hb
      have here : (Call.bindings c)[b.2]? = some b := by
        rw [Call.bindings, getElem?_zipIdx, mk_mem_zipIdx_iff_getElem?.mp hb, Option.map_some,
          Nat.zero_add]
      rw [exprs_argumentsAt, getElem?_map, here, Option.map_some, Option.some.injEq]
      exact (x.exprs_argumentAt slot b).2
  initialised := by
    intro p o i hb byRef
    obtain ⟨agent, left, right, around⟩ := x.exists_around hb slot
    have own : ¬ Strange slot i (argSlot slot i) := by
      rw [argSlot_eq]
      exact not_strange (.argument slot i) (.refl _)
    have absent := around.notMem own
    rw [around.pre_eq, definitions_append, definitions_append, definitions_eq_nil absent.1,
      definitions_eq_nil absent.2.1, List.nil_append, List.append_nil]
    exact x.definitions_givenArgument byRef o slot i
  writtenBack := (congrArg Emission.post (x.value_callMethod c slot)).trans (x.post_argumentsAt slot _)
  stored := by
    intro p v i q _ byRef place writable
    rw [writeBack, if_pos (by simp [byRef, place, writable])]
    exact x.writesBack_writeVariable (by simp [place]) _ _
  settled := fun inner s nested writes => x.settled_of_nested nested writes

end Context

end GoTrees
