import GoTrees.Proofs.Locations

/-!
# What arguments by reference do to the store

A call at a slot runs in three phases: the steps before it read each argument into its cell, the callee works
on the cells, and the steps after it write the cells back, in the order of the parameters. A write-back finds
the place of its variable anew, so it reaches the place that was read unless an earlier write-back of the call
has changed what the variable is found through:

    f(&a[i], &i)     a[i] is written before i, so both reach their places
    f(&i, &a[i])     i is written first, and then a at the new i
-/

namespace GoTrees

open Go Slot List

variable {b : Binding} {c : Call} {i : Nat}

/-- The variable of a parameter that is written back, with the number of the parameter. -/
def output? : Binding → Option (Variable × Nat)
  | ((p, some (.var v)), i) =>
    if p.isByRef && v.property?.any fun q => !q.isReadonly then some (v, i) else none
  | _ => none

/-- The variables that are written back after a call, in the order of the parameters. -/
def Call.outputs (c : Call) : List (Variable × Nat) := (Call.bindings c).filterMap output?

/-- An output is a variable that is passed by reference and can be written. -/
theorem output?_eq_some {o : Variable × Nat} (h : output? b = some o) :
    ∃ p, b = ((p, some (.var o.1)), o.2) ∧ p.isByRef = true ∧ o.1.isConst = false := by
  unfold output? at h
  split at h
  · next p v i =>
    split at h
    · next writable =>
      cases h
      rw [Bool.and_eq_true] at writable
      refine ⟨p, rfl, writable.1, ?_⟩
      cases v with
      | const native value => simp [Variable.property?] at writable
      | property q => rfl
      | element q index => rfl
    · cases h
  · cases h

theorem Call.mem_outputs {o : Variable × Nat} (h : o ∈ Call.outputs c) :
    ∃ p, ((p, some (.var o.1)), o.2) ∈ Call.bindings c ∧ p.isByRef = true ∧ o.1.isConst = false := by
  obtain ⟨b, hb, found⟩ := mem_filterMap.mp h
  obtain ⟨p, rfl, byRef, place⟩ := output?_eq_some found
  exact ⟨p, hb, byRef, place⟩

/-- Different outputs belong to different parameters. -/
theorem Call.pairwise_outputs (c : Call) : (Call.outputs c).Pairwise fun o o' => o.2 ≠ o'.2 := by
  have numbers : (Call.bindings c).Pairwise fun b b' => b.2 ≠ b'.2 := by
    rw [← pairwise_map (f := Prod.snd) (R := (· ≠ ·)), Call.bindings, zipIdx_map_snd]
    exact nodup_range'
  refine numbers.filterMap output? ?_
  intro b b' ne o ho o' ho'
  obtain ⟨p, rfl, -⟩ := output?_eq_some ho
  obtain ⟨p', rfl, -⟩ := output?_eq_some ho'
  exact ne

/-- The bindings around one of them: as many stand before it as its number says. -/
theorem Call.bindings_at (hb : b ∈ Call.bindings c) :
    ∃ front after, Call.bindings c = front ++ b :: after ∧ front = (Call.bindings c).take b.2 ∧
      front.length = b.2 ∧ (∀ b' ∈ front, b'.2 ≠ b.2) ∧ ∀ b' ∈ after, b'.2 ≠ b.2 := by
  obtain ⟨front, after, split, hf, ha⟩ := Call.bindings_split hb
  have length : front.length = b.2 := by
    have here : (Call.bindings c)[front.length]? = some b := by simp [split]
    rw [Call.bindings, getElem?_zipIdx] at here
    obtain ⟨_, _, rfl⟩ := Option.map_eq_some_iff.mp here
    simp
  exact ⟨front, after, split, by rw [split, ← length, take_left], length, hf, ha⟩

namespace Context

variable (x : Context)

/-- The steps that write an output back. -/
def storeOutput (slot : String) (o : Variable × Nat) : List Step :=
  (x.writeVariable o.1 (.name (argSlot slot o.2)) (argSlot slot o.2 ++ "Out")).value

theorem writeBack_eq (slot : String) (b : Binding) :
    x.writeBack slot b = (output? b).toList.flatMap (x.storeOutput slot) := by
  obtain ⟨⟨p, o⟩, i⟩ := b
  cases o with
  | none => rfl
  | some o =>
    cases o with
    | call m args => rfl
    | var v =>
      simp only [writeBack, output?]
      split <;> simp [storeOutput]

/-- After a call its outputs are written back, one after the other. -/
theorem post_callMethod (c : Call) (slot : String) :
    (x.callMethod c slot).value.post = (Call.outputs c).flatMap (x.storeOutput slot) := by
  have post := (congrArg Emission.post (x.value_callMethod c slot)).trans (x.post_argumentsAt slot _)
  rw [post, Call.outputs]
  induction Call.bindings c with
  | nil => rfl
  | cons b bs ih =>
    rw [flatMap_cons, ih, writeBack_eq, filterMap_cons]
    cases output? b <;> simp

/-! ### Before the call -/

/-- The steps of a call before those of the argument with a number. -/
def before (c : Call) (slot : String) (i : Nat) : List Step :=
  (x.callee c.1 slot).1 ++ (x.argumentsAt slot ((Call.bindings c).take i)).pre

theorem strange_argumentAt (slot : String) (ne : b.2 ≠ i) :
    ∀ y ∈ (x.argumentAt slot b).names, Strange slot i y := by
  intro y hy
  have held := x.held_argumentAt slot b (fun o _ => x.held_operand o) y hy
  exact held.imp id fun h => ⟨b.2, ne, h⟩

theorem cell_not_strange (slot : String) (i : Nat) : ¬ Strange slot i (argSlot slot i) := by
  rw [argSlot_eq]
  exact not_strange (.argument slot i) (.refl _)

theorem cell_notMem_argumentsAt (slot : String) {bs : List Binding} (others : ∀ b ∈ bs, b.2 ≠ i) :
    argSlot slot i ∉ (x.argumentsAt slot bs).names := by
  intro named
  obtain ⟨b, hb, hy⟩ := x.mem_names_argumentsAt named
  exact cell_not_strange slot i (x.strange_argumentAt slot (others b hb) _ hy)

/-- What is prepared after an argument leaves its cell alone. -/
theorem pre_split (hb : b ∈ Call.bindings c) (slot : String) :
    ∃ rest, (x.callMethod c slot).value.pre = x.before c slot b.2 ++ (x.argumentAt slot b).pre ++ rest ∧
      argSlot slot b.2 ∉ stepNames rest := by
  obtain ⟨front, after, split, taken, -, -, others⟩ := Call.bindings_at hb
  have parts : (x.argumentsAt slot (Call.bindings c)).pre = (x.argumentsAt slot front).pre
      ++ ((x.argumentAt slot b).pre ++ (x.argumentsAt slot after).pre) := by
    rw [split, argumentsAt, map_append, Arguments.concat_append]
    rfl
  refine ⟨(x.argumentsAt slot after).pre, ?_, fun mem => ?_⟩
  · rw [value_callMethod, before, parts, ← taken]
    simp only [List.append_assoc]
  · exact x.cell_notMem_argumentsAt slot others (by simp [Arguments.names, mem])

theorem pre_argumentAt_variable (slot : String) {p : Param} (byRef : p.isByRef = true) {v : Variable}
    (place : v.isConst = false) : (x.argumentAt slot ((p, some (.var v)), i)).pre =
      (x.readVariable v (argSlot slot i)).value.pre
        ++ [.define (argSlot slot i) (x.readVariable v (argSlot slot i)).value.expr] := by
  have given : x.argumentAt slot ((p, some (.var v)), i) =
      (x.variableArgument p v (x.readVariable v (argSlot slot i)).value (argSlot slot i)).value := by
    cases v with
    | const native value => cases place
    | property q => rfl
    | element q index => rfl
  rw [given, value_variableArgument, if_pos byRef]

theorem cell_ne_parameter (slot : String) (i : Nat) : argSlot slot i ≠ "agent" ∧ argSlot slot i ≠ "n" := by
  have inside := not_outside_argument slot i
  constructor <;> intro same <;> exact inside (.inl (by simp [same, ambient]))

variable {x} {w : World} {c : Call} {slot : String} {m m₁ m₂ : Memory} {o : Variable × Nat} {l : Place}

/-- When the call is made, the cell of an output holds what was at its place. -/
theorem vars_cell (ho : o ∈ Call.outputs c) (pre : performAll w (x.callMethod c slot).value.pre m = some m₁)
    {mᵢ : Memory} (reached : performAll w (x.before c slot o.2) m = some mᵢ)
    (found : x.place? w mᵢ.store o.1 = some l) (held : (mᵢ.store l).isSome) :
    m₁.vars (argSlot slot o.2) = mᵢ.store l := by
  obtain ⟨p, hb, byRef, place⟩ := Call.mem_outputs ho
  obtain ⟨u, hu⟩ := Option.isSome_iff_exists.mp held
  obtain ⟨m', read⟩ := fetched_readVariable ((x.valueOf?_of_place? w found).trans hu) (argSlot slot o.2)
  have bound : performAll w (x.argumentAt slot ((p, some (.var o.1)), o.2)).pre mᵢ =
      some (m'.bind (argSlot slot o.2) u) := by
    rw [x.pre_argumentAt_variable slot byRef place, performAll_append, read.runs]
    simp [performAll, Step.perform, cell_ne_parameter, read.value]
  obtain ⟨rest, split, absent⟩ := x.pre_split hb slot
  rw [split, performAll_append, performAll_append, reached, Option.bind_some, bound, Option.bind_some] at pre
  rw [(grown_performAll w pre).vars_eq _ absent, hu]
  exact m'.vars_bind_self _ u

/-! ### The call -/

theorem callee_eq (x : Context) (m : Method) (slot : String) :
    ∃ a, (x.callee m slot).2 = .select a (memberName m.name) := by
  rw [callee]
  split <;> exact ⟨_, rfl⟩

/-- A call answers what its method answers, on the values that the cells hold, and leaves in the cells what the
method leaves there. -/
theorem call_outcome {r : Val} (call : (x.callMethod c slot).value.expr.valueIn w false m₁ = some (r, m₂)) :
    ∃ self args left, w.method m₁.store self (memberName c.1.name) args = some (r, left) ∧
      m₂.store = m₁.store ∧ ∀ o ∈ Call.outputs c, args[o.2]? = m₁.vars (argSlot slot o.2) ∧
        m₂.vars (argSlot slot o.2) = some (left o.2) := by
  have store := (Expr.kept_valueIn w _ call).store_eq
  obtain ⟨a, target⟩ := x.callee_eq c.1 slot
  have outside := x.outside_callee c.1 slot
  rw [value_callMethod, exprs_argumentsAt] at call
  simp only [target, Expr.valueIn] at call
  obtain ⟨⟨self, m'⟩, agent, call⟩ := Option.bind_eq_some_iff.mp call
  obtain ⟨⟨args, m''⟩, values, call⟩ := Option.bind_eq_some_iff.mp call
  obtain ⟨⟨r', left⟩, answer, same⟩ := Option.map_eq_some_iff.mp call
  have kept := a.kept_valueIn w agent
  have same' : m''.store = m₁.store := (Expr.kept_valuesIn w _ values).store_eq.trans kept.store_eq
  cases same
  refine ⟨self, args, left, same' ▸ answer, store, fun o ho => ?_⟩
  obtain ⟨p, hb, byRef, place⟩ := Call.mem_outputs ho
  obtain ⟨front, after, split, -, length, hf, ha⟩ := Call.bindings_at hb
  have cell : x.argumentExpr slot ((p, some (.var o.1)), o.2) = .address (argSlot slot o.2) :=
    (x.exprs_argumentAt slot _).2.mpr ⟨byRef, rfl⟩
  have exprs : (Call.bindings c).map (x.argumentExpr slot) = front.map (x.argumentExpr slot)
      ++ .address (argSlot slot o.2) :: after.map (x.argumentExpr slot) := by
    rw [split, map_append, map_cons, cell]
  have absent {bs : List Binding} (others : ∀ b ∈ bs, b.2 ≠ o.2) :
      argSlot slot o.2 ∉ Expr.allNames (bs.map (x.argumentExpr slot)) := by
    rw [← exprs_argumentsAt]
    exact fun mem => x.cell_notMem_argumentsAt slot others (by simp [Arguments.names, mem])
  rw [exprs] at values ⊢
  constructor
  · have held := Expr.getElem?_valuesIn w _ values (absent hf)
    rw [length_map, length] at held
    rw [held]
    refine kept.vars_eq _ fun mem => cell_not_strange slot o.2 (.inl (outside _ ?_))
    rw [target]
    exact mem_append_right _ mem
  · have left := Memory.vars_leave left (absent ha) (front.map (x.argumentExpr slot)) 0 m''
    rwa [length_map, length, Nat.zero_add] at left

/-! ### After the call -/

/-- Writing one output back leaves the cells of the others alone. -/
theorem cell_notMem_storeOutput (x : Context) (slot : String) (o : Variable × Nat) {j : Nat} (ne : o.2 ≠ j) :
    argSlot slot j ∉ stepNames (x.storeOutput slot o) := by
  intro mem
  rcases x.outside_writeVariable o.1 _ _ _ mem with own | known | more
  · rw [Expr.names, mem_singleton, argSlot_eq, argSlot_eq] at own
    exact not_under_arguments ne (.refl (slot ++ argument o.2)) (own ▸ .refl _)
  · exact not_outside_argument slot j (.inl known)
  · rw [underscores_append, argSlot_eq, argSlot_eq, underscores_append, underscores_append,
      underscores_argument, underscores_argument, show underscores "Out" = 0 by decide] at more
    omega

theorem length_cell_lt (slot : String) (i : Nat) :
    (argSlot slot i).toList.length < (agent (argSlot slot i ++ "Out")).toList.length := by
  simp [agent]
  omega

/-- Writing outputs back one after the other puts each at its place, and changes no other place. -/
theorem performs_outputs {s : Store} {left : Nat → Val} {at' : Variable × Nat → Place}
    {os : List (Variable × Nat)} {m : Memory} (numbers : os.Pairwise fun o o' => o.2 ≠ o'.2)
    (cells : ∀ o ∈ os, m.vars (argSlot slot o.2) = some (left o.2))
    (found : ∀ o ∈ os, x.place? w s o.1 = some (at' o) ∧ (s (at' o)).isSome)
    (held : ∀ q, (s q).isSome → (m.store q).isSome)
    (agree : ∀ o ∈ os, ∀ q ∈ x.consulted w s o.1, m.store q = s q) (distinct : (os.map at').Nodup)
    (apart : os.Pairwise fun o o' => at' o ∉ x.consulted w s o'.1) :
    ∃ m', performAll w (os.flatMap (x.storeOutput slot)) m = some m' ∧
      (∀ o ∈ os, m'.store (at' o) = some (left o.2)) ∧ ∀ q ∉ os.map at', m'.store q = m.store q := by
  induction os generalizing m with
  | nil => exact ⟨m, rfl, forall_mem_nil _, fun _ _ => rfl⟩
  | cons o os ih =>
    obtain ⟨number, numbers⟩ := pairwise_cons.mp numbers
    obtain ⟨cell, cells⟩ := forall_mem_cons.mp cells
    obtain ⟨⟨place, exists'⟩, found⟩ := forall_mem_cons.mp found
    obtain ⟨first, agree⟩ := forall_mem_cons.mp agree
    obtain ⟨unlike, distinct⟩ := nodup_cons.mp distinct
    obtain ⟨away, apart⟩ := pairwise_cons.mp apart
    obtain ⟨m', runs, store⟩ := performs_writeVariable (place?_stable held place first) (held _ exists') cell
      (cell_ne_parameter slot o.2) (length_cell_lt slot o.2)
    have others : ∀ q ≠ at' o, m'.store q = m.store q := fun q hq => by rw [store, m.store_put_of_ne hq]
    have written : m'.store (at' o) = some (left o.2) := by rw [store, m.store_put_self]
    have grown := grown_performAll w runs
    obtain ⟨m'', rest, put, same⟩ := ih numbers
      (fun o' ho' => (grown.vars_eq _ (x.cell_notMem_storeOutput slot o (number o' ho'))).trans (cells o' ho'))
      found (fun q hq => grown.held q (held q hq))
      (fun o' ho' q hq => (others q fun h => away o' ho' (h ▸ hq)).trans (agree o' ho' q hq)) distinct apart
    refine ⟨m'', ?_, ?_, ?_⟩
    · rw [flatMap_cons, performAll_append, storeOutput, runs]
      exact rest
    · exact forall_mem_cons.mpr ⟨(same _ unlike).trans written, put⟩
    · intro q hq
      rw [map_cons, mem_cons, not_or] at hq
      exact (same q hq.2).trans (others q hq.1)

/-! ### Nested calls -/

theorem storing_namedAgent (x : Context) (name className slot : String) :
    ∀ s ∈ (x.namedAgent name className slot).value.1, storing s = false := by
  rw [namedAgent]
  split <;> simp [storing]

theorem mem_pre_argumentsAt {s : Step} : ∀ {bs : List Binding}, s ∈ (x.argumentsAt slot bs).pre →
    ∃ b ∈ bs, s ∈ (x.argumentAt slot b).pre := by
  intro bs
  induction bs with
  | nil =>
    intro h
    cases h
  | cons b bs ih =>
    intro h
    rcases mem_append.mp h with h | h
    · exact ⟨b, mem_cons_self, h⟩
    · exact (ih h).imp fun b' h' => ⟨mem_cons_of_mem b h'.1, h'.2⟩

/-- An argument stores nothing before the call, unless it is a call that does or that writes back. -/
theorem storing_argumentAt (nested : ∀ m args, b.1.2 = some (.call m args) →
      (∀ s ∈ (x.operand (.call m args) (argSlot slot b.2)).value.pre, storing s = false) ∧
        (x.operand (.call m args) (argSlot slot b.2)).value.post = []) :
    ∀ s ∈ (x.argumentAt slot b).pre, storing s = false := by
  obtain ⟨⟨p, o⟩, i⟩ := b
  cases o with
  | none => exact forall_mem_nil _
  | some o =>
    rw [argumentAt]
    fun_cases givenArgument x p o (argSlot slot i) with
    | case1 native value =>
      rw [value_constArgument]
      split <;> simp [storing]
    | case2 v =>
      have read := x.storing_readVariable v (argSlot slot i)
      rw [Emit.value_bind, value_variableArgument]
      split
      · simpa [or_imp, forall_and, storing] using read
      · exact read
    | case3 m args =>
      obtain ⟨quiet, none⟩ := nested m args rfl
      rw [Emit.value_bind, Emit.value_pure, callArgument_eq, Emission.bind, none]
      split
      · simpa [or_imp, forall_and, storing] using quiet
      · exact quiet

/-- A call stores nothing before it is made, unless calls among its arguments write back. -/
theorem storing_pre (x : Context) (o : Operand) : ∀ slot, (∀ m args, o = .call m args →
      ∀ inner s, Nested inner s (m, args) slot → (x.callMethod inner s).value.post = []) →
    ∀ s ∈ (x.operand o slot).value.pre, storing s = false := by
  induction o using Operand.nested_induction with
  | var v => exact fun slot _ => x.storing_readVariable v slot
  | call m args ih =>
    intro slot quiet s hs
    have pre : (x.operand (.call m args) slot).value.pre =
        (x.callee m slot).1 ++ (x.argumentsAt slot (Call.bindings (m, args))).pre :=
      congrArg Emission.pre (x.value_callMethod (m, args) slot)
    rw [pre] at hs
    rcases mem_append.mp hs with hs | hs
    · rw [callee] at hs
      split at hs
      · cases hs
      · exact x.storing_namedAgent _ _ _ s hs
    · obtain ⟨b, hb, hs⟩ := mem_pre_argumentsAt hs
      refine storing_argumentAt (fun m' args' bound => ?_) s hs
      obtain ⟨⟨p, o⟩, i⟩ := b
      cases bound
      have mem := mem_of_getElem? (Option.join_eq_some_iff.mp (Call.mem_bindings.mp hb).2)
      refine ⟨ih _ mem (argSlot slot i) ?_, quiet m args rfl (m', args') _ (.argument hb)⟩
      rintro _ _ ⟨⟩ inner s nested
      refine quiet m args rfl inner s (.deeper (p := p) ?_ nested)
      exact hb

/-! ### The whole call -/

/-- The outputs of a call have places of their own: each is at its place when it is read and still when the
call is made, the places are different, and none of them is consulted to find a later output. -/
structure Placed (x : Context) (w : World) (c : Call) (slot : String) (m m₁ : Memory)
    (place : Variable × Nat → Place) : Prop where
  read : ∀ o ∈ Call.outputs c, ∀ mᵢ, performAll w (x.before c slot o.2) m = some mᵢ →
    x.place? w mᵢ.store o.1 = some (place o) ∧ (mᵢ.store (place o)).isSome
  still : ∀ o ∈ Call.outputs c, x.place? w m₁.store o.1 = some (place o)
  distinct : ((Call.outputs c).map place).Nodup
  apart : (Call.outputs c).Pairwise fun o o' => place o ∉ x.consulted w m₁.store o'.1

/-- A call whose outputs have places of their own gives its method the values at these places, and in the end
each place holds what the method left in its cell, while all other places are as they were at the call. If no
call among the arguments writes back, that is as they were before. -/
theorem outputs_delivered (x : Context) (w : World) (c : Call) (slot : String) {m m₁ m₂ : Memory} {r : Val}
    {place : Variable × Nat → Place} (pre : performAll w (x.callMethod c slot).value.pre m = some m₁)
    (call : (x.callMethod c slot).value.expr.valueIn w false m₁ = some (r, m₂))
    (placed : x.Placed w c slot m m₁ place) :
    ∃ self args left m₃, w.method m₁.store self (memberName c.1.name) args = some (r, left) ∧
      performAll w (x.callMethod c slot).value.post m₂ = some m₃ ∧
      (∀ o ∈ Call.outputs c, m₃.store (place o) = some (left o.2)) ∧
      (∀ q ∉ (Call.outputs c).map place, m₃.store q = m₁.store q) ∧
      (∀ o ∈ Call.outputs c, ∀ mᵢ, performAll w (x.before c slot o.2) m = some mᵢ →
        args[o.2]? = mᵢ.store (place o)) ∧
      ((∀ inner s, Nested inner s c slot → (x.callMethod inner s).value.post = []) → m₁.store = m.store) := by
  obtain ⟨self, args, left, answer, store, cells⟩ := call_outcome call
  -- a place that was there when it was read is still there at the call
  have held : ∀ o ∈ Call.outputs c, (m₁.store (place o)).isSome := by
    intro o ho
    obtain ⟨p, hb, -⟩ := Call.mem_outputs ho
    obtain ⟨rest, split, -⟩ := x.pre_split hb slot
    rw [split, List.append_assoc, performAll_append] at pre
    obtain ⟨mᵢ, reached, later⟩ := Option.bind_eq_some_iff.mp pre
    exact (grown_performAll w later).held _ (placed.read o ho mᵢ reached).2
  obtain ⟨m₃, post, put, same⟩ := performs_outputs (s := m₁.store) (Call.pairwise_outputs c)
    (fun o ho => (cells o ho).2) (fun o ho => ⟨placed.still o ho, held o ho⟩) (fun q hq => by rwa [store])
    (fun _ _ q _ => by rw [store]) placed.distinct placed.apart
  refine ⟨self, args, left, m₃, answer, ?_, put, fun q hq => (same q hq).trans (by rw [store]), ?_, ?_⟩
  · rw [post_callMethod]
    exact post
  · intro o ho mᵢ reached
    obtain ⟨found, value⟩ := placed.read o ho mᵢ reached
    exact (cells o ho).1.trans (vars_cell ho pre reached found value)
  · intro quiet
    refine store_performAll w (x.storing_pre (.call c.1 c.2) slot ?_) pre
    rintro _ _ ⟨⟩
    exact quiet

/-- The index of an array. -/
def cursor : Variable := .property { name := "i", type := "int" }

/-- The element of the array at its index. -/
def shelf : Variable :=
  .element { name := "slots", type := "int", isElement := true } (.property { name := "i", type := "int" })

/-- A score that another agent keeps under its name. -/
def score : Variable :=
  .property { name := "score", type := "int", owner := .named "Chief", isCustomized := true }

/-- A call that passes the variables by reference. -/
def exchange (vs : List Variable) : Call :=
  ({ name := "exchange", params := vs.map fun _ => { type := "int", isRef := true } }, vs.map (some <| .var ·))

/-- A catalog in which one agent is known by name. -/
def depot : Context := { catalog := { instances := ["Chief"] } }

/-- The index is 0, the array holds 5 and 6, and the score is 8. -/
def stock : Memory where
  vars _ := none
  store
    | .field 0 "Slots" => some (.object 1)
    | .field 0 "I" => some (.literal "0")
    | .item 1 (.literal "0") => some (.literal "5")
    | .item 1 (.literal "1") => some (.literal "6")
    | .entry 3 false "score" => some (.literal "8")
    | _ => none

/-- A world whose methods leave the given literals in their cells. -/
def leaving (left : List String) : World where
  agent := 0
  node := 2
  parent _ _ := some (.object 3)
  method _ _ _ _ := some (.literal "nil", fun i => .literal (left.getD i "0"))
  convert _ v := v
  fresh _ := .literal "0"

/-- The places of the element, the index and the score, in this order. -/
def stocked (o : Variable × Nat) : Place :=
  [.item 1 (.literal "0"), .field 0 "I", .entry 3 false "score"].getD o.2 (.global "")

theorem outputs_delivered_exchange :
    ∃ m₁ m₂ r, performAll (leaving ["7", "1", "9"])
        (depot.callMethod (exchange [shelf, cursor, score]) "v").value.pre stock = some m₁ ∧
      (depot.callMethod (exchange [shelf, cursor, score]) "v").value.expr.valueIn
        (leaving ["7", "1", "9"]) false m₁ =
        some (r, m₂) ∧
      depot.Placed (leaving ["7", "1", "9"]) (exchange [shelf, cursor, score]) "v" stock m₁ stocked ∧
      ∃ m₃, performAll (leaving ["7", "1", "9"])
          (depot.callMethod (exchange [shelf, cursor, score]) "v").value.post m₂ = some m₃ ∧
        m₃.store (.item 1 (.literal "0")) = some (.literal "7") ∧
        m₃.store (.field 0 "I") = some (.literal "1") ∧
        m₃.store (.entry 3 false "score") = some (.literal "9") ∧
        m₃.store (.item 1 (.literal "1")) = some (.literal "6") := by
  have runs : ((performAll (leaving ["7", "1", "9"])
      (depot.callMethod (exchange [shelf, cursor, score]) "v").value.pre stock).bind
        ((depot.callMethod (exchange [shelf, cursor, score]) "v").value.expr.valueIn
          (leaving ["7", "1", "9"]) false)).isSome := by decide +kernel
  obtain ⟨⟨r, m₂⟩, run⟩ := Option.isSome_iff_exists.mp runs
  obtain ⟨m₁, pre, call⟩ := Option.bind_eq_some_iff.mp run
  have store : m₁.store = stock.store := store_performAll _ (by decide +kernel) pre
  have found : ∀ o ∈ Call.outputs (exchange [shelf, cursor, score]),
      depot.place? (leaving ["7", "1", "9"]) stock.store o.1 = some (stocked o) ∧
        (stock.store (stocked o)).isSome := by decide +kernel
  have quiet : ∀ o ∈ Call.outputs (exchange [shelf, cursor, score]),
      ∀ s ∈ depot.before (exchange [shelf, cursor, score]) "v" o.2, storing s = false := by decide +kernel
  have placed : depot.Placed (leaving ["7", "1", "9"])
      (exchange [shelf, cursor, score]) "v" stock m₁ stocked :=
    { read := fun o ho mᵢ reached => by rw [store_performAll _ (quiet o ho) reached]; exact found o ho
      still := fun o ho => by rw [store]; exact (found o ho).1
      distinct := by decide +kernel
      apart := by rw [store]; decide +kernel }
  refine ⟨m₁, m₂, r, pre, call, placed, ?_⟩
  obtain ⟨_, _, left, m₃, answer, post, put, same, -⟩ := outputs_delivered depot _ _ _ pre call placed
  obtain ⟨rfl, rfl⟩ : .literal "nil" = r ∧ _ = left := by simpa [leaving] using answer
  have outputs : Call.outputs (exchange [shelf, cursor, score]) = [(shelf, 0), (cursor, 1), (score, 2)] := rfl
  refine ⟨m₃, post, put (shelf, 0) (by simp [outputs]), put (cursor, 1) (by simp [outputs]),
    put (score, 2) (by simp [outputs]), ?_⟩
  rw [same _ (by decide +kernel), store]
  rfl

/-- The index is written back before the element it selects, so the value that was left for the element at 0
reaches the element at 1. -/
theorem output_misplaced :
    depot.place? (leaving ["1", "7"]) stock.store shelf = some (.item 1 (.literal "0")) ∧
      depot.place? (leaving ["1", "7"]) stock.store cursor = some (.field 0 "I") ∧
      ∃ m₁ m₂ r m₃, performAll (leaving ["1", "7"])
          (depot.callMethod (exchange [cursor, shelf]) "v").value.pre stock = some m₁ ∧
        (depot.callMethod (exchange [cursor, shelf]) "v").value.expr.valueIn (leaving ["1", "7"]) false m₁ =
          some (r, m₂) ∧
        performAll (leaving ["1", "7"])
          (depot.callMethod (exchange [cursor, shelf]) "v").value.post m₂ = some m₃ ∧
        m₃.store (.item 1 (.literal "0")) = some (.literal "5") ∧
        m₃.store (.item 1 (.literal "1")) = some (.literal "7") := by
  refine ⟨by decide +kernel, by decide +kernel, ?_⟩
  have run : (((performAll (leaving ["1", "7"])
      (depot.callMethod (exchange [cursor, shelf]) "v").value.pre stock).bind
        ((depot.callMethod (exchange [cursor, shelf]) "v").value.expr.valueIn (leaving ["1", "7"]) false)).bind
      fun a => (performAll (leaving ["1", "7"])
        (depot.callMethod (exchange [cursor, shelf]) "v").value.post a.2).map fun m₃ =>
          (m₃.store (.item 1 (.literal "0")), m₃.store (.item 1 (.literal "1")))) =
      some (some (.literal "5"), some (.literal "7")) := by decide +kernel
  obtain ⟨⟨r, m₂⟩, called, rest⟩ := Option.bind_eq_some_iff.mp run
  obtain ⟨m₁, pre, call⟩ := Option.bind_eq_some_iff.mp called
  obtain ⟨m₃, post, ends⟩ := Option.map_eq_some_iff.mp rest
  exact ⟨m₁, m₂, r, m₃, pre, call, post, (Prod.mk.inj ends).1, (Prod.mk.inj ends).2⟩

end Context

end GoTrees
