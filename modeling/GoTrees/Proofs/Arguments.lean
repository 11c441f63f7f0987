import GoTrees.Proofs.Temporaries

/-!
# Calls argument by argument

The steps, the expressions and the write-backs of a call are those of its parameters one after the other,
each with its argument, if it is bound, and with its number, which gives it a slot of its own.
-/

namespace GoTrees

open Go List

/-- What holds of variables, and of a call when it holds of the arguments, holds of every operand. -/
theorem Operand.nested_induction {P : Operand → Prop} (var : ∀ v, P (.var v))
    (call : ∀ m args, (∀ o, some o ∈ args → P o) → P (.call m args)) : ∀ o, P o
  | .var v => var v
  | .call m args => call m args fun o _ => nested_induction var call o
termination_by o => sizeOf o
decreasing_by
  have smaller := sizeOf_lt_of_mem ‹some o ∈ args›
  simp only [Option.some.sizeOf_spec, Operand.call.sizeOf_spec] at smaller ⊢
  omega

/-- The parameters of a method with the arguments of a call; a parameter without an argument is unbound. -/
def bindings : List Param → List (Option Operand) → List (Param × Option Operand)
  | [], _ => []
  | p :: params, [] => (p, none) :: bindings params []
  | p :: params, o :: args => (p, o) :: bindings params args

theorem getElem?_bindings : ∀ (params : List Param) (args : List (Option Operand)) (i : Nat),
    (bindings params args)[i]? = params[i]?.map fun p => (p, args[i]?.join)
  | [], _, _ => by simp [bindings]
  | p :: params, [], 0 => by simp [bindings]
  | p :: params, [], i + 1 => by simp [bindings, getElem?_bindings params [] i]
  | p :: params, o :: args, 0 => by simp [bindings]
  | p :: params, o :: args, i + 1 => by simp [bindings, getElem?_bindings params args i]

theorem length_bindings : ∀ (params : List Param) (args : List (Option Operand)),
    (bindings params args).length = params.length
  | [], _ => rfl
  | _ :: params, [] => congrArg (· + 1) (length_bindings params [])
  | _ :: params, _ :: args => congrArg (· + 1) (length_bindings params args)

/-- A parameter with its argument and its number. -/
abbrev Binding := (Param × Option Operand) × Nat

def Call.bindings (c : Call) : List Binding := (GoTrees.bindings c.1.params c.2).zipIdx

theorem Call.mem_bindings {c : Call} {p : Param} {o : Option Operand} {i : Nat} :
    ((p, o), i) ∈ Call.bindings c ↔ c.1.params[i]? = some p ∧ c.2[i]?.join = o := by
  rw [Call.bindings, mk_mem_zipIdx_iff_getElem?, getElem?_bindings]
  cases c.1.params[i]? <;> simp

/-- A binding stands apart from those of other numbers. -/
theorem Call.bindings_split {c : Call} {b : Binding} (h : b ∈ Call.bindings c) :
    ∃ before after, Call.bindings c = before ++ b :: after ∧
      (∀ b' ∈ before, b'.2 ≠ b.2) ∧ ∀ b' ∈ after, b'.2 ≠ b.2 := by
  obtain ⟨before, after, split⟩ := append_of_mem h
  have numbers : ((Call.bindings c).map Prod.snd).Nodup := by
    rw [Call.bindings, zipIdx_map_snd]
    exact nodup_range'
  rw [split, map_append, map_cons, nodup_middle, nodup_cons, mem_append,
    not_or] at numbers
  refine ⟨before, after, split, fun b' hb' same => ?_, fun b' hb' same => ?_⟩
  · exact numbers.1.1 (same ▸ mem_map_of_mem hb')
  · exact numbers.1.2 (same ▸ mem_map_of_mem hb')

namespace Context

namespace Arguments

/-- Arguments one after the other. -/
def concat : List Arguments → Arguments
  | [] => {}
  | a :: as => a.append (concat as)

theorem concat_append (bs : List Arguments) : ∀ as : List Arguments,
    concat (as ++ bs) = (concat as).append (concat bs)
  | [] => rfl
  | a :: as => by
      rw [cons_append, concat, concat, concat_append bs as]
      simp [append, List.append_assoc]

theorem exprs_concat : ∀ as : List Arguments, (concat as).exprs = as.flatMap exprs
  | [] => rfl
  | a :: as => congrArg (a.exprs ++ ·) (exprs_concat as)

theorem post_concat : ∀ as : List Arguments, (concat as).post = as.flatMap post
  | [] => rfl
  | a :: as => congrArg (a.post ++ ·) (post_concat as)

end Arguments

variable (x : Context)

/-- What a parameter of a call at a slot adds to it. -/
def argumentAt (slot : String) : Binding → Arguments
  | ((p, none), _) => (x.unboundArgument p).value
  | ((p, some o), i) => (x.givenArgument p o (argSlot slot i)).value

theorem value_unboundArguments (slot : String) : ∀ (params : List Param) (i : Nat),
    (x.unboundArguments params).value =
      Arguments.concat (((bindings params []).zipIdx i).map (x.argumentAt slot))
  | [], _ => rfl
  | p :: params, i => by
      rw [unboundArguments, bindings, zipIdx_cons, map_cons, Arguments.concat,
        ← value_unboundArguments slot params (i + 1)]
      rfl

/-- The arguments are those of the bindings, one after the other. -/
theorem value_arguments (slot : String) : ∀ (params : List Param) (args : List (Option Operand)) (i : Nat),
    (x.arguments params args slot i).value =
      Arguments.concat (((bindings params args).zipIdx i).map (x.argumentAt slot))
  | [], _, _ => by
      rw [arguments]
      rfl
  | p :: params, [], i => by
      rw [arguments]
      · exact x.value_unboundArguments slot (p :: params) i
      · exact cons_ne_nil p params
  | p :: params, none :: args, i => by
      rw [arguments, bindings, zipIdx_cons, map_cons, Arguments.concat,
        ← value_arguments slot params args (i + 1)]
      rfl
  | p :: params, some o :: args, i => by
      rw [arguments_some, bindings, zipIdx_cons, map_cons, Arguments.concat,
        ← value_arguments slot params args (i + 1)]
      rfl

/-- The steps that find the agent of a call, and the method of the agent. -/
def callee (m : Method) (slot : String) : List Step × Expr :=
  match m.owner with
  | .running => ([], .select (receiver m.className).value (memberName m.name))
  | .named agent =>
    let found := (x.namedAgent agent m.className slot).value
    (found.1, .select found.2 (memberName m.name))

/-- What the parameters of a call at a slot add to it. -/
def argumentsAt (slot : String) (bs : List Binding) : Arguments :=
  Arguments.concat (bs.map (x.argumentAt slot))

/-- A call is made of what its parameters add to it. -/
theorem value_callMethod (c : Call) (slot : String) : (x.callMethod c slot).value = {
    pre := (x.callee c.1 slot).1 ++ (x.argumentsAt slot (Call.bindings c)).pre
    expr := .call (x.callee c.1 slot).2 (x.argumentsAt slot (Call.bindings c)).exprs
    post := (x.argumentsAt slot (Call.bindings c)).post } := by
  have invoked (a : Arguments) : (x.invoke c.1 a slot).value = {
      pre := (x.callee c.1 slot).1 ++ a.pre
      expr := .call (x.callee c.1 slot).2 a.exprs
      post := a.post } := by
    rw [invoke, callee]
    cases c.1.owner <;> rfl
  rw [callMethod, operand, Emit.value_bind, invoked, value_arguments]
  rfl

end Context

end GoTrees
