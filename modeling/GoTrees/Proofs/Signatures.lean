import GoTrees.Proofs.UsedRuntime
import GoTrees.Proofs.WriteBacks

/-!
# Calls and signatures

An agent type has a stub for each method that it declares, and the parameters by reference of a stub are
pointers. A call passes one argument for each parameter, in their order. A parameter by reference gets the
address of its temporary if it is bound; if not, it gets the default of its type, which no pointer holds:

    func (_o *Trader) Exchange(give *int, take int)
    agent.Exchange(&vP0, 0)     give is bound, take is not
    agent.Exchange(0, 0)        neither is bound
-/

namespace GoTrees

open Text Go List

namespace Go

/-- Is it the address of a variable? -/
def Expr.isAddress : Expr → Bool
  | .address _ => true
  | _ => false

def isPointer (type : String) : Bool := type.toList.head? == some '*'

/-- The arguments fit the parameters: there is one for each, and it is an address if the parameter is a pointer
and only then. -/
def Fits (params : List (String × String)) (args : List Expr) : Prop :=
  List.Forall₂ (fun p e => e.isAddress = isPointer p.2) params args

/-- An expression stands in another, as the whole of it or somewhere in the arguments of a call. -/
inductive Expr.Stands (e : Expr) : Expr → Prop
  | self : Stands e e
  | argument {f : Expr} {args : List Expr} {a : Expr} (mem : a ∈ args) (rest : Stands e a) :
      Stands e (.call f args)

end Go

def Emission.Evaluates (m : Emission) (e : Expr) : Prop :=
  e.Stands m.expr ∨ ∃ y whole, .define y whole ∈ m.pre ∧ e.Stands whole

/-! ### Pointers of a stub -/

namespace GoType

/-- A Go type has no marks of pointers, unless a rename writes one. -/
theorem starless_ofNative {renames : List Rename} (starless : ∀ r ∈ renames, '*' ∉ r.new.toList)
    (native : String) : '*' ∉ (ofNative renames native).toList := by
  have bare (s : String) : AllChars (· ≠ '*') (replaceAll goReplacements s) := by
    have later : ∀ e ∈ goReplacements.drop 2, AllChars (· ≠ '*') e.2 := by decide
    have gone (s : String) : AllChars (· ≠ '*') (replace s "*" "") :=
      allChars_ofList.mpr fun c mem same => notMem_replaceFrom '*' _ (same ▸ mem)
    have rest : replaceAll goReplacements s =
        replaceAll (goReplacements.drop 2) (replace (replace s "::" ".") "*" "") := by
      simp only [goReplacements, replaceAll, foldl_cons, drop_succ_cons, drop_zero]
    rw [rest]
    exact allChars_replaceAll later (gone _)
  have new : ∀ r ∈ renames, AllChars (· ≠ '*') r.new := fun r hr c hc same => starless r hr (same ▸ hc)
  intro mem
  exact allChars_renamed new (allChars_sliced (by decide) (bare _)) '*' mem rfl

end GoType

namespace Skeleton

variable (k : Skeleton)

/-- Each method of an agent's own has a stub with the types of its parameters. -/
theorem exists_stub {a : AgentType} {m : Method} (declared : m ∈ a.methods) (own : m.isInherited = false) :
    ∃ f : Func, .func f ∈ (k.agentDecls a).value ∧ f.receiver = some ("_o", basicName a.name) ∧
      f.name = memberName m.name ∧ f.params = (k.paramTypes m.params).value := by
  have stub (agent : String) : ∃ f : Func, .func f ∈ (k.methodStub agent m).value ∧
      f.receiver = some ("_o", agent) ∧ f.name = memberName m.name ∧
      f.params = (k.paramTypes m.params).value := by
    simp only [methodStub, Emit.value_bind, Emit.value_pure]
    exact ⟨_, mem_append_right _ mem_cons_self, rfl, rfl, rfl⟩
  have among (agent : String) {ms : List Method} (mem : m ∈ ms) {d : Decl}
      (hd : d ∈ (k.methodStub agent m).value) : d ∈ (k.methodStubs agent ms).value := by
    induction ms with
    | nil => cases mem
    | cons m' ms ih =>
      rw [methodStubs_cons, Emit.value_append, mem_append]
      rcases mem_cons.mp mem with rfl | mem
      · exact .inl (by simpa [own] using hd)
      · exact .inr (ih mem)
  obtain ⟨f, mem, receiver, name, params⟩ := stub (basicName a.name)
  refine ⟨f, ?_, receiver, name, params⟩
  simp only [agentDecls, Emit.value_bind, Emit.value_pure]
  exact mem_append_right _ (among _ declared mem)

end Skeleton

/-! ### Addresses in a call -/

namespace Context

variable (x : Context)

theorem isAddress_indexed {e : Expr} (h : e.isAddress = false) (i : Option Expr) :
    (indexed e i).isAddress = false := by
  cases i
  · exact h
  · rfl

theorem isAddress_readFrom (p : Property) (owner : Expr) (i : Option Expr) :
    (x.readFrom p owner i).value.2.isAddress = false := by
  have member : (memberAccess p owner).value.isAddress = false := by
    rw [memberAccess]
    split <;> rfl
  rw [readFrom]
  split
  · exact isAddress_indexed rfl i
  · exact isAddress_indexed member i

theorem isAddress_literalFor (ty : ValueType) (type : String) :
    ((literalFor ty type none).getD .nil).isAddress = false := by
  cases ty with
  | struct name isRef => cases isRef <;> rfl
  | _ => rfl

/-- An argument is an address exactly if it is passed by reference. -/
theorem isAddress_givenArgument (p : Param) (o : Operand) (slot : String) : ∃ e,
    (x.givenArgument p o slot).value.exprs = [e] ∧ e.isAddress = p.isByRef := by
  fun_cases givenArgument x p o slot with
  | case1 native value =>
    rw [value_constArgument]
    cases p.isByRef <;> exact ⟨_, rfl, rfl⟩
  | case2 v notConst =>
    have read : (x.readVariable v slot).value.expr.isAddress = false := by
      cases v with
      | const native value => exact absurd rfl (notConst native value)
      | property q => exact x.isAddress_readFrom q _ _
      | element q index => exact x.isAddress_readFrom q _ _
    rw [Emit.value_bind, value_variableArgument]
    cases p.isByRef
    · exact ⟨_, rfl, read⟩
    · exact ⟨_, rfl, rfl⟩
  | case3 m args =>
    have called : (x.operand (.call m args) slot).value.expr.isAddress = false :=
      congrArg (fun e : Emission => e.expr.isAddress) (x.value_callMethod (m, args) slot)
    rw [Emit.value_bind, Emit.value_pure, callArgument_eq, Emission.bind]
    split_ifs with byRef
    · exact ⟨_, rfl, by simp [byRef, Expr.isAddress]⟩
    · exact ⟨_, rfl, by simpa [byRef] using called⟩
    · exact ⟨_, rfl, by simp [byRef, Expr.isAddress]⟩

/-- A parameter gets an address exactly if it is by reference and bound. -/
theorem isAddress_argumentExpr (slot : String) (b : Binding) :
    (x.argumentExpr slot b).isAddress = (b.1.1.isByRef && b.1.2.isSome) := by
  obtain ⟨⟨p, o⟩, i⟩ := b
  cases o with
  | none =>
    have literal := isAddress_literalFor (x.catalog.classify p.type) (x.goType p.type).value
    rw [← value_defaultLiteral] at literal
    simpa [argumentExpr, argumentAt, unboundArgument] using literal
  | some o =>
    obtain ⟨e, exprs, address⟩ := x.isAddress_givenArgument p o (argSlot slot i)
    rw [argumentExpr, argumentAt, exprs]
    simpa using address

def callArgs (c : Call) (slot : String) : List Expr := (Call.bindings c).map (x.argumentExpr slot)

theorem expr_eq_callArgs (c : Call) (slot : String) : ∃ agent,
    (x.callMethod c slot).value.expr = .call (.select agent (memberName c.1.name)) (x.callArgs c slot) := by
  have callee : ∃ agent, (x.callee c.1 slot).2 = .select agent (memberName c.1.name) := by
    rw [callee]
    split <;> exact ⟨_, rfl⟩
  obtain ⟨agent, callee⟩ := callee
  exact ⟨agent, by rw [value_callMethod, callee, exprs_argumentsAt, callArgs]⟩

/-! ### Calls within calls -/

theorem evaluates_callArgument {m : Emission} {e : Expr} (h : m.Evaluates e) (p : Param) (slot : String) :
    (∃ a ∈ (callArgument p m slot).exprs, e.Stands a) ∨
      ∃ y whole, .define y whole ∈ (callArgument p m slot).pre ∧ e.Stands whole := by
  rw [callArgument_eq, Emission.bind]
  rcases h with whole | ⟨y, whole, mem, stands⟩
  · split_ifs
    · exact .inr ⟨slot, m.expr, by simp, whole⟩
    · exact .inl ⟨m.expr, mem_singleton_self _, whole⟩
    · exact .inr ⟨slot, m.expr, by simp, whole⟩
  · refine .inr ⟨y, whole, ?_, stands⟩
    split_ifs <;> simp [mem]

theorem evaluates_argument {c inner : Call} {slot : String} {p : Param} {i : Nat} {e : Expr}
    (bound : ((p, some (.call inner.1 inner.2)), i) ∈ Call.bindings c)
    (h : (x.callMethod inner (argSlot slot i)).value.Evaluates e) :
    (x.callMethod c slot).value.Evaluates e := by
  obtain ⟨agent, left, right, around⟩ := x.exists_around bound slot
  rw [argumentAt_call] at around
  rcases evaluates_callArgument h p (argSlot slot i) with ⟨a, mem, stands⟩ | ⟨y, whole, mem, stands⟩
  · left
    rw [around.expr_eq]
    exact .argument (mem_append_left _ (mem_append_right _ mem)) stands
  · right
    rw [around.pre_eq]
    exact ⟨y, whole, mem_append_left _ (mem_append_right _ mem), stands⟩

/-- A call evaluates the calls nested in its arguments. -/
theorem evaluates_nested {c outer : Call} {s slot : String} (h : Nested c s outer slot) :
    (x.callMethod outer slot).value.Evaluates (x.callMethod c s).value.expr := by
  induction h with
  | argument bound => exact x.evaluates_argument bound (.inl .self)
  | deeper bound rest ih => exact x.evaluates_argument bound ih

/-! ### Calls against stubs -/

theorem isPointer_paramType {k : Skeleton} (starless : ∀ r ∈ k.config.renames, '*' ∉ r.new.toList)
    (p : Param) :
    isPointer (if p.isByRef then "*" ++ (k.goType p.type).value else (k.goType p.type).value) = p.isByRef := by
  have bare : '*' ∉ (k.goType p.type).value.toList := GoType.starless_ofNative starless p.type
  cases p.isByRef with
  | true => simp [isPointer]
  | false =>
    simp only [isPointer, Bool.false_eq_true, if_false, beq_eq_false_iff_ne]
    exact fun head => bare (mem_of_head? head)

/-- What a call at a slot passes for a binding whose parameter is declared with a type: one expression,
which is an address where the type is a pointer and nowhere else, except that an unbound parameter gets the
default of its type. -/
structure Passes (slot : String) (b : Binding) (type : String) (e : Expr) : Prop where
  pointer : isPointer type = b.1.1.isByRef
  alone : (x.argumentAt slot b).exprs = [e]
  bound : b.1.2.isSome → e.isAddress = isPointer type ∧ (b.1.1.isByRef → e = .address (argSlot slot b.2))
  unbound : b.1.2 = none → e.isAddress = false ∧ e = (x.defaultLiteral b.1.1.type none).value.getD .nil

/-- A call passes an address exactly where the parameter has a pointer type. -/
theorem passes_argumentExpr {k : Skeleton} (starless : ∀ r ∈ k.config.renames, '*' ∉ r.new.toList)
    (slot : String) (b : Binding) : x.Passes slot b
      (if b.1.1.isByRef then "*" ++ (k.goType b.1.1.type).value else (k.goType b.1.1.type).value)
      (x.argumentExpr slot b) where
  pointer := isPointer_paramType starless b.1.1
  alone := (x.exprs_argumentAt slot b).1
  bound := by
    intro bound
    rw [isPointer_paramType starless, isAddress_argumentExpr, bound, Bool.and_true]
    exact ⟨rfl, fun byRef => (x.exprs_argumentAt slot b).2.mpr ⟨byRef, bound⟩⟩
  unbound := by
    intro unbound
    rw [isAddress_argumentExpr, unbound, Option.isSome_none, Bool.and_false]
    obtain ⟨⟨p, o⟩, i⟩ := b
    subst unbound
    exact ⟨rfl, rfl⟩

theorem getElem?_bindings_self {c : Call} {b : Binding} (mem : b ∈ Call.bindings c) :
    (Call.bindings c)[b.2]? = some b := by
  rw [Call.bindings, getElem?_zipIdx, mk_mem_zipIdx_iff_getElem?.mp mem, Option.map_some, Nat.zero_add]

theorem paramTypes_bindings (k : Skeleton) (c : Call) : (k.paramTypes c.1.params).value =
    (Call.bindings c).map fun b => (b.1.1.name,
      if b.1.1.isByRef then "*" ++ (k.goType b.1.1.type).value else (k.goType b.1.1.type).value) := by
  have fst : (Call.bindings c).map (fun b => b.1.1) = c.1.params := by
    refine ext_getElem? fun i => ?_
    rw [getElem?_map, Call.bindings, getElem?_zipIdx, getElem?_bindings]
    cases c.1.params[i]? <;> rfl
  rw [Skeleton.value_paramTypes, ← fst, map_map]
  rfl

/-- Every call of a method, alone or nested at any depth in another call, passes one argument for each
parameter that the stub of the method declares, in order. An argument is an address only where the stub has
a pointer, and it is one there if the parameter is bound. So the call fits the stub exactly if no parameter
by reference is left unbound. -/
theorem fits_iff_bound (x : Context) (k : Skeleton) (starless : ∀ r ∈ k.config.renames, '*' ∉ r.new.toList)
    {a : AgentType} {m : Method} (declared : m ∈ a.methods) (own : m.isInherited = false)
    {c outer : Call} {s slot : String} (name : c.1.name = m.name) (params : c.1.params = m.params)
    (within : (c = outer ∧ s = slot) ∨ Nested c s outer slot) :
    ∃ f : Func, ∃ agent args, .func f ∈ (k.agentDecls a).value ∧ f.receiver = some ("_o", basicName a.name) ∧
      (x.callMethod outer slot).value.Evaluates (.call (.select agent f.name) args) ∧
      f.params.length = m.params.length ∧ args.length = m.params.length ∧
      (∀ b ∈ Call.bindings c, ∃ type e, f.params[b.2]? = some (b.1.1.name, type) ∧ args[b.2]? = some e ∧
        x.Passes s b type e) ∧
      (Fits f.params args ↔ ∀ b ∈ Call.bindings c, b.1.1.isByRef → b.1.2.isSome) := by
  obtain ⟨f, mem, receiver, fname, fparams⟩ := k.exists_stub declared own
  obtain ⟨agent, expr⟩ := x.expr_eq_callArgs c s
  rw [name, ← fname] at expr
  rw [← params, paramTypes_bindings] at fparams
  have evaluates : (x.callMethod outer slot).value.Evaluates (x.callMethod c s).value.expr := by
    rcases within with ⟨rfl, rfl⟩ | nested
    · exact .inl .self
    · exact x.evaluates_nested nested
  have length : (Call.bindings c).length = m.params.length := by
    rw [Call.bindings, length_zipIdx, length_bindings, params]
  refine ⟨f, agent, x.callArgs c s, mem, receiver, expr ▸ evaluates, ?_, ?_, fun b hb => ?_, ?_⟩
  · rw [fparams, length_map, length]
  · rw [callArgs, length_map, length]
  · have here := getElem?_bindings_self hb
    exact ⟨_, _, by rw [fparams, getElem?_map, here]; rfl, by rw [callArgs, getElem?_map, here]; rfl,
      x.passes_argumentExpr starless s b⟩
  · rw [Fits, fparams, callArgs, forall₂_map_left_iff, forall₂_map_right_iff, forall₂_same]
    refine forall₂_congr fun b _ => ?_
    rw [isAddress_argumentExpr, isPointer_paramType starless]
    cases b.1.1.isByRef <;> simp

/-- Gives something away by reference for something else. -/
def trade : Method where
  name := "trade"
  params := [{ name := "give", type := "int", isRef := true }, { name := "take", type := "int" }]

def trader : AgentType where
  name := "Trader"
  methods := [trade]

theorem trade_mem : trade ∈ trader.methods := mem_singleton_self trade

/-- A tree file where traders meet. -/
def market : Context where
  catalog := { agents := [trader] }

/-- The type files of the market. -/
def stalls : Skeleton where
  catalog := market.catalog

/-- A trade of coins, with what it takes left open. -/
def sale : Call := (trade, [some (.var (.property { name := "coins", type := "int" }))])

/-- A trade of goods for what a sale brings. -/
def barter : Call :=
  (trade, [some (.var (.property { name := "goods", type := "int" })), some (.call sale.1 sale.2)])

theorem fits_iff_bound_barter : stalls.config.renames = [] ∧ trade ∈ trader.methods ∧
    Nested sale (argSlot "v" 1) barter "v" ∧
    ∃ f : Func, ∃ agent args, .func f ∈ (stalls.agentDecls trader).value ∧
      (market.callMethod barter "v").value.Evaluates (.call (.select agent f.name) args) ∧
      args.length = 2 ∧ Fits f.params args := by
  have starless : ∀ r ∈ stalls.config.renames, '*' ∉ r.new.toList := by rintro _ ⟨⟩
  have second : ((⟨"take", "int", false, false, ""⟩, some (.call sale.1 sale.2)), 1) ∈ Call.bindings barter :=
    mem_cons_of_mem _ mem_cons_self
  have within : Nested sale (argSlot "v" 1) barter "v" := .argument second
  obtain ⟨f, agent, args, mem, -, evaluates, -, length, -, fits⟩ :=
    fits_iff_bound market stalls starless trade_mem rfl rfl rfl (.inr within)
  refine ⟨rfl, trade_mem, within, f, agent, args, mem, evaluates, length, fits.mpr ?_⟩
  exact forall_mem_cons.mpr ⟨fun _ => rfl, forall_mem_singleton.mpr fun byRef => by cases byRef⟩

/-- A trade with nothing bound passes a number where the stub declares a pointer. -/
theorem not_fits_unbound : ∃ f : Func, .func f ∈ (stalls.agentDecls trader).value ∧
    f.params = [("give", "*int"), ("take", "int")] ∧
    (market.callMethod (trade, []) "v").value.expr =
      .call (.select agentVar f.name) [.literal "0", .literal "0"] ∧
    ¬ Fits f.params [.literal "0", .literal "0"] := by
  obtain ⟨f, mem, -, name, params⟩ := stalls.exists_stub trade_mem rfl
  have int : GoType.ofNative [] "int" = "int" := by decide +kernel
  have types : (stalls.paramTypes trade.params).value = [("give", "*int"), ("take", "int")] := by
    rw [Skeleton.value_paramTypes]
    simp [trade, Param.isByRef, Skeleton.goType, stalls, int]
  refine ⟨f, mem, params.trans types, name ▸ rfl, ?_⟩
  rw [params, types, Fits]
  rintro (_ | ⟨first, _⟩)
  cases first

end Context

end GoTrees
