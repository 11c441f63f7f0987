import GoTrees.Proofs.Bodies
import GoTrees.Proofs.WriteBacks

/-!
# Lookups of properties

A property that lives in a store is read and written by a call with its name and its id, the hash of the
name. This is where such calls occur: reading a variable makes one for every property of a store that it
names, storing a value in it makes one as well, and an operand makes those of all variables in it. So the
calls that an item has to make are all made by its methods.
-/

namespace GoTrees

open List

variable (p : Property) {owner : Expr} {v : Variable} {slot get set : String} {l : Lookup} {us : List Use}

namespace Go

/-- A call of a method that reads or writes a store. -/
structure Lookup where
  method : String
  args : List Expr

/-- The methods of agents that read and write stores. -/
def storeMethods : List String := ["GetLocal", "SetLocal", "GetVariable", "SetVariable"]

/-- A call as a lookup, if it is one. -/
def lookupOf : Expr → List Expr → List Lookup
  | .select _ method, args => if method ∈ storeMethods then [⟨method, args⟩] else []
  | _, _ => []

mutual

def Expr.lookups : Expr → List Lookup
  | .call f args => lookupOf f args ++ f.lookups ++ Expr.allLookups args
  | .select e _ | .asserted e _ | .converted _ e | .not e => e.lookups
  | .index e i => e.lookups ++ i.lookups
  | .binary l _ r => l.lookups ++ r.lookups
  | .slice _ items => Expr.allLookups items
  | .name _ | .address _ | .literal _ | .string _ | .member .. | .path _ | .empty _ | .new _ => []

def Expr.allLookups : List Expr → List Lookup
  | [] => []
  | e :: es => e.lookups ++ Expr.allLookups es

end

attribute [simp] Expr.lookups Expr.allLookups

@[simp] theorem Expr.allLookups_append : ∀ as bs : List Expr,
    Expr.allLookups (as ++ bs) = Expr.allLookups as ++ Expr.allLookups bs
  | [], _ => rfl
  | a :: as, bs => by simp [Expr.allLookups_append as bs]

def Step.lookups : Step → List Lookup
  | .define _ e | .eval e | .ret e => e.lookups
  | .assign target e => target.lookups ++ e.lookups
  | .comment _ | .verbatim _ => []

@[simp] theorem Step.lookups_define (y : String) (e : Expr) : (Step.define y e).lookups = e.lookups := rfl

@[simp] theorem Step.lookups_assign (target e : Expr) :
    (Step.assign target e).lookups = target.lookups ++ e.lookups := rfl

@[simp] theorem Step.lookups_eval (e : Expr) : (Step.eval e).lookups = e.lookups := rfl

@[simp] theorem Step.lookups_ret (e : Expr) : (Step.ret e).lookups = e.lookups := rfl

def stepLookups (ss : List Step) : List Lookup := ss.flatMap Step.lookups

@[simp] theorem stepLookups_nil : stepLookups [] = [] := rfl

@[simp] theorem stepLookups_cons (s : Step) (ss : List Step) :
    stepLookups (s :: ss) = s.lookups ++ stepLookups ss := rfl

@[simp] theorem stepLookups_append (as bs : List Step) :
    stepLookups (as ++ bs) = stepLookups as ++ stepLookups bs := flatMap_append

mutual

/-- The lookups in a statement, also those inside its blocks. -/
def Stmt.lookups : Stmt → List Lookup
  | .step s => s.lookups
  | .block body => Stmt.allLookups body
  | .ifThen condition body => condition.lookups ++ Stmt.allLookups body

def Stmt.allLookups : List Stmt → List Lookup
  | [] => []
  | s :: ss => s.lookups ++ Stmt.allLookups ss

end

attribute [simp] Stmt.lookups Stmt.allLookups

@[simp] theorem Stmt.allLookups_append : ∀ as bs : List Stmt,
    Stmt.allLookups (as ++ bs) = Stmt.allLookups as ++ Stmt.allLookups bs
  | [], _ => rfl
  | a :: as, bs => by simp [Stmt.allLookups_append as bs]

@[simp] theorem Stmt.allLookups_steps : ∀ ss : List Step,
    Stmt.allLookups (ss.map .step) = stepLookups ss
  | [] => rfl
  | s :: ss => by simp [Stmt.allLookups_steps ss]

end Go

open Go

/-! ### Properties of stores -/

namespace Property

/-- The methods that read and write the store of a property: one store is for the locals of a tree, the other
one for the customized properties of agents, and all other properties are fields. -/
def store? (p : Property) : Option (String × String) :=
  if p.isLocal then some ("GetLocal", "SetLocal")
  else if p.isCustomized then some ("GetVariable", "SetVariable")
  else none

/-- The name of a property without the marks of arrays, and the hash of that name. -/
def key (p : Property) : List Expr :=
  [.string p.basicName, .literal (toString (VariableId.ofName p.basicName))]

def lookup (p : Property) (method : String) (value : List Expr) : Lookup := ⟨method, p.key ++ value⟩

def check (p : Property) : Step := .eval (.call (.member "bt" "CheckVariableId") p.key)

theorem store?_of_isLateBound {p : Property} (h : p.isLateBound = true) :
    p.store? = some (Context.getter p, Context.setter p) := by
  rw [isLateBound, Bool.or_eq_true] at h
  cases l : p.isLocal with
  | true => simp [store?, Context.getter, Context.setter, l]
  | false =>
    rw [l] at h
    simp [store?, Context.getter, Context.setter, l, h.resolve_left (by simp)]

theorem isLateBound_of_store? {p : Property} {methods : String × String} (h : p.store? = some methods) :
    p.isLateBound = true := by
  rw [store?] at h
  split at h
  · next isLocal => simp [isLateBound, isLocal]
  · split at h
    · next custom => simp [isLateBound, custom]
    · cases h

theorem getter_mem : Context.getter p ∈ storeMethods := by
  rw [Context.getter]
  split <;> decide

theorem setter_mem : Context.setter p ∈ storeMethods := by
  rw [Context.setter]
  split <;> decide

def checks (p : Property) : List Step := p.store?.toList.map fun _ => p.check

def fetches (p : Property) : List Lookup := p.store?.toList.map fun methods => p.lookup methods.1 []

/-- The lookup that writes a property, if it lives in a store. -/
def puts (p : Property) (value : Expr) : List Lookup :=
  p.store?.toList.map fun methods => p.lookup methods.2 [value]

end Property

namespace Variable

/-- The properties that are named to read or write a variable. -/
def properties : Variable → List Property
  | .const .. => []
  | .property p => [p]
  | .element p index => p :: index.properties

def fetches (v : Variable) : List Lookup := v.properties.flatMap Property.fetches

/-- The lookups that write a variable; an element is written through its array. -/
def puts (v : Variable) (value : Expr) : List Lookup :=
  match v with
  | .property p => p.puts value
  | v => v.fetches

end Variable

/-- The operand is the other one or an argument in it, at any depth. -/
inductive Operand.Within (inner : Operand) : Operand → Prop
  | refl : Within inner inner
  | argument {c : Call} {p : Param} {o : Operand} {i : Nat} (bound : ((p, some o), i) ∈ Call.bindings c)
      (rest : Within inner o) : Within inner (.call c.1 c.2)

namespace Use

/-- The use reads the property. An element is stored through the array it is in. -/
def Reads : Use → Property → Prop
  | .read o, p => ∃ v, Operand.Within (.var v) o ∧ p ∈ v.properties
  | .store (.element q index), p => p ∈ (Variable.element q index).properties
  | .store _, _ | .apply _, _ => False

/-- The use writes the property, also back from an argument by reference. -/
def Writes : Use → Property → Prop
  | .read o, p => ∃ (c : Call) (param : Param) (i : Nat), Operand.Within (.call c.1 c.2) o ∧
      ((param, some (.var (.property p))), i) ∈ Call.bindings c ∧ param.isByRef = true ∧ p.isReadonly = false
  | .store v, p => v = .property p
  | .apply _, _ => False

def Calls : Use → Method → Prop
  | .read o, m => ∃ args, Operand.Within (.call m args) o
  | .store _, _ => False
  | .apply m', m => m' = m

end Use

/-- The lookups of an operand. -/
def Emission.lookups (e : Emission) : List Lookup :=
  stepLookups e.pre ++ e.expr.lookups ++ stepLookups e.post

namespace Context

variable (x : Context)

theorem lookups_scalar (native : String) (v : Value) : ∀ e ∈ (x.scalar native v).value, e.lookups = [] := by
  fun_cases scalar x native v <;> simp [Status.expr, enumMember, Expr.bool, Expr.int]

theorem lookups_literalFor (ty : ValueType) (type : String) (text : Option String) :
    ∀ e ∈ literalFor ty type text, e.lookups = [] := by
  fun_cases literalFor ty type text <;> simp [Status.expr, enumMember, Expr.nil]

theorem lookups_getD {o : Option Expr} (h : ∀ e ∈ o, e.lookups = []) : (o.getD .nil).lookups = [] := by
  cases o with
  | none => rfl
  | some e => exact h e rfl

theorem lookups_capture (native : String) (v : Value) (field : String) :
    (x.capture native v field).value.lookups = [] := rfl

theorem lookups_constant (native : String) (v : Value) (slot : String) :
    (x.constant native v slot).value.expr.lookups = [] := by
  fun_cases constant x native v slot with
  | case1 => rfl
  | case2 => rfl
  | case3 => rfl
  | case4 => exact lookups_getD (x.lookups_scalar native v)

theorem lookups_assertedAgent (e : Expr) (className : String) :
    (assertedAgent e className).value.lookups = e.lookups := by
  rw [assertedAgent]
  split <;> rfl

theorem lookups_receiver (className : String) : (receiver className).value.lookups = [] :=
  lookups_assertedAgent agentVar className

theorem lookups_namedAgent (name className slot : String) :
    stepLookups (x.namedAgent name className slot).value.1 = [] ∧
      (x.namedAgent name className slot).value.2.lookups = [] := by
  rw [namedAgent]
  split
  · simp [lookups_assertedAgent, agentVar, lookupOf]
  · simp [lookups_receiver]

theorem lookups_ownerOf (slot : String) :
    stepLookups (x.ownerOf p slot).value.1 = [] ∧ (x.ownerOf p slot).value.2.lookups = [] := by
  rw [ownerOf]
  split
  · simp [lookups_receiver]
  · exact x.lookups_namedAgent _ _ slot

theorem lookups_stored (owner : Expr) (type : String) :
    (stored p owner type).lookups = p.lookup (getter p) [] :: owner.lookups := by
  simp [stored, lookupArgs, lookupOf, p.getter_mem, Property.lookup, Property.key, Property.variableId]

theorem lookups_memberAccess (h : owner.lookups = []) :
    (memberAccess p owner).value.lookups = [] := by
  rw [memberAccess]
  split
  · rfl
  · exact h

def indexLookups (i : Option Expr) : List Lookup := i.elim [] Expr.lookups

theorem lookups_indexed (e : Expr) (i : Option Expr) :
    (indexed e i).lookups = e.lookups ++ indexLookups i := by
  cases i <;> simp [indexed, indexLookups]

theorem value_checkId : (checkId p).value = p.check := rfl

theorem lookups_checks : stepLookups p.checks = [] := by
  rw [Property.checks]
  cases p.store? <;> rfl

theorem store?_eq_none {p : Property} (early : ¬ p.isLateBound = true) : p.store? = none :=
  Option.eq_none_iff_forall_ne_some.mpr fun _ h => early (Property.isLateBound_of_store? h)

theorem lookups_readFrom (h : owner.lookups = []) (i : Option Expr) :
    (x.readFrom p owner i).value.1 = p.checks ∧
      (x.readFrom p owner i).value.2.lookups = p.fetches ++ indexLookups i := by
  rw [readFrom]
  split
  · next late =>
    simp [lookups_indexed, lookups_stored, h, value_checkId, Property.checks, Property.fetches,
      Property.store?_of_isLateBound late]
  · next early =>
    simp [lookups_indexed, lookups_memberAccess p h, Property.checks, Property.fetches, store?_eq_none early]

/-- Storing in a property makes its lookups in one step, after its checks. -/
theorem lookups_writeTo (h : owner.lookups = []) (i : Option Expr)
    (value : Expr) : ∃ s, (x.writeTo p owner i value).value = p.checks ++ [s] ∧
      s.lookups = i.elim (p.puts value) (fun i => p.fetches ++ i.lookups) ++ value.lookups := by
  rw [writeTo]
  split
  · next late =>
    have store := Property.store?_of_isLateBound late
    cases i with
    | some i =>
      refine ⟨.assign (.index (stored p owner ("[]" ++ (x.goType p.type).value)) i) value, ?_, ?_⟩
      · simp [value_checkId, Property.checks, store]
      · simp [lookups_stored, h, Property.fetches, store]
    | none =>
      refine ⟨.eval (.call (.select owner (setter p)) (lookupArgs p ++ [value])), ?_, ?_⟩
      · simp [value_checkId, Property.checks, store]
      · simp [lookupOf, p.setter_mem, lookupArgs, h, Property.puts, store, Property.lookup, Property.key,
          Property.variableId]
  · next early =>
    have field := store?_eq_none early
    refine ⟨.assign (indexed (memberAccess p owner).value i) value, ?_, ?_⟩
    · simp [Property.checks, field]
    · cases i <;> simp [lookups_indexed, lookups_memberAccess p h, indexLookups, Property.puts,
        Property.fetches, field]

/-- Reading a variable checks its properties first and looks them up in the expression. -/
theorem lookups_readVariable : ∀ (v : Variable) (slot : String),
    stepLookups (x.readVariable v slot).value.pre = [] ∧
      (∀ p ∈ v.properties, p.checks ⊆ (x.readVariable v slot).value.pre) ∧
      (x.readVariable v slot).value.expr.lookups = v.fetches
  | .const native value, slot => by
      simp [readVariable, pre_constant, lookups_constant, Variable.properties, Variable.fetches]
  | .property p, slot => by
      have owner := x.lookups_ownerOf p slot
      have read := x.lookups_readFrom p owner.2 none
      simp [readVariable, owner, read, Variable.fetches, Variable.properties, indexLookups, lookups_checks]
  | .element p index, slot => by
      have owner := x.lookups_ownerOf p slot
      have place := lookups_readVariable index (indexSlot slot)
      have read := x.lookups_readFrom p owner.2 (some (x.readVariable index (indexSlot slot)).value.expr)
      simp only [readVariable, Emit.value_bind, Emit.value_pure, bind_readVariable, read, stepLookups_append,
        owner, place, lookups_checks, Variable.properties, forall_mem_cons]
      refine ⟨rfl, ⟨subset_append_right _ _, fun q hq => ?_⟩, ?_⟩
      · have inner := subset_append_of_subset_right (x.ownerOf p slot).value.1 (place.2.1 q hq)
        exact subset_append_of_subset_left _ inner
      · simp [indexLookups, place, Variable.fetches, Variable.properties]

/-- Storing in a variable checks its properties first and looks them up in the last step. -/
theorem lookups_writeVariable (place : v.isConst = false) (value : Expr) (slot : String) :
    ∃ setup s, (x.writeVariable v value slot).value = setup ++ [s] ∧ stepLookups setup = [] ∧
      (∀ p ∈ v.properties, p.checks ⊆ setup) ∧ s.lookups = v.puts value ++ value.lookups := by
  cases v with
  | const native constant => cases place
  | property p =>
    have owner := x.lookups_ownerOf p slot
    obtain ⟨s, write, lookups⟩ := x.lookups_writeTo p owner.2 none value
    refine ⟨(x.ownerOf p slot).value.1 ++ p.checks, s, ?_, ?_, ?_, lookups⟩
    · simp [writeVariable, write]
    · simp [owner, lookups_checks]
    · simp [Variable.properties]
  | element p index =>
    have owner := x.lookups_ownerOf p slot
    have read := x.lookups_readVariable index (indexSlot slot)
    obtain ⟨s, write, lookups⟩ :=
      x.lookups_writeTo p owner.2 (some (x.readVariable index (indexSlot slot)).value.expr) value
    refine ⟨(x.ownerOf p slot).value.1 ++ (x.readVariable index (indexSlot slot)).value.pre ++ p.checks, s,
      ?_, ?_, ?_, ?_⟩
    · simp [writeVariable, bind_readVariable, write]
    · simp [owner, read, lookups_checks]
    · rw [Variable.properties, forall_mem_cons]
      refine ⟨subset_append_right _ _, fun q hq => ?_⟩
      have inner := subset_append_of_subset_right (x.ownerOf p slot).value.1 (read.2.1 q hq)
      exact subset_append_of_subset_left _ inner
    · simpa [read, Variable.puts, Variable.fetches, Variable.properties] using lookups

/-! ### Lookups of operands -/

def Arguments.lookups (a : Arguments) : List Lookup :=
  stepLookups a.pre ++ Expr.allLookups a.exprs ++ stepLookups a.post

theorem mem_lookups_argumentsAt {b : Binding} (h : l ∈ (x.argumentAt slot b).lookups) :
    ∀ {bs : List Binding}, b ∈ bs →
    l ∈ (x.argumentsAt slot bs).lookups
  | b' :: bs, hb => by
      have either : l ∈ (x.argumentAt slot b').lookups ∨ l ∈ (x.argumentsAt slot bs).lookups := by
        rcases mem_cons.mp hb with rfl | hb
        · exact .inl h
        · exact .inr (mem_lookups_argumentsAt h hb)
      rw [argumentsAt, map_cons, Arguments.concat]
      simp only [Arguments.lookups, Arguments.append, stepLookups_append, Expr.allLookups_append,
        mem_append] at either ⊢
      tauto

theorem mem_lookups_callMethod {c : Call} {b : Binding} (hb : b ∈ Call.bindings c)
    (h : l ∈ (x.argumentAt slot b).lookups) : l ∈ (x.callMethod c slot).value.lookups := by
  have within := x.mem_lookups_argumentsAt h hb
  simp only [value_callMethod, Emission.lookups, Arguments.lookups, stepLookups_append, Expr.lookups,
    mem_append] at within ⊢
  tauto

/-- An argument makes all the lookups of its operand. -/
theorem mem_lookups_givenArgument (p : Param) {o : Operand} (h : l ∈ (x.operand o slot).value.lookups) :
    l ∈ (x.givenArgument p o slot).value.lookups := by
  rw [Emission.lookups] at h
  fun_cases givenArgument x p o slot with
  | case1 native value =>
    rw [operand, readVariable, pre_constant, lookups_constant, ← readVariable, post_readVariable] at h
    cases h
  | case2 v =>
    rw [operand, post_readVariable] at h
    rw [Emit.value_bind, value_variableArgument, Arguments.lookups]
    split
    · simpa using mem_append_left _ h
    · simpa using h
  | case3 m args =>
    rw [Emit.value_bind, Emit.value_pure, callArgument_eq, Emission.bind]
    split_ifs with byRef empty
    · simpa [Arguments.lookups] using h
    · rw [List.isEmpty_iff.mp empty] at h
      simpa [Arguments.lookups] using h
    · simpa [Arguments.lookups] using h

theorem mem_lookups_writeBack {p : Param} (byRef : p.isByRef = true) (writable : isWritable v = true)
    (h : l ∈ stepLookups (x.writeVariable v (.name slot) (slot ++ "Out")).value) :
    l ∈ (x.givenArgument p (.var v) slot).value.lookups := by
  have given : (x.givenArgument p (.var v) slot).value =
      (x.variableArgument p v (x.readVariable v slot).value slot).value := by
    cases v with
    | const native value => cases writable
    | property q => rfl
    | element q index => rfl
  rw [given, value_variableArgument, if_pos byRef, if_pos writable]
  exact mem_append_right _ h

/-- The use makes a lookup of the kind, at every slot. -/
def Performs (Q : Lookup → Prop) : Use → Prop
  | .read o => ∀ slot, ∃ l ∈ (x.operand o slot).value.lookups, Q l
  | .store v => ∀ value slot, ∃ l ∈ stepLookups (x.writeVariable v value slot).value, Q l
  | .apply _ => False

theorem performs_within {Q : Lookup → Prop} {inner o : Operand} (h : inner.Within o)
    (nested : x.Performs Q (.read inner)) : x.Performs Q (.read o) := by
  induction h with
  | refl => exact nested
  | argument bound rest ih =>
    intro slot
    obtain ⟨l, hl, ok⟩ := ih (argSlot slot _)
    exact ⟨l, x.mem_lookups_callMethod bound (x.mem_lookups_givenArgument _ hl), ok⟩

theorem mem_fetches {p : Property} (hp : p ∈ v.properties) (store : p.store? = some (get, set)) :
    p.lookup get [] ∈ v.fetches :=
  mem_flatMap.mpr ⟨p, hp, by simp [Property.fetches, store]⟩

/-- What reads a stored property makes the lookup that gets it. -/
theorem performs_reads {u : Use} {p : Property} (reads : u.Reads p) (store : p.store? = some (get, set)) :
    x.Performs (· = p.lookup get []) u := by
  cases u with
  | read o =>
    obtain ⟨v, within, hp⟩ := reads
    refine x.performs_within within fun slot => ⟨p.lookup get [], ?_, rfl⟩
    have fetched := mem_fetches hp store
    rw [← (x.lookups_readVariable v slot).2.2] at fetched
    exact mem_append_left _ (mem_append_right _ fetched)
  | store v =>
    cases v with
    | element q index =>
      intro value slot
      obtain ⟨setup, s, write, -, -, lookups⟩ :=
        x.lookups_writeVariable (v := .element q index) rfl value slot
      have fetched := mem_fetches reads store
      exact ⟨p.lookup get [], by simp [write, lookups, Variable.puts, fetched], rfl⟩
    | _ => cases reads
  | apply m => cases reads

/-- What writes a stored property makes the lookup that sets it. -/
theorem performs_writes {u : Use} {p : Property} (writes : u.Writes p) (store : p.store? = some (get, set)) :
    x.Performs (fun l => ∃ value, l = p.lookup set [value]) u := by
  have put (value : Expr) (slot : String) :
      p.lookup set [value] ∈ stepLookups (x.writeVariable (.property p) value slot).value := by
    obtain ⟨setup, s, write, -, -, lookups⟩ := x.lookups_writeVariable (v := .property p) rfl value slot
    simp [write, lookups, Variable.puts, Property.puts, store]
  cases u with
  | read o =>
    obtain ⟨c, param, i, within, bound, byRef, writable⟩ := writes
    refine x.performs_within within fun slot => ?_
    have written := put (.name (argSlot slot i)) (argSlot slot i ++ "Out")
    have given := x.mem_lookups_writeBack byRef (by simp [isWritable, Variable.property?, writable]) written
    exact ⟨_, x.mem_lookups_callMethod bound given, _, rfl⟩
  | store v =>
    obtain rfl := writes
    exact fun value slot => ⟨_, put value slot, value, rfl⟩
  | apply m => cases writes

end Context

/-! ### Lookups of bodies -/

theorem Built.lookups_iff {es : List Expr} {e : Expr} (h : Built es e) (l : Lookup) :
    l ∈ e.lookups ↔ l ∈ Expr.allLookups es := by
  induction h with
  | value e => simp
  | converted type part ih => exact ih
  | not part ih => exact ih
  | binary operator left right ihl ihr => simp [ihl, ihr, or_comm]
  | _ => exact Iff.rfl

/-- Whatever is done with the value of an operand, the lookups are those of the operand. -/
theorem Emission.lookups_around (e : Emission) {s : Step} (h : s.lookups = e.expr.lookups) :
    stepLookups (e.pre ++ [s] ++ e.post) = e.lookups := by
  simp [Emission.lookups, h]

theorem Emission.mem_lookups_bind {e : Emission} (h : l ∈ e.lookups) (name : String) :
    l ∈ stepLookups (e.bind name).1 ∨ l ∈ (e.bind name).2.lookups := by
  rw [Emission.lookups] at h
  rw [Emission.bind]
  split
  · next empty =>
    rw [List.isEmpty_iff.mp empty] at h
    simpa using h
  · left
    simpa using h

/-- The statements make a lookup of the kind, or one of the values that they leave does. -/
def Makes (Q : Lookup → Prop) (body : List Stmt) (es : List Expr) : Prop :=
  ∃ l, (l ∈ Stmt.allLookups body ∨ l ∈ Expr.allLookups es) ∧ Q l

section Makes

variable {Q : Lookup → Prop} {body more : List Stmt} {used es es' : List Expr} {e : Expr}

theorem Makes.ofSteps {steps : List Step} (h : l ∈ stepLookups steps) (ok : Q l) :
    Makes Q (body ++ steps.map .step) es :=
  ⟨l, .inl (by simp [h]), ok⟩

/-- More statements, which may use the values that are no longer left. -/
theorem Makes.append (h : Makes Q body es)
    (kept : ∀ l ∈ Expr.allLookups es, l ∈ Stmt.allLookups more ∨ l ∈ Expr.allLookups es') :
    Makes Q (body ++ more) es' := by
  obtain ⟨l, found, ok⟩ := h
  refine ⟨l, ?_, ok⟩
  rw [Stmt.allLookups_append, mem_append]
  rcases found with found | found
  · exact .inl (.inl found)
  · exact (kept l found).imp .inr id

/-- A statement with an expression that uses the values. -/
theorem Makes.use (h : Makes Q body (used ++ es)) (built : Built used e)
    (occurs : ∀ l ∈ e.lookups, l ∈ Stmt.allLookups more)
    (left : ∀ l ∈ Expr.allLookups es, l ∈ Expr.allLookups es') : Makes Q (body ++ more) es' := by
  refine h.append fun l hl => ?_
  rw [Expr.allLookups_append, mem_append] at hl
  exact hl.imp (fun hl => occurs l ((built.lookups_iff l).mpr hl)) (left l)

end Makes

def Placed (us : List Use) : Prop := ∀ v, Use.store v ∈ us → v.isConst = false

theorem Placed.left {us' : List Use} (h : Placed (us ++ us')) : Placed us :=
  fun v hv => h v (mem_append_left us' hv)

theorem Placed.right {us' : List Use} (h : Placed (us ++ us')) : Placed us' :=
  fun v hv => h v (mem_append_right us hv)

/-- Assembled code makes the lookups of all that it uses, if no value is dropped. -/
theorem Assembled.makes {x : Context} {Q : Lookup → Prop} {body : List Stmt}
    {es : List Expr} (h : Assembled x us body es) (placed : Placed us) :
    ∀ u ∈ us, x.Performs Q u → Makes Q body es := by
  -- a lookup stands in a step or in a value that is left, until the expression that uses the value takes it
  induction h with
  | nil => exact forall_mem_nil _
  | read part o slot name ih =>
    rw [forall_mem_append, forall_mem_singleton]
    refine ⟨fun u hu performs => ?_, fun performs => ?_⟩
    · have before := ih placed.left u hu performs
      exact before.append fun l hl => .inr (mem_append_right _ hl)
    · obtain ⟨l, hl, ok⟩ := performs slot
      rcases Emission.mem_lookups_bind hl name with hl | hl
      · exact .ofSteps hl ok
      · exact ⟨l, .inr (mem_append_left _ hl), ok⟩
  | keep part c slot y ih =>
    rw [forall_mem_append, forall_mem_singleton]
    refine ⟨fun u hu performs => ?_, fun performs => ?_⟩
    · have before := ih placed.left u hu performs
      exact before.append fun l hl => .inr hl
    · obtain ⟨l, hl, ok⟩ := performs slot
      rw [← Emission.lookups_around _ (s := .define y _) rfl] at hl
      exact .ofSteps hl ok
  | perform part c slot ih =>
    rw [forall_mem_append, forall_mem_singleton]
    refine ⟨fun u hu performs => ?_, fun performs => ?_⟩
    · have before := ih placed.left u hu performs
      exact before.append fun l hl => .inr hl
    · obtain ⟨l, hl, ok⟩ := performs slot
      rw [← Emission.lookups_around _ (s := .eval _) rfl] at hl
      exact .ofSteps hl ok
  | @store _ _ _ _ e part built v slot ih =>
    rw [forall_mem_append, forall_mem_singleton]
    refine ⟨fun u hu performs => ?_, fun performs => ?_⟩
    · have before := ih placed.left u hu performs
      have place := placed.right v (mem_singleton_self _)
      obtain ⟨setup, s, write, -, -, lookups⟩ := x.lookups_writeVariable place e slot
      refine before.use built (fun l hl => ?_) fun l => id
      simp [write, lookups, hl]
    · obtain ⟨l, hl, ok⟩ := performs e slot
      exact .ofSteps hl ok
  | apply part m ih =>
    rw [forall_mem_append, forall_mem_singleton]
    refine ⟨fun u hu performs => ?_, fun performs => performs.elim⟩
    obtain ⟨l, hl, ok⟩ := ih placed.left u hu performs
    exact ⟨l, hl.imp id fun hl => mem_append_right _ hl, ok⟩
  | define part built y ih =>
    intro u hu performs
    exact (ih placed u hu performs).use built (by simp) (by simp)
  | assign part built y ih =>
    intro u hu performs
    exact (ih placed u hu performs).use built (by simp) (by simp)
  | ret part built ih =>
    intro u hu performs
    exact (ih placed u hu performs).use built (by simp) (by simp)
  | giveUp part message ih =>
    intro u hu performs
    exact (ih placed u hu performs).append fun l => .inr
  | ifThen part built branch ih ihBranch =>
    rw [forall_mem_append]
    refine ⟨fun u hu performs => ?_, fun u hu performs => ?_⟩
    · have before := ih placed.left u hu performs
      exact before.use built (fun l hl => by simp [hl]) fun l => id
    · obtain ⟨l, hl, ok⟩ := ihBranch placed.right u hu performs
      exact ⟨l, .inl (by simpa using .inr (.inr (by simpa using hl))), ok⟩

end GoTrees
