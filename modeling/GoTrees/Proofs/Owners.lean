import GoTrees.Proofs.Contacts
import GoTrees.Proofs.LateBound

/-!
# Owners of members

A method or a property belongs to an agent: the running one, a global instance, or a member of the running
one. The contacts that the operands of an item ask for are counted from their owners alone, the contacts of a
method are found in its code. Every operand makes the contacts that it asks for, whatever is nested in it, and
so do methods, each contact as often as it is asked for. Only a functor which gets the result of another method
is always called on the running agent.
-/

namespace GoTrees

open Go Slot List

variable (p : Property) {e owner : Expr} {g : Agents} {a : Holder} {x : Context} {m : Method}

/-! ### Contacts that operands ask for -/

namespace Context

variable (x : Context)

/-- The agent that an owner means. -/
def holder : Owner → Holder
  | .running => .running
  | .named a => if x.catalog.isInstance a then .global a else .member (memberName a)

/-- The contacts that it takes to get hold of an owner: a member is read from the running agent. -/
def approach : Owner → List Contact
  | .running => []
  | .named a => if x.catalog.isInstance a then [] else [⟨some .running, memberName a, ""⟩]

end Context

/-- The contact with a property by a method of its store, or with its field. A static property that is no
property of a store is a variable of its package. -/
def Property.contact (p : Property) (agent : Holder) (method : String) : List Contact :=
  if p.isLateBound then [⟨some agent, method, p.basicName⟩]
  else if p.isStatic then []
  else [⟨some agent, memberName p.basicName, ""⟩]

namespace Variable

def reads (x : Context) : Variable → List Contact
  | .const .. => []
  | .property p => x.approach p.owner ++ p.contact (x.holder p.owner) (Context.getter p)
  | .element p index =>
    x.approach p.owner ++ p.contact (x.holder p.owner) (Context.getter p) ++ index.reads x

/-- The contacts that it takes to write a variable; an element is written through its array. -/
def writes (x : Context) : Variable → List Contact
  | .property p => x.approach p.owner ++ p.contact (x.holder p.owner) (Context.setter p)
  | v => v.reads x

end Variable

/-- The contacts that it takes to call a method. -/
def Method.contacts (x : Context) (m : Method) : List Contact :=
  x.approach m.owner ++ [⟨some (x.holder m.owner), memberName m.name, ""⟩]

/-- The contacts that it takes to write an argument back after the call. -/
def Operand.returned (x : Context) (p : Param) : Operand → List Contact
  | .var v => if p.isByRef && Context.isWritable v then v.writes x else []
  | .call .. => []

mutual

/-- The contacts that it takes to evaluate an operand. -/
def Operand.contacts (x : Context) : Operand → List Contact
  | .var v => v.reads x
  | .call m args => m.contacts x ++ Operand.allContacts x m.params args

def Operand.allContacts (x : Context) : List Param → List (Option Operand) → List Contact
  | p :: params, some o :: args => o.contacts x ++ o.returned x p ++ Operand.allContacts x params args
  | _ :: params, none :: args => Operand.allContacts x params args
  | [], _ | _ :: _, [] => []

end

def bindingContacts (x : Context) (b : Param × Option Operand) : List Contact :=
  b.2.elim [] fun o => o.contacts x ++ o.returned x b.1

theorem Operand.allContacts_eq (x : Context) : ∀ (params : List Param) (args : List (Option Operand)),
    Operand.allContacts x params args = (bindings params args).flatMap (bindingContacts x)
  | [], _ => by simp [Operand.allContacts, bindings]
  | p :: params, [] => by
      have rest := Operand.allContacts_eq x params []
      have none : Operand.allContacts x params [] = [] := by cases params <;> rfl
      rw [bindings, flatMap_cons, ← rest, none]
      rfl
  | p :: params, none :: args => by
      rw [Operand.allContacts, bindings, flatMap_cons, Operand.allContacts_eq x params args]
      rfl
  | p :: params, some o :: args => by
      rw [Operand.allContacts, bindings, flatMap_cons, Operand.allContacts_eq x params args]
      rfl

theorem Operand.contacts_call (x : Context) (c : Call) : (Operand.call c.1 c.2).contacts x =
    c.1.contacts x ++ (Call.bindings c).flatMap fun b => bindingContacts x b.1 := by
  rw [Operand.contacts, Operand.allContacts_eq, Call.bindings]
  conv_lhs => rw [← zipIdx_map_fst 0 (bindings c.1.params c.2), flatMap_map]

/-! ### Parts of methods -/

/-- Steps, expressions and later steps make these contacts, by a table that is right about the steps. -/
def Reaching (g : Agents) (pre : List Step) (es : List Expr) (post : List Step) (cs : List Contact) : Prop :=
  Honest g pre → Honest g post →
    (stepContacts g pre ++ Expr.allContacts g es ++ stepContacts g post).Perm cs

namespace Reaching

variable {g : Agents} {pre pre' post post' : List Step} {es es' : List Expr} {cs cs' : List Contact}

theorem count (t : Reaching g pre es post cs) (before : Honest g pre) (after : Honest g post) (c : Contact) :
    (stepContacts g pre).count c + (Expr.allContacts g es).count c + (stepContacts g post).count c =
      cs.count c := by
  rw [← (t before after).count_eq c, count_append, count_append]

theorem of_count (h : Honest g pre → Honest g post → ∀ c, (stepContacts g pre).count c +
      (Expr.allContacts g es).count c + (stepContacts g post).count c = cs.count c) :
    Reaching g pre es post cs := by
  intro before after
  rw [perm_iff_count]
  intro c
  rw [count_append, count_append, h before after c]

theorem append (t : Reaching g pre es post cs) (t' : Reaching g pre' es' post' cs') :
    Reaching g (pre ++ pre') (es ++ es') (post ++ post') (cs ++ cs') := by
  refine of_count fun before after c => ?_
  obtain ⟨b, b'⟩ := honest_append.mp before
  obtain ⟨a, a'⟩ := honest_append.mp after
  have first := t.count b a c
  have second := t'.count b' a' c
  simp only [stepContacts_append, Expr.allContacts_append, count_append]
  omega

theorem step {s : Step} (t : Reaching g pre es post cs) (h : s.contacts g = Expr.allContacts g es)
    (none : Expr.allContacts g es' = []) : Reaching g (pre ++ [s]) es' post cs := by
  refine of_count fun before after c => ?_
  have whole := t.count (honest_append.mp before).1 after c
  simp only [stepContacts_append, stepContacts_cons, stepContacts_nil, List.append_nil, h, count_append,
    none, count_nil]
  omega

/-- The value held in a variable. -/
theorem hold (t : Reaching g pre [e] post cs) (y : String)
    (none : Expr.allContacts g es' = []) : Reaching g (pre ++ [.define y e]) es' post cs :=
  t.step (by simp) none

/-- The value is not used. -/
theorem eval (t : Reaching g pre [e] post cs) : Reaching g (pre ++ [.eval e]) [] post cs :=
  t.step (by simp) rfl

/-- The later steps moved to the end of the first ones. -/
theorem settle (t : Reaching g pre es post cs) : Reaching g (pre ++ post) es [] cs := by
  refine of_count fun before _ c => ?_
  have whole := t.count (honest_append.mp before).1 (honest_append.mp before).2 c
  simp only [stepContacts_append, count_append, stepContacts_nil, count_nil]
  omega

/-- Later steps after those that are there. -/
theorem follow (t : Reaching g pre es [] cs) (t' : Reaching g post [] [] cs') :
    Reaching g pre es post (cs ++ cs') := by
  refine of_count fun before after c => ?_
  have first := t.count before (honest_nil g) c
  have second := t'.count after (honest_nil g) c
  simp only [count_append, stepContacts_nil, Expr.allContacts, count_nil] at first second ⊢
  omega

theorem finish {steps : List Step} (t : Reaching g pre es [] cs) (own : List Contact)
    (made : Honest g pre →
      (stepContacts g steps ++ Expr.allContacts g es').Perm (own ++ Expr.allContacts g es))
    (all : cs'.Perm (cs ++ own)) : Reaching g (pre ++ steps) es' [] cs' := by
  refine of_count fun before after c => ?_
  obtain ⟨honest, _⟩ := honest_append.mp before
  have whole := t.count honest after c
  have more := (made honest).count_eq c
  have total := all.count_eq c
  simp only [count_append, stepContacts_append, stepContacts_nil, count_nil] at *
  omega

end Reaching

theorem Emission.reaching_bind {e : Emission} {cs : List Contact}
    (t : Reaching g e.pre [e.expr] e.post cs) (name : String) :
    Reaching g (e.bind name).1 [(e.bind name).2] [] cs := by
  rw [Emission.bind]
  split
  · next h =>
    rw [List.isEmpty_iff.mp h] at t
    exact t
  · exact (t.hold name rfl).settle

/-! ### Owners -/

theorem isAgentName_agent (slot : String) : isAgentName (agent slot) = true := by
  simp [isAgentName, agent, String.toList_append]

theorem Go.Expr.agent?_name (h : Agents) (slot : String) :
    (Expr.name (agent slot)).agent? h = h (agent slot) := by
  have other : agent slot ≠ "agent" := by
    intro same
    have letters := congrArg String.toList same
    simp [agent, String.toList_append] at letters
  rw [Expr.agent?, if_neg other, if_pos (isAgentName_agent slot)]

theorem Go.Expr.contacts_of_agent? {h : Agents} : ∀ {e : Expr}, e.agent? h = some a → ∀ key,
    e.contacts h key = [] ∧ e.isReceiver = false
  | .name y, found, _ => by
      refine ⟨by simp, ?_⟩
      rw [Expr.isReceiver, beq_eq_false_iff_ne]
      rintro rfl
      cases found
  | .asserted e _, found, _ => ⟨(contacts_of_agent? (e := e) found "").1, rfl⟩

theorem Go.Expr.contacts_select {h : Agents} (found : e.agent? h = some a)
    (field key : String) : (Expr.select e field).contacts h key = [⟨some a, field, key⟩] := by
  obtain ⟨none, other⟩ := Expr.contacts_of_agent? found ""
  simp [none, other, found]

namespace Context

variable (x : Context) {g : Agents}

theorem agent?_assertedAgent (e : Expr) (className : String) :
    (assertedAgent e className).value.agent? g = e.agent? g := by
  rw [assertedAgent]
  split <;> rfl

theorem agent?_receiver (className : String) : (receiver className).value.agent? g = some .running :=
  agent?_assertedAgent agentVar className

/-- A named agent is a global one or a member of the running agent. -/
theorem agent?_namedAgent (name className slot : String)
    (honest : Honest g (x.namedAgent name className slot).value.1) :
    (x.namedAgent name className slot).value.2.agent? g = some (x.holder (.named name)) ∧
      stepContacts g (x.namedAgent name className slot).value.1 = x.approach (.named name) := by
  have named := isAgentName_agent slot
  rw [namedAgent] at honest ⊢
  rw [holder, approach]
  split at honest
  · have held := honest (agent slot) _ (mem_singleton_self _) named
    simp only [if_pos ‹x.catalog.isInstance name = true›]
    refine ⟨?_, rfl⟩
    rw [Emit.value_bind, Emit.value_bind, Emit.value_pure, agent?_assertedAgent, ← agent,
      Expr.agent?_name, held]
    rfl
  · have held := honest (agent slot) _ (mem_singleton_self _) named
    simp only [if_neg ‹¬ x.catalog.isInstance name = true›]
    refine ⟨?_, ?_⟩
    · refine (Expr.agent?_name g slot).trans (held.trans ?_)
      rw [Expr.origin?, agent?_receiver]
      rfl
    · have read := Expr.contacts_select (agent?_receiver (g := g) x.agentType) (memberName name) ""
      exact congrArg (· ++ []) read

theorem agent?_ownerOf (slot : String) (honest : Honest g (x.ownerOf p slot).value.1) :
    (x.ownerOf p slot).value.2.agent? g = some (x.holder p.owner) ∧
      stepContacts g (x.ownerOf p slot).value.1 = x.approach p.owner := by
  rw [ownerOf] at honest ⊢
  cases owner : p.owner with
  | running => exact ⟨agent?_receiver _, rfl⟩
  | named a =>
    rw [owner] at honest
    exact x.agent?_namedAgent a _ slot honest

/-! ### Properties -/

def indexContacts (g : Agents) (i : Option Expr) : List Contact := i.elim [] (Expr.contacts g "")

theorem contacts_indexed (e : Expr) (i : Option Expr) :
    (indexed e i).contacts g "" = e.contacts g "" ++ indexContacts g i := by
  cases i <;> simp [indexed, indexContacts]

theorem contacts_stored (found : owner.agent? g = some a)
    (type : String) : (stored p owner type).contacts g "" = [⟨some a, getter p, p.basicName⟩] := by
  rw [stored, Expr.contacts, Expr.contacts, Expr.contacts_select found]
  rfl

theorem contacts_memberAccess (found : owner.agent? g = some a) :
    (memberAccess p owner).value.contacts g "" =
      if p.isStatic then [] else [⟨some a, memberName p.basicName, ""⟩] := by
  rw [memberAccess]
  split
  · rfl
  · exact Expr.contacts_select found _ _

theorem contacts_readFrom (found : owner.agent? g = some a)
    (i : Option Expr) : stepContacts g (x.readFrom p owner i).value.1 = [] ∧
      (x.readFrom p owner i).value.2.contacts g "" = p.contact a (getter p) ++ indexContacts g i := by
  rw [readFrom, Property.contact]
  split
  · refine ⟨rfl, ?_⟩
    exact (contacts_indexed _ i).trans (congrArg (· ++ indexContacts g i) (contacts_stored p found _))
  · refine ⟨rfl, ?_⟩
    exact (contacts_indexed _ i).trans (congrArg (· ++ indexContacts g i) (contacts_memberAccess p found))

theorem contacts_writeTo (found : owner.agent? g = some a)
    (i : Option Expr) (value : Expr) : stepContacts g (x.writeTo p owner i value).value =
      p.contact a (if i.isSome then getter p else setter p) ++ indexContacts g i ++ value.contacts g "" := by
  rw [writeTo, Property.contact]
  split
  · cases i with
    | some i =>
      have array := contacts_stored p found ("[]" ++ (x.goType p.type).value)
      simp [checkId, lookupArgs, indexContacts, array]
    | none =>
      obtain ⟨none, other⟩ := Expr.contacts_of_agent? found ""
      simp [checkId, lookupArgs, indexContacts, keyOf, found, none, other]
  · have field := contacts_memberAccess p found
    simp [contacts_indexed, field]

/-! ### Variables -/

theorem contacts_scalar (native : String) (v : Value) :
    ∀ e ∈ (x.scalar native v).value, e.contacts g "" = [] := by
  fun_cases scalar x native v <;> simp [Status.expr, enumMember, Expr.bool, Expr.int]

theorem contacts_literalFor (ty : ValueType) (type : String) (text : Option String) :
    ∀ e ∈ literalFor ty type text, e.contacts g "" = [] := by
  fun_cases literalFor ty type text <;> simp [Status.expr, enumMember, Expr.nil]

theorem contacts_getD {o : Option Expr} (h : ∀ e ∈ o, e.contacts g "" = []) :
    (o.getD .nil).contacts g "" = [] := by
  cases o with
  | none => rfl
  | some e => exact h e rfl

theorem contacts_capture (native : String) (v : Value) (field : String) :
    (x.capture native v field).value.contacts g "" = [] := rfl

theorem contacts_constant (native : String) (v : Value) (slot : String) :
    (x.constant native v slot).value.expr.contacts g "" = [] := by
  fun_cases constant x native v slot with
  | case1 => rfl
  | case2 => rfl
  | case3 => rfl
  | case4 => exact contacts_getD (x.contacts_scalar native v)

theorem reaching_ownerOf (slot : String) :
    Reaching g (x.ownerOf p slot).value.1 [] [] (x.approach p.owner) := by
  intro honest _
  rw [(x.agent?_ownerOf p slot honest).2]
  simp

/-- Reading a variable reaches the owners of its properties. -/
theorem reaching_readVariable : ∀ (v : Variable) (slot : String),
    Reaching g (x.readVariable v slot).value.pre [(x.readVariable v slot).value.expr] [] (v.reads x)
  | .const native value, slot => by
      intro _ _
      rw [readVariable, pre_constant, Expr.allContacts, contacts_constant]
      exact .nil
  | .property p, slot => by
      rw [readVariable]
      simp only [Emit.value_bind, Emit.value_pure]
      refine (x.reaching_ownerOf p slot).finish (p.contact (x.holder p.owner) (getter p)) ?_ (.refl _)
      intro honest
      obtain ⟨quiet, contact⟩ := x.contacts_readFrom p (x.agent?_ownerOf p slot honest).1 none
      simp [quiet, contact, indexContacts]
  | .element p index, slot => by
      have place := (x.reaching_ownerOf p slot).append (reaching_readVariable index (indexSlot slot))
      rw [readVariable]
      simp only [Emit.value_bind, Emit.value_pure, bind_readVariable]
      refine place.finish (p.contact (x.holder p.owner) (getter p)) ?_ ?_
      · intro honest
        have found := (x.agent?_ownerOf p slot (honest_append.mp honest).1).1
        obtain ⟨quiet, contact⟩ := x.contacts_readFrom p found
          (some (x.readVariable index (indexSlot slot)).value.expr)
        simp [quiet, contact, indexContacts]
      · rw [Variable.reads, List.append_assoc, List.append_assoc]
        exact perm_append_comm.append_left _

/-- Storing in a variable reaches the owners of its properties. -/
theorem reaching_writeVariable {v : Variable} (place : v.isConst = false) (value : Expr) (slot : String) :
    Reaching g (x.writeVariable v value slot).value [] [] (v.writes x ++ value.contacts g "") := by
  cases v with
  | const native constant => cases place
  | property p =>
    refine (x.reaching_ownerOf p slot).finish
      (p.contact (x.holder p.owner) (setter p) ++ value.contacts g "") ?_ ?_
    · intro honest
      have contact := x.contacts_writeTo p (x.agent?_ownerOf p slot honest).1 none value
      simp [contact, indexContacts]
    · rw [Variable.writes, List.append_assoc]
  | element p index =>
    have element := (x.reaching_ownerOf (g := g) p slot).append
      (x.reaching_readVariable index (indexSlot slot))
    rw [writeVariable]
    simp only [Emit.value_bind, Emit.value_pure, bind_readVariable]
    refine element.finish (p.contact (x.holder p.owner) (getter p) ++ value.contacts g "") ?_ ?_
    · intro honest
      have found := (x.agent?_ownerOf p slot (honest_append.mp honest).1).1
      have contact := x.contacts_writeTo p found
        (some (x.readVariable index (indexSlot slot)).value.expr) value
      rw [contact, Expr.allContacts, List.append_nil, List.append_assoc, List.append_assoc]
      exact (perm_append_comm.trans (by simp [indexContacts])).append_left _
    · rw [Variable.writes, Variable.reads]
      · refine perm_iff_count.mpr fun c => ?_
        simp only [count_append]
        omega
      · rintro _ ⟨⟩

/-! ### Calls -/

theorem keyOf_argumentsAt (slot : String) (bs : List Binding) : keyOf (x.argumentsAt slot bs).exprs = "" := by
  rw [exprs_argumentsAt]
  cases bs with
  | nil => rfl
  | cons b bs =>
    rw [map_cons]
    cases first : x.argumentExpr slot b with
    | string name => exact x.nameless_argument slot b first
    | _ => rfl

/-- What a parameter adds to a call makes the contacts of the argument and of its write-back. -/
theorem reaching_argumentAt (slot : String) (b : Binding)
    (nested : ∀ o, b.1.2 = some o → ∀ s, Reaching g (x.operand o s).value.pre [(x.operand o s).value.expr]
      (x.operand o s).value.post (o.contacts x)) :
    Reaching g (x.argumentAt slot b).pre (x.argumentAt slot b).exprs (x.argumentAt slot b).post
      (bindingContacts x b.1) := by
  obtain ⟨⟨p, o⟩, i⟩ := b
  cases o with
  | none =>
    have none : _ = [] := contacts_getD
      (contacts_literalFor (g := g) (x.catalog.classify p.type) (x.goType p.type).value none)
    rw [← value_defaultLiteral] at none
    intro _ _
    simp [argumentAt, unboundArgument, none, bindingContacts]
  | some o =>
    have operand := nested o rfl (argSlot slot i)
    rw [argumentAt]
    fun_cases givenArgument x p o (argSlot slot i) with
    | case1 native value =>
      have field := x.contacts_capture (g := g) native value (argSlot slot i)
      intro _ _
      rw [value_constArgument]
      split <;> simp [field, bindingContacts, Operand.contacts, Variable.reads, Operand.returned, isWritable,
        Variable.property?]
    | case2 v notConst =>
      have read := x.reaching_readVariable (g := g) v (argSlot slot i)
      rw [Emit.value_bind, value_variableArgument]
      simp only [bindingContacts, Option.elim, Operand.contacts, Operand.returned]
      cases p.isByRef with
      | false => simpa using read
      | true =>
        cases writable : isWritable v with
        | false => simpa using read.hold (argSlot slot i) rfl
        | true =>
          have place : v.isConst = false := by
            cases v with
            | const native value => exact absurd rfl (notConst native value)
            | _ => rfl
          have back := x.reaching_writeVariable (g := g) place (.name (argSlot slot i))
            (argSlot slot i ++ "Out")
          rw [Expr.contacts, List.append_nil] at back
          exact (read.hold (argSlot slot i) rfl).follow back
    | case3 m args =>
      rw [Emit.value_bind, Emit.value_pure, callArgument_eq]
      simp only [bindingContacts, Option.elim, Operand.returned, List.append_nil]
      split
      · exact (operand.hold (argSlot slot i) rfl).settle
      · exact Emission.reaching_bind operand (argSlot slot i)

theorem reaching_argumentsAt (slot : String) : ∀ bs : List Binding,
    (∀ b ∈ bs, Reaching g (x.argumentAt slot b).pre (x.argumentAt slot b).exprs (x.argumentAt slot b).post
      (bindingContacts x b.1)) →
    Reaching g (x.argumentsAt slot bs).pre (x.argumentsAt slot bs).exprs (x.argumentsAt slot bs).post
      (bs.flatMap fun b => bindingContacts x b.1)
  | [], _ => fun _ _ => .nil
  | b :: bs, h =>
    (h b mem_cons_self).append (reaching_argumentsAt slot bs fun b' hb' => h b' (mem_cons_of_mem _ hb'))

theorem contacts_callee (m : Method) (slot key : String) (honest : Honest g (x.callee m slot).1) :
    stepContacts g (x.callee m slot).1 = x.approach m.owner ∧
      (x.callee m slot).2.contacts g key = [⟨some (x.holder m.owner), memberName m.name, key⟩] := by
  rw [callee] at honest ⊢
  cases owner : m.owner with
  | running => exact ⟨rfl, Expr.contacts_select (agent?_receiver m.className) _ _⟩
  | named a =>
    rw [owner] at honest
    obtain ⟨found, approach⟩ := x.agent?_namedAgent a m.className slot honest
    exact ⟨approach, Expr.contacts_select found _ _⟩

theorem reaching_callMethod (c : Call) (slot : String) (nested : ∀ b ∈ Call.bindings c, ∀ o, b.1.2 = some o →
      ∀ s, Reaching g (x.operand o s).value.pre [(x.operand o s).value.expr] (x.operand o s).value.post
        (o.contacts x)) :
    Reaching g (x.callMethod c slot).value.pre [(x.callMethod c slot).value.expr]
      (x.callMethod c slot).value.post ((Operand.call c.1 c.2).contacts x) := by
  have args := x.reaching_argumentsAt slot (Call.bindings c) fun b hb =>
    x.reaching_argumentAt slot b (nested b hb)
  rw [value_callMethod, Operand.contacts_call, Method.contacts]
  refine .of_count fun before after k => ?_
  obtain ⟨honest, rest⟩ := honest_append.mp before
  obtain ⟨approach, contact⟩ := x.contacts_callee c.1 slot "" honest
  have given := args.count rest after k
  simp only [stepContacts_append, Expr.allContacts, Expr.contacts, keyOf_argumentsAt, approach, contact,
    count_append, count_nil]
  omega

/-- An operand makes the contacts that it takes, whatever is nested in it. -/
theorem reaching_operand (o : Operand) : ∀ slot, Reaching g (x.operand o slot).value.pre
    [(x.operand o slot).value.expr] (x.operand o slot).value.post (o.contacts x) := by
  induction o using Operand.nested_induction with
  | var v =>
    intro slot
    have read := x.reaching_readVariable (g := g) v slot
    rw [operand, post_readVariable, Operand.contacts]
    exact read
  | call m args ih =>
    intro slot
    refine x.reaching_callMethod (m, args) slot ?_
    rintro ⟨⟨p, o'⟩, i⟩ hb o rfl
    exact ih o (mem_of_getElem? (Option.join_eq_some_iff.mp (Call.mem_bindings.mp hb).2))

end Context

/-! ### Bodies -/

namespace Use

def contacts (x : Context) : Use → List Contact
  | .read o => o.contacts x
  | .store v => v.writes x
  | .apply m => m.contacts x

/-- The contacts that a use makes. A functor that gets a result is called on the running agent. -/
def made (x : Context) : Use → List Contact
  | .apply m => [⟨some .running, memberName m.name, ""⟩]
  | u => u.contacts x

end Use

theorem Built.count_contacts {used : List Expr} (built : Built used e) (c : Contact) :
    (e.contacts g "").count c = (Expr.allContacts g used).count c := by
  induction built with
  | value e => simp
  | literal _ | string _ | running => simp [agentVar]
  | status s => simp [Status.expr]
  | converted type part ih => simpa using ih
  | not part ih => simpa using ih
  | binary operator left right ihLeft ihRight =>
    simp only [Expr.contacts, Expr.allContacts_append, count_append, ihLeft, ihRight]
    omega

/-- The statements and the values that they leave make the contacts of the uses. The contacts of a value are
dropped with it if it is stored in a constant. -/
structure Met (x : Context) (g : Agents) (us : List Use) (body : List Stmt) (es : List Expr) : Prop where
  within : ∀ c, (Stmt.allContactsBy g body).count c + (Expr.allContacts g es).count c ≤
    (us.flatMap (Use.made x)).count c
  exact : Placed us → ∀ c, (Stmt.allContactsBy g body).count c + (Expr.allContacts g es).count c =
    (us.flatMap (Use.made x)).count c

section Bodies

variable {x : Context} {g : Agents} {us us' : List Use} {body more : List Stmt} {es es' : List Expr}

theorem Met.add (m : Met x g us body es) (h : ∀ c, (Stmt.allContactsBy g more).count c +
      (Expr.allContacts g es').count c = (us'.flatMap (Use.made x)).count c +
        (Expr.allContacts g es).count c) : Met x g (us ++ us') (body ++ more) es' where
  within := by
    intro c
    have before := m.within c
    have after := h c
    simp only [Stmt.allContactsBy_append, flatMap_append, count_append]
    omega
  exact := by
    intro placed c
    have before := m.exact placed.left c
    have after := h c
    simp only [Stmt.allContactsBy_append, flatMap_append, count_append]
    omega

theorem Met.steps {o : Operand} {ss : List Step} {left : List Expr} (m : Met x g us body es)
    (t : Reaching g ss left [] (o.contacts x)) (honest : Honest g ss) :
    Met x g (us ++ [.read o]) (body ++ ss.map .step) (left ++ es) := by
  refine m.add fun c => ?_
  have whole := t.count honest (honest_nil g) c
  simp only [Stmt.allContactsBy_steps, Expr.allContacts_append, count_append, flatMap_cons,
    flatMap_nil, Use.made, Use.contacts, List.append_nil, stepContacts_nil, count_nil] at whole ⊢
  omega

/-- A statement that uses values. -/
theorem Met.use {used : List Expr} {s : Stmt} (m : Met x g us body (used ++ es))
    (built : Built used e) (h : s.contactsBy g = e.contacts g "")
    (left : Expr.allContacts g es' = Expr.allContacts g es) : Met x g us (body ++ [s]) es' := by
  have added : Met x g (us ++ []) (body ++ [s]) es' := m.add fun c => by
    have same := built.count_contacts (g := g) c
    simp [h, left, same]
  simpa using added

theorem honest_steps {ss : List Step} : Honest g (Stmt.allInner (body ++ ss.map .step)) ↔
    Honest g (Stmt.allInner body) ∧ Honest g ss := by
  rw [Stmt.allInner_append, Stmt.allInner_map_step, honest_append]

end Bodies

theorem contacts_functorCall (g : Agents) (m : Method) (y : String) :
    (functorCall m y).contacts g "" = [⟨some .running, memberName m.name, ""⟩] := by
  rw [functorCall, Expr.contacts, Expr.contacts_select (Context.agent?_receiver m.className)]
  rfl

/-- Assembled code makes the contacts of all that it uses, but for values that it drops. -/
theorem Assembled.met {us : List Use} {body : List Stmt} {es : List Expr}
    (h : Assembled x us body es) (honest : Honest g (Stmt.allInner body)) : Met x g us body es := by
  -- a value is left until a later statement uses it, and its contacts are counted with the values until then
  induction h with
  | nil => exact ⟨fun _ => Nat.le_refl _, fun _ _ => rfl⟩
  | read part o slot name ih =>
    obtain ⟨before, steps⟩ := honest_steps.mp honest
    exact (ih before).steps (Emission.reaching_bind (x.reaching_operand o slot) name) steps
  | keep part c slot y ih =>
    obtain ⟨before, steps⟩ := honest_steps.mp honest
    have call : Reaching g _ [.name y] _ _ := (x.reaching_operand (.call c.1 c.2) slot).hold y rfl
    exact (ih before).steps call.settle steps
  | perform part c slot ih =>
    obtain ⟨before, steps⟩ := honest_steps.mp honest
    exact (ih before).steps (x.reaching_operand (.call c.1 c.2) slot).eval.settle steps
  | @store us body used es e part built v slot ih =>
    obtain ⟨before, steps⟩ := honest_steps.mp honest
    have m := ih before
    cases place : v.isConst with
    | true =>
      have none : (x.writeVariable v e slot).value = [] := by
        cases v with
        | const native constant => rfl
        | _ => cases place
      refine ⟨fun c => ?_, fun placed => ?_⟩
      · have fewer := m.within c
        simp only [none, map_nil, List.append_nil, Expr.allContacts_append, count_append,
          flatMap_append] at fewer ⊢
        omega
      · have kept := placed v (mem_append_right us (mem_singleton_self _))
        simp [place] at kept
    | false =>
      refine m.add fun c => ?_
      have stored := (x.reaching_writeVariable (g := g) place e slot).count steps (honest_nil g) c
      have value := built.count_contacts (g := g) c
      simp only [count_append, Expr.allContacts, stepContacts_nil, count_nil, Expr.allContacts_append,
        Stmt.allContactsBy_steps, flatMap_cons, flatMap_nil, List.append_nil, Use.made,
        Use.contacts] at stored ⊢
      omega
  | @apply us body es y part m ih =>
    have added : Met x g (us ++ [.apply m]) (body ++ []) (functorCall m y :: es) := (ih honest).add fun c => by
      simp [contacts_functorCall, Use.made, count_cons, Nat.add_comm]
    simpa using added
  | define part built y ih =>
    exact (ih (honest_append.mp (Stmt.allInner_append _ _ ▸ honest)).1).use built rfl rfl
  | assign part built y ih =>
    exact (ih (honest_append.mp (Stmt.allInner_append _ _ ▸ honest)).1).use built (by simp) rfl
  | ret part built ih =>
    exact (ih (honest_append.mp (Stmt.allInner_append _ _ ▸ honest)).1).use built rfl rfl
  | @giveUp us body es part message ih =>
    have added : Met x g (us ++ []) (body ++ [NodeRecipe.giveUp message]) es :=
      (ih (honest_append.mp (Stmt.allInner_append _ _ ▸ honest)).1).add fun c => by
        simp [NodeRecipe.giveUp]
    simpa using added
  | @ifThen us us' body inner used es e part built branch ih ihBranch =>
    rw [Stmt.allInner_append, honest_append] at honest
    have m := ih honest.1
    have b := ihBranch (by simpa [Stmt.allInner, Stmt.inner] using honest.2)
    refine ⟨fun c => ?_, fun placed c => ?_⟩
    · have outside := m.within c
      have inside := b.within c
      have value := built.count_contacts (g := g) c
      simp only [Stmt.allContactsBy_append, Stmt.allContactsBy, Stmt.contactsBy, Expr.allContacts_append,
        Expr.allContacts, count_append, count_nil, flatMap_append] at outside inside ⊢
      omega
    · have outside := m.exact placed.left c
      have inside := b.exact placed.right c
      have value := built.count_contacts (g := g) c
      simp only [Stmt.allContactsBy_append, Stmt.allContactsBy, Stmt.contactsBy, Expr.allContacts_append,
        Expr.allContacts, count_append, count_nil, flatMap_append] at outside inside ⊢
      omega

/-! ### Methods -/

/-- A functor is applied to the result of the one call that an action makes. -/
theorem Action.uses_apply {a : Action} (h : .apply m ∈ a.uses x) :
    ∃ o, a.uses x = [.read o, .apply m] := by
  rw [Action.uses] at h ⊢
  cases method : a.method with
  | none => simp [method] at h
  | some c =>
    by_cases status : x.catalog.classify c.1.result = .status
    · simp [method, status] at h
    · have functor : .apply m ∈ a.functorUses (x.catalog.classify c.1.result = .void) := by
        simpa [method, status] using h
      have only : a.functorUses (x.catalog.classify c.1.result = .void) = [.apply m] := by
        rw [Action.functorUses] at functor ⊢
        split at functor
        · split_ifs at functor ⊢ <;> simp_all
        · cases functor
      exact ⟨.call c.1 c.2, by simp [status, only]⟩

theorem NodeKind.uses_apply {k : NodeKind} :
    .apply m ∈ k.uses x → ∃ o, k.uses x = [.read o, .apply m] := by
  fun_cases NodeKind.uses x k <;> first | exact Action.uses_apply | simp

theorem AttachAction.uses_apply (a : AttachAction) (m : Method) : .apply m ∉ a.uses := by
  fun_cases AttachAction.uses a <;> simp

theorem Item.uses_apply {i : Item} (h : .apply m ∈ i.uses x) :
    ∃ o, i.uses x = [.read o, .apply m] := by
  cases i with
  | node n => exact NodeKind.uses_apply h
  | attachment a =>
    rw [Item.uses] at h
    cases action : a.kind.action? with
    | none => simp [action] at h
    | some attached => exact absurd (by simpa [action] using h) (attached.uses_apply m)

/-- The body makes the contacts that are asked for: none that is not, none more often, and all of them if no
value is dropped. -/
structure Routed (us : List Use) (asked : List Contact) (f : Func) : Prop where
  within : f.contacts.Subperm asked
  all : Placed us → f.contacts.Perm asked

/-- A functor makes the contacts it asks for if it belongs to the running agent, and only then. -/
theorem Use.perm_apply :
    (Use.made x (.apply m)).Perm (Use.contacts x (.apply m)) ↔ m.owner = .running := by
  rw [Use.made, Use.contacts, Method.contacts]
  cases m.owner with
  | running => simp [Context.approach, Context.holder]
  | named a =>
    cases known : x.catalog.isInstance a <;> simp [Context.approach, Context.holder, known]

namespace Generation

/-- Each method of a class makes the contacts of what its item uses. -/
theorem routed_made {i : Item} {className : String} {f : Func}
    (mem : .func f ∈ (declareItem { toContext := x } (i, className)).value) (method : f.receiver.isSome) :
    Routed (i.uses x) ((i.uses x).flatMap (Use.made x)) f := by
  obtain ⟨g, honest, found⟩ := Func.contacts_eq (wellScoped_method mem method)
  have met := (assembled_method mem method).met honest
  refine ⟨?_, fun placed => ?_⟩
  · rw [subperm_iff_count, found]
    simpa using met.within
  · rw [perm_iff_count, found]
    simpa using met.exact placed

/-- Every method of the class of a node or an attachment reaches the members of agents through their owners,
whatever the operands and however deep they are nested, with one exception: a functor that gets the result of
a method is called on the running agent. So owners are respected exactly if every such functor belongs to the
running agent. -/
theorem methods_routed (x : Context) (i : Item) (className : String) (f : Func)
    (mem : .func f ∈ (declareItem { toContext := x } (i, className)).value) (method : f.receiver.isSome) :
    Routed (i.uses x) ((i.uses x).flatMap (Use.made x)) f ∧
      (Routed (i.uses x) ((i.uses x).flatMap (Use.contacts x)) f ↔
        ∀ m, .apply m ∈ i.uses x → m.owner = .running) := by
  have made := routed_made mem method
  refine ⟨made, fun asked m applied => ?_, fun running => ?_⟩
  · obtain ⟨o, uses⟩ := Item.uses_apply applied
    rw [uses] at made asked
    have placed : Placed [.read o, .apply m] := by simp [Placed]
    have both := (made.all placed).symm.trans (asked.all placed)
    simp only [flatMap_cons, flatMap_nil, List.append_nil] at both
    exact Use.perm_apply.mp ((perm_append_left_iff _).mp both)
  · have same : (i.uses x).flatMap (Use.contacts x) = (i.uses x).flatMap (Use.made x) := by
      refine flatMap_congr fun u hu => ?_
      cases u with
      | apply m =>
        simp [Use.contacts, Use.made, Method.contacts, Context.approach, Context.holder, running m hu]
      | _ => rfl
    rw [same]
    exact made

/-- A world with a king that is known by name. -/
def court : Context := { catalog := { instances := ["king"] }, agentType := "Hero" }

/-- An assignment to an element of an array that a member of the running agent has, at an index that the king
keeps in a store. The value comes from a call on the king, with an argument of a member by reference. -/
def ransom : Node where
  id := 1
  kind := .assignment {
    target := some (.element
      { name := "gold", className := "Squire", owner := .named "squire", isElement := true }
      (.property { name := "turn", owner := .named "king", isCustomized := true })),
    source := some (.call
      { name := "collect", className := "King", owner := .named "king", params := [{ isRef := true }] }
      [some (.var (.property { name := "farms", className := "Duke", owner := .named "duke" }))]) }

theorem methods_routed_ransom : ∃ f : Func,
    .func f ∈ (declareItem { toContext := court } (.node ransom, "Ransom")).value ∧ f.receiver.isSome ∧
    f.contacts = [⟨some .running, "Duke", ""⟩, ⟨some (.member "Duke"), "Farms", ""⟩,
      ⟨some (.global "king"), "Collect", ""⟩, ⟨some .running, "Duke", ""⟩,
      ⟨some (.member "Duke"), "Farms", ""⟩, ⟨some .running, "Squire", ""⟩,
      ⟨some (.member "Squire"), "Gold", ""⟩, ⟨some (.global "king"), "GetVariable", "turn"⟩] ∧
    Routed (Item.uses court (.node ransom))
      ((Item.uses court (.node ransom)).flatMap (Use.contacts court)) f := by
  have mem : .func _ ∈ (declareItem { toContext := court } (.node ransom, "Ransom")).value :=
    mem_append_right _ mem_cons_self
  have routed := methods_routed court (.node ransom) "Ransom" _ mem rfl
  refine ⟨_, mem, rfl, by decide +kernel, routed.2.mpr fun m applied => ?_⟩
  simp [Item.uses, ransom, NodeKind.uses] at applied

/-- An action that asks the king to judge a score. -/
def verdict : Node where
  id := 1
  kind := .action {
    method := some ({ name := "score", className := "Hero", result := "int" }, []),
    resultFunctor := some
      ({ name := "judge", className := "King", owner := .named "king", params := [{ type := "int" }] }, []) }

/-- The running agent judges instead of the king. -/
theorem functor_owner_ignored : ∃ f : Func,
    .func f ∈ (declareItem { toContext := court } (.node verdict, "Verdict")).value ∧ f.receiver.isSome ∧
    f.contacts = [⟨some .running, "Score", ""⟩, ⟨some .running, "Judge", ""⟩] ∧
    (Item.uses court (.node verdict)).flatMap (Use.contacts court) =
      [⟨some .running, "Score", ""⟩, ⟨some (.global "king"), "Judge", ""⟩] ∧
    ¬ Routed (Item.uses court (.node verdict))
      ((Item.uses court (.node verdict)).flatMap (Use.contacts court)) f := by
  have mem : .func _ ∈ (declareItem { toContext := court } (.node verdict, "Verdict")).value :=
    mem_append_right _ mem_cons_self
  have asked : (Item.uses court (.node verdict)).flatMap (Use.contacts court) =
      [⟨some .running, "Score", ""⟩, ⟨some (.global "king"), "Judge", ""⟩] := by decide +kernel
  refine ⟨_, mem, rfl, by decide +kernel, asked, fun routed => ?_⟩
  rw [asked] at routed
  have judged : (⟨some .running, "Judge", ""⟩ : Contact) ∈ [_, _] := routed.within.subset (by decide +kernel)
  simp at judged

end Generation

end GoTrees
