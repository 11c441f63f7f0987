import GoTrees.Proofs.Entities
import GoTrees.Proofs.Methods

/-!
# Captured constants

A method reaches a constant that has no literal of its own through a field of its receiver, which the class
declares and its constructor sets. The field is named like the slot of the constant, so fields are told apart
the way temporaries are: by the turns of their slots.

    value      n.methodP0                an access, in the body of a method
    fields     methodP0 int              the field, in the class
    setup      n.methodP0 = 3            a step of the constructor

`Complete` says that the three fit together: no field is captured twice, every access is to a captured field,
and the constructor sets nothing but captured fields and what is below them. Parts of a method with slots on
different branches fit together as a whole.
-/

namespace GoTrees

open Go Slot List

variable (p : Property) {owner : Expr} {own : String → Prop} {slot : String}

/-! ### Accesses to fields of the receiver -/

namespace Go

/-- Is it the receiver of the generated methods? -/
def Expr.isReceiver : Expr → Bool
  | .name x => x == "n"
  | _ => false

mutual

/-- The fields of the receiver that an expression accesses. -/
def Expr.accesses : Expr → List String
  | .select e field => (if e.isReceiver then [field] else []) ++ e.accesses
  | .asserted e _ | .converted _ e | .not e => e.accesses
  | .call f args => f.accesses ++ Expr.allAccesses args
  | .index e i => e.accesses ++ i.accesses
  | .binary l _ r => l.accesses ++ r.accesses
  | .slice _ items => Expr.allAccesses items
  | .name _ | .address _ | .literal _ | .string _ | .member .. | .path _ | .empty _ | .new _ => []

/-- The fields of the receiver that expressions access. -/
def Expr.allAccesses : List Expr → List String
  | [] => []
  | e :: es => e.accesses ++ Expr.allAccesses es

end

attribute [simp] Expr.accesses Expr.allAccesses

@[simp] theorem Expr.allAccesses_append : ∀ as bs : List Expr,
    Expr.allAccesses (as ++ bs) = Expr.allAccesses as ++ Expr.allAccesses bs
  | [], _ => rfl
  | a :: as, bs => by simp [Expr.allAccesses_append as bs]

theorem Expr.isReceiver_of_names {e : Expr} (h : "n" ∉ e.names) : e.isReceiver = false := by
  cases e with
  | name x => simpa [isReceiver] using Ne.symm (by simpa using h)
  | _ => rfl

mutual

/-- An expression that does not refer to the receiver accesses none of its fields. -/
theorem Expr.accesses_of_names : ∀ {e : Expr}, "n" ∉ e.names → e.accesses = []
  | .select e field, h => by
      have other : e.isReceiver = false := Expr.isReceiver_of_names h
      simp [other, Expr.accesses_of_names (e := e) h]
  | .asserted e _, h | .converted _ e, h | .not e, h => Expr.accesses_of_names (e := e) h
  | .call f args, h => by
      simp only [names, mem_append, not_or] at h
      simp [Expr.accesses_of_names h.1, Expr.allAccesses_of_names h.2]
  | .index e i, h => by
      simp only [names, mem_append, not_or] at h
      simp [Expr.accesses_of_names h.1, Expr.accesses_of_names h.2]
  | .binary l _ r, h => by
      simp only [names, mem_append, not_or] at h
      simp [Expr.accesses_of_names h.1, Expr.accesses_of_names h.2]
  | .slice _ items, h => Expr.allAccesses_of_names (show "n" ∉ Expr.allNames items from h)
  | .name _, _ | .address _, _ | .literal _, _ | .string _, _ | .member .., _ | .path _, _ | .empty _, _
  | .new _, _ => rfl

theorem Expr.allAccesses_of_names : ∀ {es : List Expr}, "n" ∉ Expr.allNames es → Expr.allAccesses es = []
  | [], _ => rfl
  | e :: es, h => by
      simp only [allNames, mem_append, not_or] at h
      simp [Expr.accesses_of_names h.1, Expr.allAccesses_of_names h.2]

end

/-- The fields of the receiver that a step accesses. -/
def Step.accesses : Step → List String
  | .define _ e | .eval e | .ret e => e.accesses
  | .assign target e => target.accesses ++ e.accesses
  | .comment _ | .verbatim _ => []

@[simp] theorem Step.accesses_define (x : String) (e : Expr) : (define x e).accesses = e.accesses := rfl
@[simp] theorem Step.accesses_eval (e : Expr) : (eval e).accesses = e.accesses := rfl
@[simp] theorem Step.accesses_ret (e : Expr) : (ret e).accesses = e.accesses := rfl

@[simp] theorem Step.accesses_assign (target e : Expr) :
    (assign target e).accesses = target.accesses ++ e.accesses := rfl

/-- The fields of the receiver that steps access. -/
def stepAccesses (ss : List Step) : List String := ss.flatMap Step.accesses

@[simp] theorem stepAccesses_nil : stepAccesses [] = [] := rfl

@[simp] theorem stepAccesses_cons (s : Step) (ss : List Step) :
    stepAccesses (s :: ss) = s.accesses ++ stepAccesses ss := rfl

@[simp] theorem stepAccesses_append (as bs : List Step) :
    stepAccesses (as ++ bs) = stepAccesses as ++ stepAccesses bs := flatMap_append

mutual

/-- The fields of the receiver that a statement accesses. -/
def Stmt.accesses : Stmt → List String
  | .step s => s.accesses
  | .block body => Stmt.allAccesses body
  | .ifThen condition body => condition.accesses ++ Stmt.allAccesses body

/-- The fields of the receiver that statements access. -/
def Stmt.allAccesses : List Stmt → List String
  | [] => []
  | s :: ss => s.accesses ++ Stmt.allAccesses ss

end

attribute [simp] Stmt.accesses Stmt.allAccesses

@[simp] theorem Stmt.allAccesses_append : ∀ as bs : List Stmt,
    Stmt.allAccesses (as ++ bs) = Stmt.allAccesses as ++ Stmt.allAccesses bs
  | [], _ => rfl
  | a :: as, bs => by simp [Stmt.allAccesses_append as bs]

@[simp] theorem Stmt.allAccesses_map_step : ∀ ss : List Step,
    Stmt.allAccesses (ss.map .step) = stepAccesses ss
  | [] => rfl
  | s :: ss => by simp [Stmt.allAccesses_map_step ss]

/-- The fields of the receiver that the functions among declarations access. -/
def declAccesses (ds : List Decl) : List String :=
  ds.flatMap fun
    | .func f => Stmt.allAccesses f.body
    | _ => []

end Go

/-- The fields of the receiver that an operand accesses. -/
def Emission.accesses (e : Emission) : List String :=
  stepAccesses e.pre ++ e.expr.accesses ++ stepAccesses e.post

theorem Emission.accesses_bind (e : Emission) (slot : String) :
    stepAccesses (e.bind slot).1 ++ (e.bind slot).2.accesses ⊆ e.accesses := by
  rw [bind, accesses]
  split <;> simp

/-- The fields of the receiver that arguments access. -/
def Context.Arguments.accesses (a : Context.Arguments) : List String :=
  stepAccesses a.pre ++ Expr.allAccesses a.exprs ++ stepAccesses a.post

theorem Slot.Apart.not_under {a b y : String} (apart : Apart a b) (ha : Under a y) : ¬ Under b y :=
  fun hb => (ha.comparable hb).elim apart.1 apart.2

/-! ### Complete captures -/

namespace Needs

def captured (n : Needs) : List String := n.fields.map Row.name

/-- No field is captured twice, each is one of a given set of names, every access is to a captured field, and
the steps of the constructor assign to captured fields or below them. -/
structure Complete (own : String → Prop) (accesses : List String) (n : Needs) : Prop where
  distinct : n.captured.Nodup
  owned : ∀ f ∈ n.captured, own f
  reach : accesses ⊆ n.captured
  setup : ∀ s ∈ n.setup, ∃ f ∈ n.captured, Context.AssignsWithin (.select self f) [s]

def Captureless (n : Needs) : Prop := n.fields = [] ∧ n.setup = []

@[simp] theorem captured_append (a b : Needs) : (a ++ b).captured = a.captured ++ b.captured :=
  map_append

@[simp] theorem captureless_empty : ({} : Needs).Captureless := ⟨rfl, rfl⟩

@[simp] theorem captureless_append {a b : Needs} : (a ++ b).Captureless ↔ a.Captureless ∧ b.Captureless := by
  simp only [Captureless, fields_append, setup_append, append_eq_nil_iff]
  tauto

theorem Captureless.complete {n : Needs} (h : n.Captureless) (own : String → Prop) : n.Complete own [] := by
  have none : n.captured = [] := by simp [captured, h.1]
  exact ⟨by simp [none], by simp [none], nil_subset _, by simp [h.2]⟩

variable {own own' : String → Prop} {u u' : List String} {a b : Needs}

namespace Complete

theorem widen (h : a.Complete own u) (sub : ∀ y, own y → own' y) : a.Complete own' u :=
  ⟨h.distinct, fun f hf => sub f (h.owned f hf), h.reach, h.setup⟩

theorem access (h : a.Complete own u) (sub : u' ⊆ u) : a.Complete own u' :=
  ⟨h.distinct, h.owned, List.Subset.trans sub h.reach, h.setup⟩

/-- Captures under different names are complete together. -/
theorem append (ha : a.Complete own u) (hb : b.Complete own' u') (apart : ∀ y, own y → ¬ own' y) :
    (a ++ b).Complete (fun y => own y ∨ own' y) (u ++ u') where
  distinct := by
    rw [captured_append]
    exact ha.distinct.append hb.distinct fun f hf hf' => apart f (ha.owned f hf) (hb.owned f hf')
  owned := by
    rw [captured_append, forall_mem_append]
    exact ⟨fun f hf => .inl (ha.owned f hf), fun f hf => .inr (hb.owned f hf)⟩
  reach := by
    rw [captured_append]
    exact append_subset.mpr ⟨subset_append_of_subset_left _ ha.reach,
      subset_append_of_subset_right _ hb.reach⟩
  setup := by
    rw [setup_append, forall_mem_append, captured_append]
    refine ⟨fun s hs => ?_, fun s hs => ?_⟩
    · obtain ⟨f, hf, assigns⟩ := ha.setup s hs
      exact ⟨f, mem_append_left _ hf, assigns⟩
    · obtain ⟨f, hf, assigns⟩ := hb.setup s hs
      exact ⟨f, mem_append_right _ hf, assigns⟩

theorem congr (h : a.Complete own u) (fields : b.fields = a.fields) (setup : b.setup = a.setup) :
    b.Complete own u := by
  have same : b.captured = a.captured := congrArg (List.map Row.name) fields
  exact ⟨same ▸ h.distinct, same ▸ h.owned, same ▸ h.reach, by rw [setup, same]; exact h.setup⟩

theorem after (h : b.Complete own u) (none : a.Captureless) : (a ++ b).Complete own u :=
  h.congr (by simp [none.1]) (by simp [none.2])

theorem before (h : a.Complete own u) (none : b.Captureless) : (a ++ b).Complete own u :=
  h.congr (by simp [none.1]) (by simp [none.2])

theorem around {c : Needs} (h : (a ++ c).Complete own u) (none : b.Captureless) :
    (a ++ (b ++ c)).Complete own u :=
  h.congr (by simp [none.1]) (by simp [none.2])

end Complete

end Needs

open Needs

namespace Context

variable (x : Context)

/-! ### Code that captures nothing -/

@[simp] theorem captureless_require (i : Import) : (Emit.require i).needs.Captureless := ⟨rfl, rfl⟩

@[simp] theorem captureless_usePackage (package : String) : (Emit.usePackage package).needs.Captureless :=
  ⟨rfl, rfl⟩

@[simp] theorem captureless_notePackages (text : String) : (notePackages text).needs.Captureless := by
  rw [notePackages]
  split <;> simp

@[simp] theorem captureless_classPath (className : String) : (classPath className).needs.Captureless := by
  rw [classPath]
  split <;> simp

@[simp] theorem captureless_assertedAgent (agent : Expr) (className : String) :
    (assertedAgent agent className).needs.Captureless := by
  rw [assertedAgent]
  split <;> simp

@[simp] theorem captureless_receiver (className : String) : (receiver className).needs.Captureless :=
  captureless_assertedAgent agentVar className

@[simp] theorem captureless_goType (native : String) : (x.goType native).needs.Captureless := by
  simp only [goType, Emit.needs_bind, captureless_append, captureless_notePackages, true_and]
  split <;> simp

@[simp] theorem captureless_scalar (native : String) (v : Value) : (x.scalar native v).needs.Captureless := by
  fun_cases scalar x native v <;> simp

@[simp] theorem captureless_scalars (native : String) : ∀ vs : List Value,
    (x.scalars native vs).needs.Captureless
  | [] => by simp [scalars]
  | v :: vs => by simp [scalars, captureless_scalars native vs]

@[simp] theorem captureless_sliceLiteral (native : String) (items : List Value) :
    (x.sliceLiteral native items).needs.Captureless := by
  simp [sliceLiteral]

mutual

theorem captureless_setFields (target : Expr) (struct : Option StructType) : ∀ fields : List (String × Value),
    (x.setFields target struct fields).needs.Captureless
  | [] => by simp [setFields]
  | (field, value) :: fields => by
      simp [setFields, captureless_setField _ _ value, captureless_setFields target struct fields]

theorem captureless_setField (target : Expr) (native : String) : ∀ value : Value,
    (x.setField target native value).needs.Captureless
  | .struct fields => by rw [setField]; exact captureless_setFields target _ fields
  | .array [] => by simp [setField]
  | .array (item :: items) => by simp [setField]
  | .bool _ | .int _ | .float _ | .char _ | .string _ | .member _ => by
      simp only [setField, Emit.needs_bind, captureless_append, captureless_scalar, true_and]
      split <;> simp

end

theorem captureless_captureSetup (target : Expr) (native : String) (v : Value) :
    (x.captureSetup target native v).needs.Captureless := by
  unfold captureSetup
  split
  · split <;> simp [captureless_setField]
  · exact x.captureless_setField target native v

@[simp] theorem captureless_namedAgent (agent className slot : String) :
    (x.namedAgent agent className slot).needs.Captureless := by
  rw [namedAgent]
  split <;> simp

@[simp] theorem captureless_ownerOf (slot : String) :
    (x.ownerOf p slot).needs.Captureless := by
  rw [ownerOf]
  split <;> simp

@[simp] theorem captureless_checkId : (checkId p).needs.Captureless := by
  simp [checkId]

@[simp] theorem captureless_memberAccess (owner : Expr) :
    (memberAccess p owner).needs.Captureless := by
  rw [memberAccess]
  split <;> simp

@[simp] theorem captureless_readFrom (owner : Expr) (i : Option Expr) :
    (x.readFrom p owner i).needs.Captureless := by
  rw [readFrom]
  split <;> simp

@[simp] theorem captureless_writeTo (owner : Expr) (i : Option Expr) (value : Expr) :
    (x.writeTo p owner i value).needs.Captureless := by
  rw [writeTo]
  split
  · cases i <;> simp
  · simp

theorem captureless_unboundArgument (p : Param) : (x.unboundArgument p).needs.Captureless := by
  simp only [unboundArgument, defaultLiteral, Emit.needs_bind, captureless_append,
    captureless_goType, true_and]
  split <;> simp

/-! ### Constants -/

theorem accesses_getD {o : Option Expr} (h : ∀ e ∈ o, e.names = []) : (o.getD .nil).accesses = [] :=
  Expr.accesses_of_names (by simp [names_getD h])

theorem assignsWithin_captureSetup (target : Expr) (native : String) (v : Value) :
    AssignsWithin target (x.captureSetup target native v).value := by
  unfold captureSetup
  split
  · split
    · exact .append (assignsWithin_singleton target _) (x.assignsWithin_setField target native _)
    · exact x.assignsWithin_setField target native _
  · exact x.assignsWithin_setField target native v

/-- A constant is captured in one field, which the steps of the constructor set. -/
theorem complete_capture (native : String) (v : Value) (field : String) :
    (x.capture native v field).needs.Complete (· = field) [field] := by
  have type := x.captureless_goType native
  have steps := x.captureless_captureSetup (.select self field) native v
  have fields : (x.capture native v field).needs.captured = [field] := by
    simp [capture, Emit.capture, captured, type.1, steps.1]
  have setup : (x.capture native v field).needs.setup =
      (x.captureSetup (.select self field) native v).value := by
    simp [capture, Emit.capture, type.2, steps.2]
  refine ⟨by simp [fields], by simp [fields], by simp [fields], ?_⟩
  rw [setup, fields]
  intro s hs
  have assigns := x.assignsWithin_captureSetup (.select self field) native v s hs
  exact ⟨field, mem_singleton_self field, by simpa [AssignsWithin] using assigns⟩

theorem complete_constant (native : String) (v : Value) (slot : String) :
    (x.constant native v slot).needs.Complete (· = slot) (x.constant native v slot).value.accesses := by
  have field := x.complete_capture native v slot
  have access : (Emission.inline (x.capture native v slot).value).accesses = [slot] := rfl
  fun_cases constant x native v slot with
  | case1 => exact captureless_empty.complete _
  | case2 => exact (field.access (by simp [access])).before captureless_empty
  | case3 => exact (field.access (by simp [access])).before captureless_empty
  | case4 =>
    have none := accesses_getD (names_scalar x native v)
    have complete := ((x.captureless_scalar native v).complete (· = slot)).before captureless_empty
    simpa [Emission.inline, Emission.accesses, none] using complete

/-! ### Owners and properties -/

/-- The steps access no field of the receiver, and the expression does not refer to it. -/
def Foreign (owner : List Step × Expr) : Prop := stepAccesses owner.1 = [] ∧ "n" ∉ owner.2.names

theorem foreign_receiver (className : String) : Foreign ([], (receiver className).value) :=
  ⟨rfl, by simp [names_receiver]⟩

theorem agent_ne (slot : String) : agent slot ≠ "n" := by
  intro same
  have first := congrArg (fun s : String => s.toList.head?) same
  simp [agent, String.toList_append] at first

theorem foreign_namedAgent (name className slot : String) :
    Foreign (x.namedAgent name className slot).value := by
  have other : "n" ≠ "pAgent_" ++ slot := (agent_ne slot).symm
  rw [namedAgent]
  split
  · refine ⟨by simp [agentVar], ?_⟩
    simpa [names_assertedAgent] using other
  · have running : (receiver x.agentType).value.accesses = [] :=
      Expr.accesses_of_names (foreign_receiver x.agentType).2
    have receiver := Expr.isReceiver_of_names (foreign_receiver x.agentType).2
    exact ⟨by simp [running, receiver], by simpa using other⟩

theorem foreign_ownerOf (slot : String) : Foreign (x.ownerOf p slot).value := by
  rw [ownerOf]
  split
  · exact foreign_receiver _
  · exact x.foreign_namedAgent _ _ slot

/-- The fields of the receiver that an index accesses. -/
def indexAccesses (i : Option Expr) : List String := i.elim [] Expr.accesses

theorem accesses_indexed {e : Expr} (h : "n" ∉ e.names) (i : Option Expr) :
    (indexed e i).accesses = indexAccesses i := by
  have none := Expr.accesses_of_names h
  cases i <;> simp [indexed, indexAccesses, none]

theorem names_stored_foreign (h : "n" ∉ owner.names) (p : Property) (type : String) :
    "n" ∉ (stored p owner type).names := by
  rwa [names_stored]

theorem names_memberAccess_foreign (h : "n" ∉ owner.names) (p : Property) :
    "n" ∉ (memberAccess p owner).value.names := fun mem => h (names_memberAccess p owner mem)

theorem accesses_checkId : (checkId p).value.accesses = [] := rfl

theorem accesses_readFrom (h : "n" ∉ owner.names) (p : Property) (i : Option Expr) :
    stepAccesses (x.readFrom p owner i).value.1 = [] ∧
      (x.readFrom p owner i).value.2.accesses = indexAccesses i := by
  rw [readFrom]
  split
  · exact ⟨by simp [accesses_checkId], accesses_indexed (names_stored_foreign h p _) i⟩
  · exact ⟨rfl, accesses_indexed (names_memberAccess_foreign h p) i⟩

theorem accesses_writeTo (h : "n" ∉ owner.names) (p : Property) (i : Option Expr) (value : Expr) :
    stepAccesses (x.writeTo p owner i value).value = indexAccesses i ++ value.accesses := by
  rw [writeTo]
  split
  · cases i with
    | none =>
      have none := Expr.accesses_of_names h
      have other := Expr.isReceiver_of_names h
      simp [accesses_checkId, indexAccesses, none, other, lookupArgs]
    | some i =>
      have element := accesses_indexed (names_stored_foreign h p ("[]" ++ (x.goType p.type).value)) (some i)
      rw [indexed] at element
      simpa [accesses_checkId, indexAccesses] using element
  · simp [accesses_indexed (names_memberAccess_foreign h p) i]

/-! ### Variables -/

theorem complete_index {e : Emit Emission} (h : e.needs.Complete own e.value.accesses)
    (slot : String) :
    e.needs.Complete own (stepAccesses (e.value.bind slot).1 ++ (e.value.bind slot).2.accesses) :=
  h.access (e.value.accesses_bind slot)

theorem complete_property (slot : String) (own : String → Prop) :
    (x.readVariable (.property p) slot).needs.Complete own
      (x.readVariable (.property p) slot).value.accesses := by
  have owner := x.foreign_ownerOf p slot
  have read := x.accesses_readFrom owner.2 p none
  have none : (x.readVariable (.property p) slot).needs.Captureless := by simp [readVariable]
  have complete := none.complete own
  simpa [readVariable, Emission.accesses, owner.1, read, indexAccesses] using complete

theorem complete_element {p : Property} {index : Variable}
    (h : (x.readVariable index (indexSlot slot)).needs.Complete own
      (x.readVariable index (indexSlot slot)).value.accesses) :
    (x.readVariable (.element p index) slot).needs.Complete own
      (x.readVariable (.element p index) slot).value.accesses := by
  have owner := x.foreign_ownerOf p slot
  let i := (x.readVariable index (indexSlot slot)).value.bind (indexSlot slot)
  have read := x.accesses_readFrom owner.2 p (some i.2)
  have complete := ((complete_index h (indexSlot slot)).before
    (x.captureless_readFrom p (x.ownerOf p slot).value.2 (some i.2))).after (x.captureless_ownerOf p slot)
  simpa [readVariable, Emission.accesses, owner.1, read, indexAccesses, i, Needs.append_assoc] using complete

theorem under_indexSlot (slot : String) : Under slot (indexSlot slot) := under_append (by decide)

theorem complete_readVariable : ∀ (v : Variable) (slot : String),
    (x.readVariable v slot).needs.Complete (Under slot) (x.readVariable v slot).value.accesses
  | .const native value, slot =>
      (x.complete_constant native value slot).widen fun _ h => h ▸ .refl slot
  | .property p, slot => x.complete_property p slot _
  | .element _ index, slot =>
      (x.complete_element (complete_readVariable index (indexSlot slot))).widen
        fun _ h => (under_indexSlot slot).trans h

/-- What is no constant captures nothing but its index. -/
theorem complete_readPlace {v : Variable} (place : v.isConst = false) (slot : String) :
    (x.readVariable v slot).needs.Complete (Under (indexSlot slot))
      (x.readVariable v slot).value.accesses := by
  cases v with
  | const native value => cases place
  | property p => exact x.complete_property p slot _
  | element p index => exact x.complete_element (x.complete_readVariable index (indexSlot slot))

/-- Storing accesses no captured field but those of the indices, and of the value stored. -/
theorem complete_writeVariable (v : Variable) (value : Expr) (slot : String) :
    ∃ used, (x.writeVariable v value slot).needs.Complete (Under (indexSlot slot)) used ∧
      stepAccesses (x.writeVariable v value slot).value ⊆ used ++ value.accesses := by
  cases v with
  | const native constant => exact ⟨[], captureless_empty.complete _, nil_subset _⟩
  | property p =>
    have owner := x.foreign_ownerOf p slot
    have none : (x.writeVariable (.property p) value slot).needs.Captureless := by simp [writeVariable]
    refine ⟨[], none.complete _, ?_⟩
    simp [writeVariable, owner.1, x.accesses_writeTo owner.2, indexAccesses]
  | element p index =>
    have owner := x.foreign_ownerOf p slot
    let i := (x.readVariable index (indexSlot slot)).value.bind (indexSlot slot)
    have complete := complete_index (x.complete_readVariable index (indexSlot slot)) (indexSlot slot)
    have complete := (complete.before
      (x.captureless_writeTo p (x.ownerOf p slot).value.2 (some i.2) value)).after
      (x.captureless_ownerOf p slot)
    refine ⟨stepAccesses i.1 ++ i.2.accesses, ?_, ?_⟩
    · simpa [writeVariable, i, Needs.append_assoc] using complete
    · simp [writeVariable, owner.1, x.accesses_writeTo owner.2, indexAccesses, i]

/-! ### Calls -/

theorem Arguments.accesses_append (a b : Arguments) : (a.append b).accesses ⊆ a.accesses ++ b.accesses := by
  intro f
  simp only [accesses, append, stepAccesses_append, Expr.allAccesses_append, mem_append]
  tauto

theorem complete_unboundArgument (p : Param) (own : String → Prop) :
    (x.unboundArgument p).needs.Complete own (x.unboundArgument p).value.accesses := by
  have none := accesses_getD (names_literalFor (x.catalog.classify p.type) (x.goType p.type).value none)
  rw [← value_defaultLiteral] at none
  have complete := (x.captureless_unboundArgument p).complete own
  simpa [unboundArgument, Arguments.accesses, none] using complete

theorem complete_unboundArguments (own : String → Prop) : ∀ ps : List Param,
    (x.unboundArguments ps).needs.Complete own (x.unboundArguments ps).value.accesses
  | [] => captureless_empty.complete own
  | p :: ps => by
      have rest := (complete_unboundArguments own ps).before captureless_empty
      have first := x.complete_unboundArgument p fun _ => False
      refine ((first.append rest fun _ => False.elim).widen fun _ => (Or.resolve_left · id)).access ?_
      exact Arguments.accesses_append _ _

theorem complete_constArgument (p : Param) (native : String) (v : Value) (slot : String) :
    (x.constArgument p native v slot).needs.Complete (Under slot)
      (x.constArgument p native v slot).value.accesses := by
  have inside : ∀ y, y = slot → Under slot y := fun _ h => h ▸ .refl slot
  have field := (x.complete_capture native v slot).widen inside
  have access : (x.capture native v slot).value.accesses = [slot] := rfl
  rw [constArgument]
  split
  · refine (field.access ?_).before captureless_empty
    simp [Arguments.accesses, access]
  · refine (field.access ?_).before captureless_empty
    simp [Arguments.accesses, access]

/-- An argument that is a variable accesses the fields captured for reading it. -/
theorem complete_variableArgument (p : Param) {v : Variable} (place : v.isConst = false) (slot : String) :
    ((x.readVariable v slot).needs ++
        (x.variableArgument p v (x.readVariable v slot).value slot).needs).Complete (Under slot)
      (x.variableArgument p v (x.readVariable v slot).value slot).value.accesses := by
  have read := x.complete_readPlace place slot
  have none := x.post_readVariable v slot
  have inside : ∀ y, Under (indexSlot slot) y → Under slot y := fun y => (under_indexSlot slot).trans
  rw [variableArgument]
  split
  · cases isWritable v
    · refine ((read.before captureless_empty).widen inside).access ?_
      simp [Arguments.accesses, Emission.accesses]
    · -- the write-back captures the index again, under a slot of its own
      obtain ⟨used, write, accesses⟩ := x.complete_writeVariable v (.name slot) (slot ++ "Out")
      have apart : ∀ y, Under (indexSlot slot) y → ¬ Under (indexSlot (slot ++ "Out")) y := by
        intro y index out
        have turns : Apart "Index" "Out" := by decide
        exact (apart_append_left.mpr turns).not_under index ((under_indexSlot _).trans out)
      refine ((read.append (write.before captureless_empty) apart).widen ?_).access ?_
      · rintro y (h | h)
        · exact inside y h
        · exact (under_append (by decide)).trans ((under_indexSlot (slot ++ "Out")).trans h)
      · intro f hf
        have written := @accesses f
        simp [Arguments.accesses, Emission.accesses] at hf written ⊢
        tauto
  · refine ((read.before captureless_empty).widen inside).access ?_
    simp [Arguments.accesses, Emission.accesses]

theorem complete_callArgument (p : Param) {e : Emit Emission} (h : e.needs.Complete own e.value.accesses) :
    e.needs.Complete own (callArgument p e.value slot).accesses := by
  rw [callArgument]
  split
  · refine h.access ?_
    simp [Arguments.accesses, Emission.accesses]
  · refine h.access (List.Subset.trans ?_ (e.value.accesses_bind slot))
    simp [Arguments.accesses]

theorem complete_givenArgument (p : Param) (o : Operand)
    (h : (x.operand o slot).needs.Complete (Under slot) (x.operand o slot).value.accesses) :
    (x.givenArgument p o slot).needs.Complete (Under slot) (x.givenArgument p o slot).value.accesses := by
  fun_cases givenArgument x p o slot with
  | case1 native value => exact x.complete_constArgument p native value slot
  | case2 v notConst =>
    have place : v.isConst = false := by
      cases v with
      | const native value => exact (notConst native value rfl).elim
      | _ => rfl
    exact x.complete_variableArgument p place slot
  | case3 => exact (complete_callArgument p h).before captureless_empty

/-- A call accesses no fields but those of its arguments. -/
theorem complete_invoke (m : Method) {args : Emit Arguments}
    (h : args.needs.Complete own args.value.accesses) :
    (args.needs ++ (x.invoke m args.value slot).needs).Complete own
      (x.invoke m args.value slot).value.accesses := by
  have call {owner : List Step × Expr} {n : Needs} (none : n.Captureless) (foreign : Foreign owner) :
      (args.needs ++ n).Complete own
        (stepAccesses (owner.1 ++ args.value.pre) ++
          (Expr.call (.select owner.2 (memberName m.name)) args.value.exprs).accesses ++
          stepAccesses args.value.post) := by
    have other := Expr.isReceiver_of_names foreign.2
    have accesses := Expr.accesses_of_names foreign.2
    refine (h.before none).access ?_
    simp [foreign.1, other, accesses, Arguments.accesses]
  rw [invoke]
  split
  · exact call (by simp) (foreign_receiver m.className)
  · exact call (by simp) (x.foreign_namedAgent _ m.className slot)

mutual

theorem complete_operand : ∀ (o : Operand) (slot : String),
    (x.operand o slot).needs.Complete (Under slot) (x.operand o slot).value.accesses
  | .var v, slot => x.complete_readVariable v slot
  | .call m args, slot => by
      have given := complete_arguments m.params args slot 0
      refine (x.complete_invoke m given).widen ?_
      rintro y ⟨j, -, h⟩
      exact (under_append (turns_argument j)).trans h

/-- Each argument captures under a slot of its own, so no field is captured twice. -/
theorem complete_arguments : ∀ (params : List Param) (args : List (Option Operand)) (slot : String) (i : Nat),
    (x.arguments params args slot i).needs.Complete (fun y => ∃ j, i ≤ j ∧ Under (slot ++ argument j) y)
      (x.arguments params args slot i).value.accesses
  | [], _, _, _ => by
      rw [arguments]
      exact captureless_empty.complete _
  | p :: params, [], _, _ => by
      rw [arguments]
      · exact x.complete_unboundArguments _ (p :: params)
      · exact cons_ne_nil p params
  | p :: params, none :: args, slot, i => by
      rw [arguments]
      have rest := (complete_arguments params args slot (i + 1)).before captureless_empty
      refine ((x.complete_unboundArgument p fun _ => False).append rest fun _ => False.elim).widen ?_ |>.access
        (Arguments.accesses_append _ _)
      rintro y (h | ⟨j, hj, h⟩)
      · exact h.elim
      · exact ⟨j, by omega, h⟩
  | p :: params, some o :: args, slot, i => by
      rw [arguments_some]
      have first := x.complete_givenArgument p o (complete_operand o (argSlot slot i))
      have rest := (complete_arguments params args slot (i + 1)).before captureless_empty
      have apart : ∀ y, Under (argSlot slot i) y → ¬ ∃ j, i + 1 ≤ j ∧ Under (slot ++ argument j) y := by
        rintro y here ⟨j, hj, there⟩
        rw [argSlot_eq] at here
        exact (apart_append_left.mpr (apart_argument (by omega))).not_under here there
      refine ((first.append rest apart).widen ?_).access (Arguments.accesses_append _ _)
      rintro y (h | ⟨j, hj, h⟩)
      · exact ⟨i, le_rfl, by rwa [argSlot_eq] at h⟩
      · exact ⟨j, by omega, h⟩

end

end Context

end GoTrees
