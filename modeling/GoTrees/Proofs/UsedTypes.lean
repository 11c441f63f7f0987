import GoTrees.Proofs.Debts

/-!
# Types that operands cite

What is worked out for an operand is put into its code, so an operand that needs the import of the
generated types also cites them, at any depth of its indexes, arguments and write-backs. There is one
exception: for an unbound parameter the default of its type is written, which is `nil` for the types that
are held by a pointer, and then the debt stays. A constant cannot be written, so the value that is stored
in one is lost with all it owes.
-/

namespace GoTrees

open Go Text List

variable {type : String} {i : Option Expr}

/-! ### Variables -/

/-- The texts in an emitted operand are legible. -/
structure Emission.Legible (e : Emission) : Prop where
  pre : Step.AllLegible e.pre
  expr : e.expr.Legible
  post : Step.AllLegible e.post

/-- A step or the expression of an emitted operand cites the generated types. -/
def Emission.Cites (e : Emission) : Prop :=
  Step.AnyCites typesAlias e.pre ∨ e.expr.Cites typesAlias ∨ Step.AnyCites typesAlias e.post

def LegiblePart (r : List Step × Expr) : Prop := Step.AllLegible r.1 ∧ r.2.Legible

def PartCites (r : List Step × Expr) : Prop := Step.AnyCites typesAlias r.1 ∨ r.2.Cites typesAlias

section Variables

variable {className slot : String} {x : Context} {e : Emission} {p : Property} {owner value : Expr}

theorem Emission.legible_inline {expr : Expr} (h : expr.Legible) : (Emission.inline expr).Legible :=
  ⟨by rintro _ ⟨⟩, h, by rintro _ ⟨⟩⟩

theorem Emission.Legible.bind (h : e.Legible) (hs : AllChars IsPlain slot) : LegiblePart (e.bind slot) := by
  rw [Emission.bind]
  split
  · exact ⟨h.pre, h.expr⟩
  · refine ⟨forall_mem_append.mpr ⟨forall_mem_append.mpr ⟨h.pre, ?_⟩, h.post⟩, legible_plain hs⟩
    exact forall_mem_singleton.mpr ⟨legible_plain hs, h.expr⟩

/-- What a value is bound to still cites what it did. -/
theorem Emission.Cites.bind (h : e.Cites) (slot : String) : PartCites (e.bind slot) := by
  rw [Emission.bind]
  split
  · next none =>
    rw [List.isEmpty_iff] at none
    rw [Emission.Cites, none] at h
    exact h.imp_right fun later => later.resolve_right Step.anyCites_nil
  · left
    rw [Step.anyCites_append, Step.anyCites_append, Step.anyCites_singleton, or_assoc]
    exact h

/-- A constant operand is in its place, or its captured field has it. -/
theorem owes_constant (hx : x.Spelled) {native : String} (h : AllChars IsPlain native) {value : Value}
    (hv : value.Spelled) (hs : AllChars IsPlain slot) :
    (x.constant native value slot).Owes False (fun e => e.Legible ∧ e.post = []) Emission.Cites := by
  have captured : (x.capture native value slot >>= fun e => Pure.pure (Emission.inline e)).Owes False
      (fun e => e.Legible ∧ e.post = []) Emission.Cites :=
    .bind (owes_capture hx h hv hs) fun _ field => .pure ⟨Emission.legible_inline field, rfl⟩ (by simp)
  rw [Context.constant.eq_def]
  split
  · exact .pure ⟨Emission.legible_inline legible_nil, rfl⟩ False.elim
  · exact captured
  · exact captured
  · refine .bind (owes_scalar hx h hv) fun o ho => ?_
    cases o with
    | none => exact .pure ⟨Emission.legible_inline legible_nil, rfl⟩ (by simp)
    | some e =>
      refine .pure ⟨Emission.legible_inline (ho e rfl), rfl⟩ ?_
      rintro (⟨⟨⟩⟩ | ⟨_, ⟨⟩, cites⟩)
      exact .inr (.inl cites)

/-- The agent of a name. A class with a namespace has its own package. -/
theorem owes_namedAgent (hx : x.Spelled) {agent : String} (ha : AllChars IsPlain agent)
    (h : AllChars IsPlain className) (hs : AllChars IsPlain slot) :
    (x.namedAgent agent className slot).Owes False LegiblePart
      (fun r => Step.AnyCites typesAlias r.1 ∨ r.2.Cites typesAlias ∧ contains className "::" = false) := by
  have var : Go.Legible ("pAgent_" ++ slot) := legible_plain (AllChars.append (by decide) hs)
  rw [Context.namedAgent]
  split
  · refine .bind .useRuntime fun _ _ => .bind (owes_assertedAgent var h) fun e he => .pure ⟨?_, he⟩ ?_
    · have found : Expr.AllLegible [agentVar, .string agent] := ⟨legible_agentVar, trivial, trivial⟩
      exact forall_mem_singleton.mpr ⟨var, ⟨legible_plain (by decide), legible_plain (by decide)⟩, found⟩
    · rw [false_or, false_or]
      exact .inr
  · refine .bind (owes_receiver hx.agentType) fun e he => .pure ⟨?_, var⟩ ?_
    · exact forall_mem_singleton.mpr ⟨var, he, legible_plain (plain_memberName ha)⟩
    · rintro (⟨⟨⟩⟩ | ⟨cites, -⟩)
      exact .inl (Step.anyCites_singleton.mpr cites)

/-- The agent that a property lives on. Where it is asserted to a generated type, this is the class of the
property. -/
theorem owes_ownerOf (hx : x.Spelled) (hp : p.Spelled) (hs : AllChars IsPlain slot) :
    (x.ownerOf p slot).Owes False LegiblePart
      (fun r => Step.AnyCites typesAlias r.1 ∨ r.2.Cites typesAlias ∧ contains p.className "::" = false) := by
  have plain : AllChars IsPlain (if p.isLateBound then agentBase else p.className) := by
    split
    · decide
    · exact hp.className
  have flat : contains (if p.isLateBound then agentBase else p.className) "::" = false →
      contains p.className "::" = false := by
    split
    · exact fun base => absurd base (by decide)
    · exact id
  rw [Context.ownerOf]
  split
  · refine .bind (owes_receiver plain) fun e he => .pure ⟨by rintro _ ⟨⟩, he⟩ ?_
    rintro (⟨⟨⟩⟩ | ⟨cites, base⟩)
    exact .inr ⟨cites, flat base⟩
  · next agent named =>
    exact (owes_namedAgent hx (hp.owner agent named) plain hs).mono id (fun _ => id)
      fun _ _ cites => cites.imp_right fun asserted => ⟨asserted.1, flat asserted.2⟩

theorem legible_lookupArgs : Expr.AllLegible (Context.lookupArgs p) :=
  ⟨trivial, legible_plain fun _ hc => isPlain_of_not_isGap (by
    rw [isGap, isIdentifierChar_of_isDigit (isDigit_of_mem_toString hc)]
    rfl), trivial⟩

theorem owes_checkId : (Context.checkId p).Owes False Step.Legible (fun _ => False) :=
  .bind .useRuntime fun _ _ =>
    .pure ⟨⟨legible_plain (by decide), legible_plain (by decide)⟩, legible_lookupArgs⟩ (by simp)

theorem legible_stored (ho : owner.Legible) (ht : AllChars IsPlain type) :
    (Context.stored p owner type).Legible := by
  have method : Go.Legible (Context.getter p) := by
    rw [Context.getter]
    split <;> exact legible_plain (by decide)
  exact ⟨⟨⟨ho, method⟩, legible_lookupArgs⟩, legible_plain ht⟩

/-- A static property is written without its owner, but with its class. -/
theorem owes_memberAccess (hp : p.Spelled) (ho : owner.Legible) :
    (Context.memberAccess p owner).Owes (owner.Cites typesAlias ∧ contains p.className "::" = false)
      Expr.Legible (Expr.Cites typesAlias) := by
  rw [Context.memberAccess]
  split
  · refine .andThen ((owes_classPath hp.className).mono And.right (fun _ => id) fun _ _ => id)
      fun path plain => ?_
    exact .pure (legible_plain (plain.append (plain_memberName hp.name))) fun debt => debt.1.append _
  · exact .pure ⟨ho, legible_plain (plain_memberName hp.name)⟩ (fun debt => debt.1)

theorem legible_indexed (ho : value.Legible) (hi : ∀ e ∈ i, e.Legible) :
    (Context.indexed value i).Legible := by
  cases i with
  | none => exact ho
  | some i => exact ⟨ho, hi i rfl⟩

theorem cites_indexed (h : value.Cites typesAlias ∨ ∃ e ∈ i, e.Cites typesAlias) :
    (Context.indexed value i).Cites typesAlias := by
  cases i with
  | none => exact h.resolve_right (by simp)
  | some i => exact h.imp_right fun ⟨_, same, cites⟩ => Option.some.inj same ▸ cites

/-- What the owner of a property and an index cite, before they are used. -/
def AccessCites (p : Property) (owner : Expr) (i : Option Expr) : Prop :=
  (owner.Cites typesAlias ∧ contains p.className "::" = false) ∨ ∃ e ∈ i, e.Cites typesAlias

@[simp] theorem accessCites_none : AccessCites p owner none ↔
    owner.Cites typesAlias ∧ contains p.className "::" = false := by
  simp [AccessCites]

@[simp] theorem accessCites_some {i : Expr} : AccessCites p owner (some i) ↔
    (owner.Cites typesAlias ∧ contains p.className "::" = false) ∨ i.Cites typesAlias := by
  simp [AccessCites]

/-- Reading a property cites the package of types if it needs it. -/
theorem owes_readFrom (hx : x.Spelled) (hp : p.Spelled) (ho : owner.Legible) (hi : ∀ e ∈ i, e.Legible) :
    (x.readFrom p owner i).Owes (AccessCites p owner i) LegiblePart PartCites := by
  rw [Context.readFrom]
  split
  · refine .bind owes_checkId fun check hc => .bind (owes_goType hx hp.type) fun type ht => .pure ⟨?_, ?_⟩ ?_
    · exact forall_mem_singleton.mpr hc
    · refine legible_indexed (legible_stored ho (AllChars.append ?_ ht)) hi
      split <;> decide
    · have marked (cites : Cites typesAlias type) :
          Cites typesAlias ((if p.isElement then "[]" else "") ++ type) := by
        split
        · exact cites.after (isMark_plain (by decide) ⟨']', by decide, by decide⟩)
        · rwa [String.empty_append]
      rintro (((⟨cites, -⟩ | cites) | ⟨⟨⟩⟩) | cites)
      · exact .inr (cites_indexed (.inl (.inl (.inl cites))))
      · exact .inr (cites_indexed (.inr cites))
      · exact .inr (cites_indexed (.inl (.inr (marked cites))))
  · refine .andThen ((owes_memberAccess hp ho).frame _) fun e he =>
      .pure ⟨by rintro _ ⟨⟩, legible_indexed he hi⟩ ?_
    exact fun cites => .inr (cites_indexed cites)

theorem owes_writeTo (hx : x.Spelled) (hp : p.Spelled) (ho : owner.Legible) (hi : ∀ e ∈ i, e.Legible)
    (hv : value.Legible) :
    (x.writeTo p owner i value).Owes (AccessCites p owner i ∨ value.Cites typesAlias) Step.AllLegible
      (Step.AnyCites typesAlias) := by
  have method : Go.Legible (Context.setter p) := by
    rw [Context.setter]
    split <;> exact legible_plain (by decide)
  rw [Context.writeTo]
  split
  · refine .bind owes_checkId fun check hc => ?_
    cases i with
    | some i =>
      refine .bind (owes_goType hx hp.type) fun type ht => .pure ?_ ?_
      · have element := legible_stored (p := p) ho (AllChars.append (show AllChars IsPlain "[]" by decide) ht)
        exact forall_mem_cons.mpr ⟨hc, forall_mem_singleton.mpr ⟨⟨element, hi i rfl⟩, hv⟩⟩
      · intro debt
        refine ⟨_, mem_cons_of_mem _ mem_cons_self, ?_⟩
        rcases debt with ((((⟨cites, -⟩ | ⟨_, ⟨⟩, cites⟩) | cites) | ⟨⟨⟩⟩) | cites)
        · exact .inl (.inl (.inl (.inl cites)))
        · exact .inl (.inr cites)
        · exact .inr cites
        · exact .inl (.inl (.inr (cites.after (isMark_plain (by decide) ⟨']', by decide, by decide⟩))))
    | none =>
      refine .pure (forall_mem_cons.mpr ⟨hc, forall_mem_singleton.mpr ⟨⟨ho, method⟩, ?_⟩⟩) fun debt => ?_
      · rw [Expr.allLegible_iff]
        exact forall_mem_append.mpr
          ⟨Expr.allLegible_iff.mp legible_lookupArgs, forall_mem_singleton.mpr hv⟩
      · refine ⟨_, mem_cons_of_mem _ mem_cons_self, ?_⟩
        rcases debt with (((⟨cites, -⟩ | ⟨_, ⟨⟩, _⟩) | cites) | ⟨⟨⟩⟩)
        · exact .inl cites
        · exact .inr (Expr.anyCites_iff.mpr ⟨value, mem_append_right _ mem_cons_self, cites⟩)
  · refine .andThen (((owes_memberAccess hp ho).frame _).frame _) fun e he => .pure ?_ fun debt => ?_
    · exact forall_mem_singleton.mpr ⟨legible_indexed he hi, hv⟩
    · exact Step.anyCites_singleton.mpr (debt.imp_left cites_indexed)

theorem Emission.Legible.index (h : e.Legible) (hs : AllChars IsPlain slot) :
    Step.AllLegible (e.bind (Context.indexSlot slot)).1 ∧
      ∀ i ∈ some (e.bind (Context.indexSlot slot)).2, i.Legible := by
  have bound := h.bind (AllChars.append hs (show AllChars IsPlain "Index" by decide))
  refine ⟨bound.1, ?_⟩
  rintro _ ⟨⟩
  exact bound.2

theorem Operand.DeepSpelled.index {i : Variable} (h : (Operand.var (.element p i)).DeepSpelled x) :
    (Operand.var i).DeepSpelled x := fun inner part => h inner (.index part)

/-- Reading a variable cites the package of types if it needs it. -/
theorem owes_readVariable (hx : x.Spelled) : ∀ {v : Variable} {slot : String},
    (Operand.var v).DeepSpelled x → AllChars IsPlain slot →
      (x.readVariable v slot).Owes False (fun e => e.Legible ∧ e.post = []) Emission.Cites
  | .const native value, slot, h, hs => by
      have self := h _ .self
      exact owes_constant hx self.1 self.2 hs
  | .property p, slot, h, hs => by
      have self : p.Spelled := h _ .self
      refine .bind (owes_ownerOf hx self hs) fun owner ho => ?_
      refine .pay (owes_readFrom hx self ho.2 (by simp)) (Step.AnyCites typesAlias owner.1) ?_
        fun read hr => ?_
      · rw [accessCites_none]
        tauto
      · refine .pure ⟨⟨forall_mem_append.mpr ⟨ho.1, hr.1⟩, hr.2, by rintro _ ⟨⟩⟩, rfl⟩ ?_
        rw [PartCites, Emission.Cites, Step.anyCites_append]
        tauto
  | .element p i, slot, h, hs => by
      have self : p.Spelled := h _ .self
      have inner : AllChars IsPlain (Context.indexSlot slot) := AllChars.append hs (by decide)
      refine .bind (owes_ownerOf hx self hs) fun owner ho => ?_
      refine .bind (owes_readVariable hx h.index inner) fun index hi => ?_
      have bound (cites : index.Cites) := cites.bind (Context.indexSlot slot)
      obtain ⟨steps, given⟩ := hi.1.index hs
      refine .pay (owes_readFrom hx self ho.2 given)
        (Step.AnyCites typesAlias (owner.1 ++ (index.bind (Context.indexSlot slot)).1)) ?_ fun read hr => ?_
      · rw [accessCites_some, Step.anyCites_append]
        rw [PartCites] at bound
        tauto
      · refine .pure ⟨⟨forall_mem_append.mpr ⟨forall_mem_append.mpr ⟨ho.1, steps⟩, hr.1⟩, hr.2,
          by rintro _ ⟨⟩⟩, rfl⟩ ?_
        simp only [PartCites, Emission.Cites, Step.anyCites_append]
        tauto

/-- Storing in a variable cites the package of types if it needs it. -/
theorem owes_writeVariable (hx : x.Spelled) {v : Variable} (h : (Operand.var v).DeepSpelled x)
    (settable : v.property?.isSome = true) (hv : value.Legible) (hs : AllChars IsPlain slot) :
    (x.writeVariable v value slot).Owes (value.Cites typesAlias) Step.AllLegible
      (Step.AnyCites typesAlias) := by
  cases v with
  | const native c => cases settable
  | property p =>
    have self : p.Spelled := h _ .self
    refine .bind (owes_ownerOf hx self hs) fun owner ho => ?_
    refine .pay (owes_writeTo hx self ho.2 (by simp) hv) (Step.AnyCites typesAlias owner.1) ?_
      fun steps hw => ?_
    · rw [accessCites_none]
      tauto
    · exact .pure (forall_mem_append.mpr ⟨ho.1, hw⟩) fun debt => Step.anyCites_append.mpr debt.symm
  | element p i =>
    have self : p.Spelled := h _ .self
    have inner : AllChars IsPlain (Context.indexSlot slot) := AllChars.append hs (by decide)
    refine .bind (owes_ownerOf hx self hs) fun owner ho => ?_
    refine .bind (owes_readVariable hx h.index inner) fun index hi => ?_
    have bound (cites : index.Cites) := cites.bind (Context.indexSlot slot)
    obtain ⟨steps, given⟩ := hi.1.index hs
    refine .pay (owes_writeTo hx self ho.2 given hv)
      (Step.AnyCites typesAlias (owner.1 ++ (index.bind (Context.indexSlot slot)).1)) ?_ fun _ hw => ?_
    · rw [accessCites_some, Step.anyCites_append]
      rw [PartCites] at bound
      tauto
    · exact .pure (forall_mem_append.mpr ⟨forall_mem_append.mpr ⟨ho.1, steps⟩, hw⟩)
        fun debt => Step.anyCites_append.mpr debt.symm

end Variables

/-! ### Calls -/

/-- The texts in the arguments of a call and in the steps around it are legible. -/
structure Context.Arguments.Legible (a : Context.Arguments) : Prop where
  pre : Step.AllLegible a.pre
  exprs : Expr.AllLegible a.exprs
  post : Step.AllLegible a.post

/-- An argument of a call or a step around it cites the generated types. -/
def Context.Arguments.Cites (a : Context.Arguments) : Prop :=
  Step.AnyCites typesAlias a.pre ∨ Expr.AnyCites typesAlias a.exprs ∨ Step.AnyCites typesAlias a.post

section Calls

open Context (Arguments)

variable {slot : String} {x : Context} {p : Param} {e : Emission}

theorem legible_noArguments : Arguments.Legible {} := ⟨by rintro _ ⟨⟩, trivial, by rintro _ ⟨⟩⟩

theorem Context.Arguments.Legible.append {a b : Arguments} (ha : a.Legible) (hb : b.Legible) :
    (a.append b).Legible where
  pre := forall_mem_append.mpr ⟨ha.pre, hb.pre⟩
  exprs := Expr.allLegible_iff.mpr
    (forall_mem_append.mpr ⟨Expr.allLegible_iff.mp ha.exprs, Expr.allLegible_iff.mp hb.exprs⟩)
  post := forall_mem_append.mpr ⟨ha.post, hb.post⟩

theorem Context.Arguments.cites_append {a b : Arguments} : (a.append b).Cites ↔ a.Cites ∨ b.Cites := by
  have exprs : Expr.AnyCites typesAlias (a.exprs ++ b.exprs) ↔
      Expr.AnyCites typesAlias a.exprs ∨ Expr.AnyCites typesAlias b.exprs := by
    simp only [Expr.anyCites_iff, mem_append, or_and_right, exists_or]
  simp only [Arguments.Cites, Arguments.append, exprs, Step.anyCites_append]
  tauto

/-- One emission of arguments after another. -/
theorem owes_append {first second : Emit Arguments} (h : first.Owes False Arguments.Legible Arguments.Cites)
    (h' : second.Owes False Arguments.Legible Arguments.Cites) :
    (first >>= fun a => second >>= fun b => pure (a.append b)).Owes False Arguments.Legible Arguments.Cites :=
  .bind h fun _ ha => .bind h' fun _ hb =>
    .pure (ha.append hb) fun debt => Context.Arguments.cites_append.mpr
    (debt.imp_left fun own => own.resolve_left id)

theorem legible_literalFor (ty : ValueType) (h : AllChars IsPlain type) :
    ∀ e ∈ literalFor ty type none, e.Legible := by
  cases ty with
  | void => rintro _ ⟨⟩
  | bool | char | integer | float | double | agent | array | unknown =>
    rintro _ ⟨⟩
    exact legible_plain (by decide +kernel)
  | string =>
    rintro _ ⟨⟩
    trivial
  | status =>
    rintro _ ⟨⟩
    exact legible_status _
  | enum =>
    rintro _ ⟨⟩
    exact ⟨legible_plain (by decide), legible_plain h⟩
  | struct _ isRef => cases isRef with
    | true =>
      rintro _ ⟨⟩
      exact legible_nil
    | false =>
      rintro _ ⟨⟩
      exact legible_plain h

theorem cites_literalFor {ty : ValueType} (named : ty.namesDefault = true) (h : Cites typesAlias type) :
    ∃ e ∈ literalFor ty type none, e.Cites typesAlias := by
  cases ty with
  | enum => exact ⟨_, rfl, .inr h⟩
  | struct _ isRef => cases isRef with
    | true => cases named
    | false => exact ⟨_, rfl, h⟩
  | _ => cases named

/-- An unbound parameter: a generated type is named by its default. -/
theorem owes_unboundArgument (hx : x.Spelled) (h : p.Spelled x) :
    (x.unboundArgument p).Owes False Arguments.Legible Arguments.Cites := by
  have type := owes_goType hx h.type
  have named : (x.goType p.type).Owes False (AllChars IsPlain)
      (fun type => Cites typesAlias type ∧ (x.catalog.classify p.type).namesDefault = true) :=
    { type with cites := fun debt => (type.cites debt).imp_left fun c => ⟨c, h.named (debt.resolve_left id)⟩ }
  have literal : (x.defaultLiteral p.type none).Owes False (fun o => ∀ e ∈ o, e.Legible)
      (fun o => ∃ e ∈ o, e.Cites typesAlias) := by
    refine .bind named fun type plain => ?_
    have each := legible_literalFor (x.catalog.classify p.type) plain
    have shown (debt : False ∨ Cites typesAlias type ∧ (x.catalog.classify p.type).namesDefault = true) :=
      cites_literalFor (debt.resolve_left id).2 (debt.resolve_left id).1
    generalize literalFor (x.catalog.classify p.type) type none = literal at each shown ⊢
    cases literal with
    | none => exact .pure each shown
    | some e =>
      exact .bind (owes_notePackages e.text) fun _ _ => .pure each fun debt => shown (debt.resolve_right id)
  refine .bind literal fun o ho => .pure ⟨by rintro _ ⟨⟩, ⟨?_, trivial⟩, by rintro _ ⟨⟩⟩ ?_
  · cases o with
    | none => exact legible_nil
    | some e => exact ho e rfl
  · rintro (⟨⟨⟩⟩ | ⟨e, rfl, cites⟩)
    exact .inr (.inl (.inl cites))

theorem owes_unboundArguments (hx : x.Spelled) : ∀ {params : List Param}, (∀ p ∈ params, p.Spelled x) →
    (x.unboundArguments params).Owes False Arguments.Legible Arguments.Cites
  | [], _ => .pure legible_noArguments False.elim
  | p :: params, h => by
      rw [forall_mem_cons] at h
      exact owes_append (owes_unboundArgument hx h.1) (owes_unboundArguments hx h.2)

theorem mem_bindings_nil : ∀ {params : List Param} {p : Param}, p ∈ params → (p, none) ∈ bindings params []
  | _ :: _, p, mem => by
      rcases mem_cons.mp mem with rfl | mem
      · exact mem_cons_self
      · exact mem_cons_of_mem _ (mem_bindings_nil mem)

theorem legible_address (hs : AllChars IsPlain slot) :
    Expr.AllLegible [.address slot] := ⟨legible_plain hs, trivial⟩

theorem owes_constArgument (hx : x.Spelled) {native : String} (h : AllChars IsPlain native) {value : Value}
    (hv : value.Spelled) (hs : AllChars IsPlain slot) :
    (x.constArgument p native value slot).Owes False Arguments.Legible Arguments.Cites := by
  refine .bind (owes_capture hx h hv hs) fun field hf => ?_
  split
  · refine .pure ⟨?_, legible_address hs, by rintro _ ⟨⟩⟩ (by simp)
    exact forall_mem_singleton.mpr ⟨legible_plain hs, hf⟩
  · exact .pure ⟨by rintro _ ⟨⟩, ⟨hf, trivial⟩, by rintro _ ⟨⟩⟩ (by simp)

theorem Emission.Legible.define (h : e.Legible) (hs : AllChars IsPlain slot) :
    Step.AllLegible (e.pre ++ [.define slot e.expr]) :=
  forall_mem_append.mpr ⟨h.pre, forall_mem_singleton.mpr ⟨legible_plain hs, h.expr⟩⟩

/-- A variable as an argument. A read has no steps after it, so it is all in front of the call. -/
theorem owes_variableArgument (hx : x.Spelled) {v : Variable} (h : (Operand.var v).DeepSpelled x)
    (he : e.Legible) (alone : e.post = []) (hs : AllChars IsPlain slot) :
    (x.variableArgument p v e slot).Owes e.Cites Arguments.Legible Arguments.Cites := by
  have read (cites : e.Cites) : Step.AnyCites typesAlias e.pre ∨ e.expr.Cites typesAlias := by
    rw [Emission.Cites, alone] at cites
    exact cites.imp_right fun later => later.resolve_right Step.anyCites_nil
  have defined : Step.AnyCites typesAlias (e.pre ++ [.define slot e.expr]) ↔
      Step.AnyCites typesAlias e.pre ∨ e.expr.Cites typesAlias := by
    rw [Step.anyCites_append, Step.anyCites_singleton]
    rfl
  rw [Context.variableArgument]
  split
  · have pass (post : List Step) (hp : Step.AllLegible post) :
        (pure ⟨e.pre ++ [.define slot e.expr], [.address slot], post⟩ : Emit Arguments).Owes
          (e.Cites ∨ Step.AnyCites typesAlias post) Arguments.Legible Arguments.Cites := by
      refine .pure ⟨he.define hs, legible_address hs, hp⟩ ?_
      rw [Context.Arguments.Cites, defined]
      tauto
    dsimp only
    split
    · next writable =>
      have settable : v.property?.isSome = true := by
        rw [Context.isWritable] at writable
        split at writable
        · next found => rw [found, Option.isSome_some]
        · cases writable
      have named : (Expr.name slot).Legible := legible_plain hs
      refine .bind ((owes_writeVariable hx h settable named (AllChars.append hs ?_)).mono False.elim
        (fun _ => id)
        fun _ _ => id) pass
      decide
    · exact .bind (.pure (by rintro _ ⟨⟩) False.elim) pass
  · refine .pure ⟨he.pre, ⟨he.expr, trivial⟩, by rintro _ ⟨⟩⟩ fun cites => ?_
    rcases read cites with first | last
    · exact .inl first
    · exact .inr (.inl (.inl last))

theorem legible_callArgument (he : e.Legible) (hs : AllChars IsPlain slot) :
    (Context.callArgument p e slot).Legible := by
  rw [Context.callArgument]
  split
  · exact ⟨forall_mem_append.mpr ⟨he.define hs, he.post⟩, legible_address hs, by rintro _ ⟨⟩⟩
  · have bound := he.bind hs
    exact ⟨bound.1, ⟨bound.2, trivial⟩, by rintro _ ⟨⟩⟩

theorem cites_callArgument (h : e.Cites) : (Context.callArgument p e slot).Cites := by
  rw [Context.callArgument]
  split
  · left
    rw [Step.anyCites_append, Step.anyCites_append, Step.anyCites_singleton, or_assoc]
    exact h
  · rcases h.bind slot with first | last
    · exact .inl first
    · exact .inr (.inl (.inl last))

theorem owes_givenArgument (hx : x.Spelled) {o : Operand} (h : o.DeepSpelled x) (hs : AllChars IsPlain slot)
    (ho : (x.operand o slot).Owes False Emission.Legible Emission.Cites) :
    (x.givenArgument p o slot).Owes False Arguments.Legible Arguments.Cites := by
  fun_cases Context.givenArgument x p o slot with
  | case1 native value =>
    have self := h _ .self
    exact owes_constArgument hx self.1 self.2 hs
  | case2 v => exact .andThen (owes_readVariable hx h hs) fun _ he => owes_variableArgument hx h he.1 he.2 hs
  | case3 => exact .andThen ho fun _ he => .pure (legible_callArgument he hs) cites_callArgument

/-- A call cites the package of types if it or its arguments need it. -/
theorem owes_invoke (hx : x.Spelled) {m : Method} (hm : m.Spelled) {args : Arguments} (ha : args.Legible)
    (hs : AllChars IsPlain slot) :
    (x.invoke m args slot).Owes args.Cites Emission.Legible Emission.Cites := by
  have called (r : List Step × Expr) (hr : LegiblePart r) :
      (pure ⟨r.1 ++ args.pre, .call (.select r.2 (memberName m.name)) args.exprs,
        args.post⟩ : Emit Emission).Owes
        (args.Cites ∨ PartCites r) Emission.Legible Emission.Cites := by
    refine .pure ⟨forall_mem_append.mpr ⟨hr.1, ha.pre⟩, ⟨⟨hr.2, ?_⟩, ha.exprs⟩, ha.post⟩ ?_
    · exact legible_plain (plain_memberName hm.name)
    · have call : (Expr.call (.select r.2 (memberName m.name)) args.exprs).Cites typesAlias ↔
          r.2.Cites typesAlias ∨ Expr.AnyCites typesAlias args.exprs := Iff.rfl
      rw [Context.Arguments.Cites, PartCites, Emission.Cites, Step.anyCites_append, call]
      tauto
  rw [Context.invoke]
  split
  · refine .bind (owes_receiver hm.className) fun agent hr => .andThen (.pure ⟨by rintro _ ⟨⟩, hr⟩ ?_) called
    exact Or.imp_right fun cites => .inr cites.1
  · next agent named =>
    refine .bind ((owes_namedAgent hx (hm.owner agent named) hm.className hs).mono id (fun _ => id) ?_) called
    exact fun _ _ cites => cites.imp_right And.left

theorem plain_argSlot (hs : AllChars IsPlain slot) (i : Nat) : AllChars IsPlain (Context.argSlot slot i) :=
  (AllChars.append hs (by decide)).append fun _ hc => isPlain_of_not_isGap (by
    rw [isGap, isIdentifierChar_of_isDigit (isDigit_of_mem_toString hc)]
    rfl)

/-- Arguments cite the package of types if one of them needs it. -/
theorem owes_arguments (hx : x.Spelled) : ∀ {params : List Param} {args : List (Option Operand)} {i : Nat},
    (∀ p, (p, none) ∈ bindings params args → p.Spelled x) → AllChars IsPlain slot →
    (∀ o, some o ∈ args → o.DeepSpelled x ∧
      ∀ slot, AllChars IsPlain slot → (x.operand o slot).Owes False Emission.Legible Emission.Cites) →
    (x.arguments params args slot i).Owes False Arguments.Legible Arguments.Cites
  | [], args, i, _, _, _ => by
      rw [Context.arguments]
      exact .pure legible_noArguments False.elim
  | p :: params, [], i, hp, _, _ => by
      rw [Context.arguments]
      · exact owes_unboundArguments hx fun p mem => hp p (mem_bindings_nil mem)
      · exact cons_ne_nil p params
  | p :: params, none :: args, i, hp, hs, ho => by
      rw [Context.arguments]
      exact owes_append (owes_unboundArgument hx (hp p mem_cons_self))
        (owes_arguments hx (fun p mem => hp p (mem_cons_of_mem _ mem)) hs
          fun o mem => ho o (mem_cons_of_mem _ mem))
  | p :: params, some o :: args, i, hp, hs, ho => by
      obtain ⟨deep, owes⟩ := ho o mem_cons_self
      have at' := plain_argSlot hs i
      rw [Context.arguments_some]
      exact owes_append (owes_givenArgument hx deep at' (owes _ at'))
        (owes_arguments hx (fun p mem => hp p (mem_cons_of_mem _ mem)) hs
          fun o mem => ho o (mem_cons_of_mem _ mem))

/-- An operand that needs the generated types cites them, in its code or in what it leaves to its class. -/
theorem owes_operand (hx : x.Spelled) {o : Operand} :
    ∀ {slot : String}, o.DeepSpelled x → AllChars IsPlain slot →
    (x.operand o slot).Owes False Emission.Legible Emission.Cites := by
  induction o using Operand.nested_induction with
  | var v =>
    intro slot h hs
    rw [Context.operand]
    exact (owes_readVariable hx h hs).mono id (fun _ => And.left) fun _ _ => id
  | call m args ih =>
    intro slot h hs
    have self : m.Spelled ∧ ∀ p, (p, none) ∈ bindings m.params args → p.Spelled x := h _ .self
    have each (o : Operand) (mem : some o ∈ args) : o.DeepSpelled x := fun inner part =>
      h inner (.arg mem part)
    rw [Context.operand]
    exact .andThen (owes_arguments hx self.2 hs fun o mem => ⟨each o mem, fun _ => ih o mem (each o mem)⟩)
      fun _ ha => owes_invoke hx self.1 ha hs

end Calls

end GoTrees
