import GoTrees.Proofs.Citations
import GoTrees.Proofs.Coverage

/-!
# Debts of types

The import of the generated types is noted wherever the Go type of a native spelling or the path of a class is
worked out. An emission owes a citation from the moment the import is noted, and pays when the type is written:

    goType "Vector"           needs types       owes  types.Vector
    new(types.Vector)                           pays

It pays in its own code, or in a field or a step that it leaves to its class. This module has the rules of
debts, and the names, types and constants that all others are made of.
-/

namespace GoTrees

open Go Text List

/-! ### Spelled inputs -/

namespace Go

theorem upperChar_plain {c : Char} (h : IsPlain c) : ∀ d ∈ upperChar c, IsPlain d := by
  have caseless : Caseless [(34, 34), (39, 39), (47, 47)] := by decide +kernel
  have plain_iff (d : Char) :
      IsPlain d ↔ ∀ r ∈ [(34, 34), (39, 39), (47, 47)], d.toNat < r.1 ∨ r.2 < d.toNat := by
    have string : d = '"' ↔ d.toNat = 34 := Char.toNat_inj.symm
    have mark : d = '\'' ↔ d.toNat = 39 := Char.toNat_inj.symm
    have slash : d = '/' ↔ d.toNat = 47 := Char.toNat_inj.symm
    simp [IsPlain, string, mark, slash]
  intro d hd
  rw [plain_iff] at h ⊢
  exact caseless.upperChar h d hd

theorem plain_memberName {name : String} (h : AllChars IsPlain name) : AllChars IsPlain (memberName name) :=
  allChars_pascalCase (fun _ hc => upperChar_plain hc) (allChars_basicName h)

theorem plain_ofNative {native : String} (h : AllChars IsPlain native) :
    AllChars IsPlain (GoType.ofNative [] native) := by
  have table : ∀ e ∈ GoType.nativeReplacements ++ GoType.goReplacements, AllChars IsPlain e.2 := by decide
  rw [List.forall_mem_append] at table
  exact GoType.allChars_renamed (by simp) (GoType.allChars_sliced (by decide)
    (GoType.allChars_replaceAll table.2 (GoType.allChars_replaceAll table.1 h)))

end Go

mutual

/-- The names in a constant have no quotes and slashes. -/
def Value.Spelled : Value → Prop
  | .member name => AllChars IsPlain name
  | .array items => Value.AllSpelled items
  | .struct fields => Value.FieldsSpelled fields
  | _ => True

/-- The names in constants have no quotes and slashes. -/
def Value.AllSpelled : List Value → Prop
  | [] => True
  | v :: vs => v.Spelled ∧ Value.AllSpelled vs

/-- The names of fields and those in their values have no quotes and slashes. -/
def Value.FieldsSpelled : List (String × Value) → Prop
  | [] => True
  | (name, v) :: fields => AllChars IsPlain name ∧ v.Spelled ∧ Value.FieldsSpelled fields

end

/-- The agent that something belongs to is named without quotes and slashes. -/
def Owner.Spelled (o : Owner) : Prop := ∀ agent, o = .named agent → AllChars IsPlain agent

/-- The names and the type of a property have no quotes and slashes. -/
structure Property.Spelled (p : Property) : Prop where
  name : AllChars IsPlain p.basicName
  className : AllChars IsPlain p.className
  type : AllChars IsPlain p.type
  owner : p.owner.Spelled

/-- The names and the result type of a method have no quotes and slashes. -/
structure Method.Spelled (m : Method) : Prop where
  name : AllChars IsPlain m.name
  className : AllChars IsPlain m.className
  result : AllChars IsPlain m.result
  owner : m.owner.Spelled

def ValueType.namesDefault : ValueType → Bool
  | .enum _ | .struct _ false => true
  | _ => false

/-- The default of an unbound parameter is written with the name of its type, if this is a generated type. -/
structure Param.Spelled (x : Context) (p : Param) : Prop where
  type : AllChars IsPlain p.type
  named : .types ∈ (x.goType p.type).needs.imports → (x.catalog.classify p.type).namesDefault = true

/-- What an operand says itself has no quotes and slashes, and the defaults of unbound parameters name their
types. -/
def Operand.Spelled (x : Context) : Operand → Prop
  | .var (.const native value) => AllChars IsPlain native ∧ value.Spelled
  | .var (.property p) | .var (.element p _) => p.Spelled
  | .call m args => m.Spelled ∧ ∀ p, (p, none) ∈ bindings m.params args → p.Spelled x

/-- What an operand says at every depth is spelled. -/
def Operand.DeepSpelled (x : Context) (o : Operand) : Prop := ∀ inner : Operand, inner.Part o → inner.Spelled x

/-- The agent type and the fields of structs have no quotes and slashes, and no type is renamed. -/
structure Context.Spelled (x : Context) : Prop where
  renames : x.config.renames = []
  agentType : AllChars IsPlain x.agentType
  structs : ∀ s ∈ x.catalog.structs, ∀ p ∈ s.properties, AllChars IsPlain p.type

/-! ### Debts -/

namespace Go

abbrev Step.AllLegible (ss : List Step) : Prop := ∀ s ∈ ss, s.Legible

def Step.AnyCites (q : String) (ss : List Step) : Prop := ∃ s ∈ ss, s.Cites q

variable {q : String}

theorem Step.anyCites_append {as bs : List Step} :
    Step.AnyCites q (as ++ bs) ↔ Step.AnyCites q as ∨ Step.AnyCites q bs := by
  simp only [Step.AnyCites, List.mem_append, or_and_right, exists_or]

@[simp] theorem Step.anyCites_singleton {s : Step} : Step.AnyCites q [s] ↔ s.Cites q := by simp [Step.AnyCites]

@[simp] theorem Step.anyCites_nil : ¬ Step.AnyCites q [] := by simp [Step.AnyCites]

end Go

/-- The fields and the steps that emitted code leaves to its class are legible. -/
structure Needs.Legible (n : Needs) : Prop where
  fields : ∀ r ∈ n.fields, Go.Legible r.name
  setup : Step.AllLegible n.setup

/-- A field or a step that emitted code leaves to its class cites the generated types. -/
def Needs.Cites (n : Needs) : Prop :=
  (∃ r ∈ n.fields, Go.Cites typesAlias r.type) ∨ Step.AnyCites typesAlias n.setup

theorem Needs.Legible.append {a b : Needs} (ha : a.Legible) (hb : b.Legible) : (a ++ b).Legible where
  fields := List.forall_mem_append.mpr ⟨ha.fields, hb.fields⟩
  setup := List.forall_mem_append.mpr ⟨ha.setup, hb.setup⟩

theorem Needs.cites_append {a b : Needs} : (a ++ b).Cites ↔ a.Cites ∨ b.Cites := by
  have fields : (a ++ b).fields = a.fields ++ b.fields := rfl
  have setup : (a ++ b).setup = a.setup ++ b.setup := rfl
  simp only [Needs.Cites, fields, setup, Step.anyCites_append, List.mem_append, or_and_right, exists_or]
  exact or_or_or_comm

/-- The value of the emission is legible, and with a debt, or with the import of the generated types among its
needs, its value cites them, or what it leaves to its class does. It needs no other import but the runtime. -/
structure Emit.Owes {α : Type} (owed : Prop) (e : Emit α) (L C : α → Prop) : Prop where
  legible : L e.value
  needs : e.needs.Legible
  imports : ∀ i ∈ e.needs.imports, i = .runtime "bt" ∨ i = .types
  cites : owed ∨ .types ∈ e.needs.imports → C e.value ∨ e.needs.Cites

namespace Emit.Owes

variable {α β : Type} {owed : Prop} {L C : α → Prop} {L' C' : β → Prop}

theorem pure {a : α} (legible : L a) (pays : owed → C a) : Owes owed (Pure.pure a) L C :=
  ⟨legible, ⟨by rintro _ ⟨⟩, by rintro _ ⟨⟩⟩, by rintro _ ⟨⟩,
    fun h => .inl (pays (h.resolve_right (by rintro ⟨⟩)))⟩

/-- The first emission pays, and the second pays for what the value of the first cites. -/
theorem andThen {e : Emit α} {f : α → Emit β} (he : Owes owed e L C) (hf : ∀ a, L a → Owes (C a) (f a) L' C') :
    Owes owed (e >>= f) L' C' := by
  have next := hf e.value he.legible
  refine ⟨next.legible, he.needs.append next.needs, List.forall_mem_append.mpr ⟨he.imports, next.imports⟩, ?_⟩
  intro h
  rw [Emit.needs_bind, Needs.imports_append, List.mem_append] at h
  rw [Emit.needs_bind, Needs.cites_append]
  have first := he.cites
  have second := next.cites
  tauto

theorem mono {e : Emit α} {owed' : Prop} {K D : α → Prop} (he : Owes owed e L C) (debt : owed' → owed)
    (legible : ∀ a, L a → K a) (cites : ∀ a, L a → C a → D a) : Owes owed' e K D :=
  ⟨legible _ he.legible, he.needs, he.imports, fun h =>
    (he.cites (h.imp_left debt)).imp_left (cites _ he.legible)⟩

/-- A debt that an emission does not pay stays. -/
theorem frame {e : Emit α} (he : Owes owed e L C) (kept : Prop) :
    Owes (owed ∨ kept) e L (fun a => C a ∨ kept) :=
  ⟨he.legible, he.needs, he.imports, fun h => by
    have own := he.cites
    tauto⟩

/-- The first emission pays for a part of the debt, and the second for the rest. -/
theorem pay {e : Emit α} {f : α → Emit β} {owed' : Prop} (he : Owes owed e L C) (kept : Prop)
    (debt : owed' → owed ∨ kept) (hf : ∀ a, L a → Owes (C a ∨ kept) (f a) L' C') :
    Owes owed' (e >>= f) L' C' :=
  ((he.frame kept).mono debt (fun _ => id) fun _ _ => id).andThen hf

/-- The second emission pays for both. -/
theorem bind {e : Emit α} {f : α → Emit β} (he : Owes False e L C)
    (hf : ∀ a, L a → Owes (owed ∨ C a) (f a) L' C') : Owes owed (e >>= f) L' C' :=
  he.pay owed .inr fun a ha => (hf a ha).mono Or.symm (fun _ => id) fun _ _ => id

theorem requireTypes : Owes False (Emit.require .types) (fun _ => True) fun _ => True :=
  ⟨trivial, ⟨by rintro _ ⟨⟩, by rintro _ ⟨⟩⟩, List.forall_mem_singleton.mpr (.inr rfl), fun _ => .inl trivial⟩

theorem useRuntime : Owes False (Emit.usePackage "bt") (fun _ => True) fun _ => False := by
  refine ⟨trivial, ⟨by rintro _ ⟨⟩, by rintro _ ⟨⟩⟩, List.forall_mem_singleton.mpr (.inl rfl), ?_⟩
  rintro (⟨⟨⟩⟩ | h)
  cases List.mem_singleton.mp h

theorem capture {row : Row} {setup : List Step} (name : Go.Legible row.name) (steps : Step.AllLegible setup)
    (pays : owed → Go.Cites typesAlias row.type ∨ Step.AnyCites typesAlias setup) :
    Owes owed (Emit.capture row setup) (fun _ => True) fun _ => False := by
  refine ⟨trivial, ⟨List.forall_mem_singleton.mpr name, steps⟩, by rintro _ ⟨⟩, fun h => .inr ?_⟩
  refine (pays (h.resolve_right (by rintro ⟨⟩))).imp_left fun type => ?_
  exact ⟨row, List.mem_singleton_self row, type⟩

end Emit.Owes

/-! ### Names and types -/

section Types

variable {x : Context} {native className : String}

theorem owes_notePackages (text : String) :
    (Context.notePackages text).Owes False (fun _ => True) fun _ => False := by
  rw [Context.notePackages]
  split
  · exact .useRuntime
  · exact .pure trivial id

/-- A type that needs the package of types cites it. -/
theorem owes_goType (hx : x.Spelled) (h : AllChars IsPlain native) :
    (x.goType native).Owes False (AllChars IsPlain) (Cites typesAlias) := by
  have plain := plain_ofNative h
  rw [Context.goType, hx.renames]
  generalize GoType.ofNative [] native = type at plain
  obtain ⟨whole, slice⟩ := splitSlice_append type
  generalize Context.splitSlice type = parts at whole slice ⊢
  obtain ⟨mark, element⟩ := parts
  dsimp only at whole slice ⊢
  refine .bind (owes_notePackages type) fun _ _ => ?_
  split
  · refine .bind .requireTypes fun _ _ => .pure ?_ fun _ => ?_
    · have element : AllChars IsPlain element := fun c hc => plain c (by rw [← whole]; simp [hc])
      have types : AllChars IsPlain (mark ++ typesAlias) := by
        rcases slice with rfl | rfl <;> decide
      exact (types.append (by decide)).append element
    · have own := cites_self typesAlias element
      rcases slice with rfl | rfl
      · rwa [String.empty_append]
      · have behind := own.after (s := "[]") (isMark_plain (by decide) ⟨']', by decide, by decide⟩)
        simpa only [String.append_assoc] using behind
  · exact .pure plain (by rintro (⟨⟨⟩⟩ | ⟨⟨⟩⟩))

theorem owes_classPath (h : AllChars IsPlain className) :
    (Context.classPath className).Owes (contains className "::" = false) (AllChars IsPlain)
      (fun path => Cites typesAlias path ∧ contains className "::" = false) := by
  rw [Context.classPath]
  split
  · next spaced =>
    exact .pure (h.replace (by decide) "::") fun flat => absurd (spaced.symm.trans flat) (by decide)
  · next flat =>
    exact .bind .requireTypes fun _ _ => .pure (AllChars.append (by decide) h) fun _ =>
      ⟨cites_self typesAlias className, by simpa using flat⟩

theorem owes_assertedAgent {agent : Expr} (ha : agent.Legible) (h : AllChars IsPlain className) :
    (Context.assertedAgent agent className).Owes False Expr.Legible
      (fun e => e.Cites typesAlias ∧ contains className "::" = false) := by
  rw [Context.assertedAgent]
  split
  · exact .pure ha (by rintro ⟨⟩)
  · refine .andThen ((owes_classPath h).mono False.elim (fun _ => id) fun _ _ => id) fun path hp =>
      .pure ⟨ha, legible_plain (AllChars.append (by decide) hp)⟩ ?_
    rintro ⟨cites, flat⟩
    exact ⟨.inr (cites.after (isMark_plain (by decide) ⟨'*', by decide, by decide⟩)), flat⟩

theorem legible_agentVar : agentVar.Legible := legible_plain (by decide)

theorem owes_receiver (h : AllChars IsPlain className) :
    (Context.receiver className).Owes False Expr.Legible
      (fun e => e.Cites typesAlias ∧ contains className "::" = false) := owes_assertedAgent legible_agentVar h

end Types

/-! ### Constants -/

section Constants

variable {x : Context} {native : String} {value : Value}

theorem Go.Clean.legible {A : List Char → Prop} {s : String} (h : Clean A s) : Go.Legible s := by
  obtain ⟨out, reads, -⟩ := h
  exact ⟨out, reads⟩

theorem legible_status (s : Status) : s.expr.Legible := by
  cases s <;> exact ⟨legible_plain (by decide), legible_plain (by decide)⟩

theorem legible_float (f : Binary64) : Go.Legible f.text := by
  have clean : Clean (Usage.Permits ⟨[], typesAlias⟩) f.text := clean_float (watched_runtime mem_cons_self) f
  exact clean.legible

theorem legible_int (n : Int) : (Expr.int n).Legible := legible_plain fun c hc => (bare_toString n c hc).1

theorem legible_bool (b : Bool) : (Expr.bool b).Legible := by
  cases b <;> exact legible_plain (by decide)

theorem legible_nil : Expr.nil.Legible := legible_plain (by decide)

theorem owes_scalar (hx : x.Spelled) (h : AllChars IsPlain native) (hv : value.Spelled) :
    (x.scalar native value).Owes False (fun o => ∀ e ∈ o, e.Legible)
      (fun o => ∃ e ∈ o, e.Cites typesAlias) := by
  have one {e : Expr} (he : e.Legible) : ∀ e' ∈ some e, e'.Legible := by simpa using he
  cases value with
  | bool b => exact .pure (one (legible_bool b)) False.elim
  | int n => exact .pure (one (legible_int n)) False.elim
  | float f => exact .pure (one (legible_float f)) False.elim
  | char s => exact .pure (one (clean_rune (A := fun _ => True) _).legible) False.elim
  | string s => exact .pure (one trivial) False.elim
  | member name =>
    rw [Value.Spelled] at hv
    rw [Context.scalar]
    split
    · exact .bind .useRuntime fun _ _ => .pure (one (legible_status _)) (by rintro (⟨⟨⟩⟩ | ⟨⟨⟩⟩))
    · refine .bind (owes_goType hx h) fun type ht => .pure (one (legible_plain ?_)) ?_
      · exact (ht.append (by decide)).append hv
      · rintro (⟨⟨⟩⟩ | cites)
        exact ⟨_, rfl, (cites.append _).append _⟩
  | array items => exact .pure (by simp) False.elim
  | struct fields => exact .pure (by simp) False.elim

theorem owes_scalars (hx : x.Spelled) (h : AllChars IsPlain native) :
    ∀ {items : List Value}, Value.AllSpelled items →
      (x.scalars native items).Owes False Expr.AllLegible (Expr.AnyCites typesAlias)
  | [], _ => .pure trivial False.elim
  | v :: vs, hv => by
      rw [Value.AllSpelled] at hv
      refine .bind (owes_scalar hx h hv.1) fun o ho => .bind (owes_scalars hx h hv.2) fun es hes => .pure ?_ ?_
      · rw [Expr.allLegible_iff] at hes ⊢
        exact forall_mem_append.mpr ⟨fun e he => ho e (Option.mem_toList.mp he), hes⟩
      · rw [Expr.anyCites_iff, Expr.anyCites_iff]
        rintro ((⟨⟨⟩⟩ | ⟨e, he, cites⟩) | ⟨e, he, cites⟩)
        · exact ⟨e, mem_append_left _ (Option.mem_toList.mpr he), cites⟩
        · exact ⟨e, mem_append_right _ he, cites⟩

theorem owes_sliceLiteral (hx : x.Spelled) (h : AllChars IsPlain native) {items : List Value}
    (hv : Value.AllSpelled items) :
    (x.sliceLiteral native items).Owes False Expr.Legible (Expr.Cites typesAlias) :=
  .bind (owes_goType hx h) fun _ type =>
    .bind (owes_scalars hx (GoType.allChars_elementOrSelf h) hv) fun _ es =>
    .pure ⟨legible_plain type, es⟩ fun debt => debt.imp_left fun first => first.resolve_left id

theorem plain_fieldNative (hx : x.Spelled) {struct : Option StructType}
    (known : ∀ s ∈ struct, s ∈ x.catalog.structs) (field : String) :
    AllChars IsPlain (Context.fieldNative struct field) := by
  rw [Context.fieldNative]
  split
  · next p found =>
    obtain ⟨s, hs, hp⟩ := Option.bind_eq_some_iff.mp found
    exact hx.structs s (known s hs) p (mem_of_find?_eq_some hp)
  · rintro _ ⟨⟩

mutual

theorem owes_setFields (hx : x.Spelled) {target : Expr} (ht : target.Legible) {struct : Option StructType}
    (known : ∀ s ∈ struct, s ∈ x.catalog.structs) : ∀ {fields : List (String × Value)},
    Value.FieldsSpelled fields →
      (x.setFields target struct fields).Owes False Step.AllLegible (Step.AnyCites typesAlias)
  | [], _ => by
      rw [Context.setFields]
      exact .pure (by rintro _ ⟨⟩) False.elim
  | (field, value) :: fields, hf => by
      rw [Value.FieldsSpelled] at hf
      rw [Context.setFields]
      have inner : (Expr.select target (memberName field)).Legible :=
        ⟨ht, legible_plain (plain_memberName hf.1)⟩
      refine .bind (owes_setField hx inner (plain_fieldNative hx known field) hf.2.1) fun _ first =>
        .bind (owes_setFields hx ht known hf.2.2) fun _ rest => .pure (forall_mem_append.mpr ⟨first, rest⟩) ?_
      rw [Step.anyCites_append, false_or]
      exact id

/-- Setting a field cites the package of types if it needs it. -/
theorem owes_setField (hx : x.Spelled) {target : Expr} (ht : target.Legible) {native : String}
    (h : AllChars IsPlain native) : ∀ {value : Value}, value.Spelled →
      (x.setField target native value).Owes False Step.AllLegible (Step.AnyCites typesAlias)
  | .struct fields, hv => by
      rw [Value.Spelled] at hv
      rw [Context.setField]
      exact owes_setFields hx ht (fun s => structOf?_mem) hv
  | .array [], _ => by
      rw [Context.setField]
      exact .pure (by rintro _ ⟨⟩) False.elim
  | .array (item :: items), hv => by
      rw [Value.Spelled] at hv
      rw [Context.setField]
      refine .bind (owes_sliceLiteral hx h hv) fun e he => .pure (forall_mem_singleton.mpr ⟨ht, he⟩) ?_
      rw [Step.anyCites_singleton, false_or]
      exact .inr
  | .bool _, hv | .int _, hv | .float _, hv | .char _, hv | .string _, hv | .member _, hv => by
      simp only [Context.setField]
      refine .bind (owes_scalar hx h hv) fun o ho => ?_
      cases o with
      | none => exact .pure (by rintro _ ⟨⟩) (by simp)
      | some e =>
        refine .pure (forall_mem_singleton.mpr ⟨ht, ho e rfl⟩) ?_
        rintro (⟨⟨⟩⟩ | ⟨_, ⟨⟩, cites⟩)
        exact Step.anyCites_singleton.mpr (.inr cites)

end

/-- What is set in the constructor cites the package of types if it needs it. -/
theorem owes_captureSetup (hx : x.Spelled) {target : Expr} (ht : target.Legible) (h : AllChars IsPlain native)
    (hv : value.Spelled) :
    (x.captureSetup target native value).Owes False Step.AllLegible (Step.AnyCites typesAlias) := by
  rw [Context.captureSetup.eq_def]
  split
  · next fields =>
    have rest (new : List Step) (hn : Step.AllLegible new) :
        (x.setField target native (.struct fields) >>= fun steps => pure (new ++ steps)).Owes
          (Step.AnyCites typesAlias new) Step.AllLegible (Step.AnyCites typesAlias) :=
      .bind (owes_setField hx ht h hv) fun _ hs =>
        .pure (forall_mem_append.mpr ⟨hn, hs⟩) Step.anyCites_append.mpr
    dsimp only
    split
    · refine .bind (owes_goType hx h) fun _ type => .andThen (.pure ?_ ?_) rest
      · exact forall_mem_singleton.mpr ⟨ht, legible_plain type⟩
      · rw [Step.anyCites_singleton, false_or]
        exact .inr
    · exact .andThen (.pure (by rintro _ ⟨⟩) False.elim) rest
  · exact owes_setField hx ht h hv

theorem owes_capture (hx : x.Spelled) (h : AllChars IsPlain native) (hv : value.Spelled) {field : String}
    (hf : AllChars IsPlain field) :
    (x.capture native value field).Owes False Expr.Legible (fun _ => False) := by
  have target : (Expr.select self field).Legible := ⟨legible_plain (by decide), legible_plain hf⟩
  rw [Context.capture]
  refine .bind (owes_goType hx h) fun type ht => .bind (owes_captureSetup hx target h hv) fun steps hs =>
    .andThen (.capture (legible_plain hf) hs ?_) fun _ _ => .pure target False.elim
  rintro ((⟨⟨⟩⟩ | cites) | cites)
  · left
    dsimp only
    split
    · exact cites.after (isMark_plain (by decide) ⟨'*', by decide, by decide⟩)
    · rwa [String.empty_append]
  · exact .inr cites

end Constants

end GoTrees
