import GoTrees.Proofs.UsedClasses

/-!
# The runtime that type files cite

A type file needs the runtime if the Go type of a native spelling that it works out mentions it:

    EBTStatus    bt.Status     cites the runtime
    subt::Kind   subt.Kind     mentions it, as the end of another name

Fields, static variables, parameters and embedded structs are declared with their types, and a method with
the type of its result unless it returns nothing. So a file cites the runtime, if the types that mention it do.
-/

namespace GoTrees

open Go Text List

variable {f : Func} {native agent : String}

/-! ### Types in declarations -/

namespace Go

variable {q name type : String}

theorem isMark_space : IsMark " " := isMark_plain (by decide) ⟨' ', by decide, by decide⟩

/-- The dot behind a qualifier is not trimmed. -/
theorem Cites.trimEnd {s : String} (h : Cites q s) : Cites q (trimEnd s) := by
  obtain ⟨front, out, back, whole, reads, last⟩ := h
  refine ⟨front, out, trimEndBy isBlank back, ?_, reads, last⟩
  have dot : ∀ c ∈ ['.'].getLast?, isBlank c = false := by rintro _ ⟨⟩; decide
  rw [Text.trimEnd, String.toList_ofList, whole, trimEndBy_append_shown ⟨'.', mem_cons_self, by decide⟩]
  exact congrArg (_ ++ ·) (trimEndBy_append dot back)

theorem Decl.cites_row {base : Option String} {rows : List Row} {r : Row} (mem : r ∈ rows)
    (legible : Go.Legible r.name) (h : Go.Cites q r.type) : (Decl.record name base rows).Cites q := by
  refine Decl.cites_indented 0 (mem_append_left _ (mem_cons_of_mem _ (mem_map_of_mem
    (mem_append_right _ (mem_map_of_mem mem))))) ?_
  split
  · exact (h.behind (legible_padded legible _) isMark_space).trimEnd
  · exact (((h.append _).behind (legible_padded legible _) isMark_space).append _).append _

theorem Decl.cites_base {base : String} {rows : List Row} (h : Go.Cites q base) :
    (Decl.record name (some base) rows).Cites q :=
  Decl.cites_indented 0 (mem_append_left _ (mem_cons_of_mem _ mem_cons_self)) h

theorem Decl.cites_margin {d : Decl} {s : String} (mem : Sheet.indented 0 s ∈ d.lines 0)
    (first : s.toList.head? ≠ some '\'') (h : Go.Cites q s) : d.Cites q :=
  ⟨s, indented_margin s ▸ mem, first, h⟩

theorem Decl.cites_variable (legible : Go.Legible name) (h : Go.Cites q type) (value : Option Expr) :
    (Decl.variable name type value).Cites q := by
  have typed : Go.Cites q ("var " ++ name ++ " " ++ type) :=
    h.behind ((legible_plain (by decide)).append legible) isMark_space
  cases value with
  | none => exact Decl.cites_margin mem_cons_self (by simp) typed
  | some e => exact Decl.cites_margin mem_cons_self (by simp) ((typed.append _).append _)

/-- The names and the parameters of the function are legible. -/
structure Func.Legible (f : Func) : Prop where
  receiver : ∀ r ∈ f.receiver, Go.Legible r.1 ∧ Go.Legible r.2
  name : Go.Legible f.name
  params : ∀ p ∈ f.params, Go.Legible p.1 ∧ Go.Legible p.2

theorem Func.Legible.header (legible : f.Legible) : ∃ front, Go.Legible front ∧
    f.header = front ++ "(" ++ join ", " (f.params.map fun p => p.1 ++ " " ++ p.2) ++ ")" ++
      f.result.elim "" (" " ++ ·) ++ " \x7b" := by
  obtain ⟨receiver, name, params, result, body⟩ := f
  have keyword : Go.Legible "func " := legible_plain (by decide)
  cases receiver with
  | none =>
    refine ⟨"func " ++ "" ++ name, (keyword.append (legible_plain (by decide))).append legible.name, ?_⟩
    cases result <;> rfl
  | some r =>
    obtain ⟨var, type⟩ := legible.receiver r rfl
    refine ⟨"func " ++ ("(" ++ r.1 ++ " *" ++ r.2 ++ ") ") ++ name,
      (keyword.append ?_).append legible.name, ?_⟩
    · exact ((((legible_plain (by decide)).append var).append (legible_plain (by decide))).append type).append
        (legible_plain (by decide))
    · cases result <;> rfl

/-- The header of a function cites what one of its types cites. -/
theorem Func.cites_header (legible : f.Legible)
    (h : (∃ p ∈ f.params, Go.Cites q p.2) ∨ ∃ type ∈ f.result, Go.Cites q type) : Go.Cites q f.header := by
  obtain ⟨front, named, header⟩ := legible.header
  have columns : ∀ p ∈ f.params.map fun p => p.1 ++ " " ++ p.2, Go.Legible p := by
    refine forall_mem_map.mpr fun p mem => ?_
    exact ((legible.params p mem).1.append isMark_space.legible).append (legible.params p mem).2
  rw [header]
  rcases h with ⟨p, mem, cites⟩ | ⟨type, mem, cites⟩
  · have column := cites.behind (legible.params p mem).1 isMark_space
    have list := cites_join isMark_comma column columns (mem_map_of_mem mem)
    exact (((list.behind named (isMark_plain (by decide) ⟨'(', by decide, by decide⟩)).append
      _).append _).append _
  · have list := (named.append (legible_plain (s := "(") (by decide))).append
      (legible_join isMark_comma.legible columns)
    have typed := cites.behind (list.append (legible_plain (s := ")") (by decide))) isMark_space
    rw [String.append_assoc] at typed
    rw [Option.mem_def.mp mem]
    exact typed.append _

theorem Decl.cites_func_header (h : Go.Cites q f.header) : (Decl.func f).Cites q :=
  Decl.cites_margin mem_cons_self (by simp [Func.header]) h

end Go

/-! ### Types that mention the runtime -/

namespace Skeleton

def Mentions (k : Skeleton) (native : String) : Prop := contains (k.goType native).value "bt." = true

/-- If the Go type of the spelling mentions the runtime, then as a name of its own. -/
def Clear (k : Skeleton) (native : String) : Prop := k.Mentions native → Go.Cites "bt" (k.goType native).value

/-- Nothing is needed but the runtime, and that only if one of the types mentions it. -/
def Noted {α : Type} (k : Skeleton) (natives : List String) (e : Emit α) : Prop :=
  ∀ i ∈ e.needs.imports, i = .runtime "bt" ∧ ∃ native ∈ natives, k.Mentions native

variable {k : Skeleton} {natives : List String}

theorem Noted.pure {α : Type} (a : α) : k.Noted natives (Pure.pure a) := by
  rintro _ ⟨⟩

theorem Noted.bind {α β : Type} {e : Emit α} {f : α → Emit β} (he : k.Noted natives e)
    (hf : ∀ a, k.Noted natives (f a)) : k.Noted natives (e >>= f) := by
  intro i mem
  rw [Emit.needs_bind, Needs.imports_append, mem_append] at mem
  exact mem.elim (he i) (hf _ i)

theorem noted_goType (held : native ∈ natives) : k.Noted natives (k.goType native) := by
  intro i mem
  rw [goType, Emit.needs_bind, Needs.imports_append, mem_append, Context.notePackages] at mem
  split at mem
  · next mentions => exact ⟨mem_singleton.mp (mem.resolve_right (by rintro ⟨⟩)), native, held, mentions⟩
  · rcases mem with ⟨⟨⟩⟩ | ⟨⟨⟩⟩

theorem noted_initialValue (held : native ∈ natives) (text : Option String) :
    k.Noted natives (k.initialValue native text) := by
  refine .bind (noted_goType held) fun type => ?_
  simp only
  split
  · exact .pure _
  · exact .pure _

theorem noted_fieldRows :
    ∀ {ps : List Property}, (∀ p ∈ ps, p.type ∈ natives) → k.Noted natives (k.fieldRows ps)
  | [], _ => .pure _
  | p :: ps, h => by
      rw [forall_mem_cons] at h
      exact .bind (noted_goType h.1) fun _ => .bind (noted_fieldRows h.2) fun _ => .pure _

theorem noted_staticDecls (agent : String) : ∀ {ps : List Property}, (∀ p ∈ ps, p.type ∈ natives) →
    k.Noted natives (k.staticDecls agent ps)
  | [], _ => .pure _
  | p :: ps, h => by
      rw [forall_mem_cons] at h
      exact .bind (noted_goType h.1) fun _ => .bind (noted_initialValue h.1 _) fun _ =>
        .bind (noted_staticDecls agent h.2) fun _ => .pure _

theorem noted_fieldSetup :
    ∀ {ps : List Property}, (∀ p ∈ ps, p.type ∈ natives) → k.Noted natives (k.fieldSetup ps)
  | [], _ => .pure _
  | p :: ps, h => by
      rw [forall_mem_cons] at h
      rw [fieldSetup]
      split
      · exact .bind (noted_initialValue h.1 _) fun _ => .bind (noted_fieldSetup h.2) fun _ => .pure _
      · exact .bind (.pure _) fun _ => .bind (noted_fieldSetup h.2) fun _ => .pure _

theorem noted_paramTypes :
    ∀ {ps : List Param}, (∀ p ∈ ps, p.type ∈ natives) → k.Noted natives (k.paramTypes ps)
  | [], _ => .pure _
  | p :: ps, h => by
      rw [forall_mem_cons] at h
      exact .bind (noted_goType h.1) fun _ => .bind (noted_paramTypes h.2) fun _ => .pure _

end Skeleton

/-! ### Declared types -/

/-- A property of a type file is named without quotes and slashes, and has a clear type. -/
structure Property.Declared (k : Skeleton) (p : Property) : Prop where
  name : AllChars IsPlain p.basicName
  type : k.Clear p.type

/-- A parameter of a type file has a name and a type without quotes and slashes, and a clear type. -/
structure Param.Declared (k : Skeleton) (p : Param) : Prop where
  name : AllChars IsPlain p.name
  plain : AllChars IsPlain p.type
  type : k.Clear p.type

/-- A method of a type file has declared parameters and a clear result, and does not return nothing if the
spelling of its result mentions the runtime. -/
structure Method.Declared (k : Skeleton) (m : Method) : Prop where
  name : AllChars IsPlain m.name
  params : ∀ p ∈ m.params, p.Declared k
  result : k.Clear m.result
  returns : k.Mentions m.result → k.catalog.classify m.result ≠ .void

structure AgentType.Declared (k : Skeleton) (a : AgentType) : Prop where
  name : AllChars IsPlain (basicName a.name)
  properties : ∀ p ∈ a.properties, Skeleton.isOwn p = true → p.Declared k
  methods : ∀ m ∈ a.methods, m.isInherited = false → m.Declared k

/-- The fields that the struct declares itself are declared, and so is what it embeds. -/
structure StructType.Declared (k : Skeleton) (s : StructType) : Prop where
  properties : ∀ p ∈ s.properties, p.isInherited = false → p.Declared k
  base : ∀ b ∈ s.base, k.Clear b

namespace Skeleton

variable {k : Skeleton}

theorem legible_fieldName {p : Property} (h : AllChars IsPlain p.basicName) : Go.Legible (fieldName p) :=
  legible_plain (allChars_pascalCase (fun _ hc => upperChar_plain hc) h)

/-- Only what returns nothing has no value to start out with. -/
theorem isSome_initialValue (h : k.catalog.classify native ≠ .void) :
    (k.initialValue native none).value.isSome = true := by
  rw [initialValue, Emit.value_bind]
  simp only [propertyLiteral, nativeLiteral]
  cases type : k.catalog.classify native with
  | void => exact absurd type h
  | struct name isRef => cases isRef <;> rfl
  | _ => rfl

theorem cites_fieldRows {ps : List Property} (h : ∀ p ∈ ps, p.Declared k) (name : String)
    (base : Option String) (mentions : ∃ native ∈ ps.map Property.type, k.Mentions native) :
    (Decl.record name base (k.fieldRows ps).value).Cites "bt" := by
  obtain ⟨native, held, mentions⟩ := mentions
  obtain ⟨p, mem, rfl⟩ := mem_map.mp held
  rw [value_fieldRows]
  exact Decl.cites_row (mem_map_of_mem mem) (legible_fieldName (h p mem).name) ((h p mem).type mentions)

theorem mem_staticDecls (agent : String) {p : Property} : ∀ {ps : List Property}, p ∈ ps →
    ∃ value, .variable (agent ++ fieldName p) (k.goType p.type).value value ∈ (k.staticDecls agent ps).value
  | q :: ps, mem => by
      rcases mem_cons.mp mem with rfl | mem
      · exact ⟨_, mem_cons_self⟩
      · obtain ⟨value, held⟩ := mem_staticDecls agent mem
        exact ⟨value, mem_cons_of_mem _ held⟩

theorem cites_staticDecls {ps : List Property} (h : ∀ p ∈ ps, p.Declared k) (plain : AllChars IsPlain agent)
    (mentions : ∃ native ∈ ps.map Property.type, k.Mentions native) :
    Decl.AnyCites "bt" (k.staticDecls agent ps).value := by
  obtain ⟨native, held, mentions⟩ := mentions
  obtain ⟨p, mem, rfl⟩ := mem_map.mp held
  obtain ⟨value, declared⟩ := mem_staticDecls agent mem
  refine ⟨_, declared, Decl.cites_variable ?_ ((h p mem).type mentions) value⟩
  exact (legible_plain plain).append (legible_fieldName (h p mem).name)

theorem value_paramTypes : ∀ ps : List Param, (k.paramTypes ps).value = ps.map fun p =>
    (p.name, if p.isByRef then "*" ++ (k.goType p.type).value else (k.goType p.type).value)
  | [] => rfl
  | _ :: ps => congrArg (_ :: ·) (value_paramTypes ps)

/-- A stub cites the runtime in its first line. -/
theorem uses_methodStub (hr : k.config.renames = []) (plain : AllChars IsPlain agent) {m : Method}
    (h : m.Declared k) : (k.methodStub agent m).Uses := by
  have star : IsMark "*" := isMark_plain (by decide) ⟨'*', by decide, by decide⟩
  have noted : k.Noted (m.result :: m.params.map Param.type) (k.methodStub agent m) :=
    .bind (noted_paramTypes fun p mem => mem_cons_of_mem _ (mem_map_of_mem mem)) fun _ =>
      .bind (noted_goType mem_cons_self) fun _ =>
        .bind (noted_initialValue mem_cons_self none) fun _ => .pure _
  intro i mem
  obtain ⟨rfl, native, held, mentions⟩ := noted i mem
  refine ⟨by decide, _, mem_append_right _ mem_cons_self, Decl.cites_func_header ?_⟩
  refine Func.cites_header ⟨?_, legible_plain (plain_memberName h.name), ?_⟩ ?_
  · rintro r ⟨⟩
    exact ⟨legible_plain (s := "_o") (by decide), legible_plain plain⟩
  · show ∀ p ∈ (k.paramTypes m.params).value, _
    rw [value_paramTypes]
    refine forall_mem_map.mpr fun p mem => ⟨legible_plain (h.params p mem).name, ?_⟩
    have type : Go.Legible (k.goType p.type).value := by
      show Go.Legible (GoType.ofNative k.config.renames p.type)
      rw [hr]
      exact legible_plain (plain_ofNative (h.params p mem).plain)
    split
    · exact star.legible.append type
    · exact type
  · rcases mem_cons.mp held with rfl | held
    · obtain ⟨e, value⟩ := Option.isSome_iff_exists.mp (isSome_initialValue (h.returns mentions))
      refine .inr ⟨(k.goType m.result).value, ?_, h.result mentions⟩
      show (k.initialValue m.result none).value.map _ = _
      rw [value]
      rfl
    · obtain ⟨p, mem, rfl⟩ := mem_map.mp held
      have cites := (h.params p mem).type mentions
      refine .inl ⟨(p.name, if p.isByRef then "*" ++ (k.goType p.type).value else (k.goType p.type).value),
        ?_, ?_⟩
      · show _ ∈ (k.paramTypes m.params).value
        rw [value_paramTypes]
        exact mem_map_of_mem mem
      · dsimp only
        split
        · exact cites.after star
        · exact cites

theorem uses_methodStubs (hr : k.config.renames = []) (plain : AllChars IsPlain agent) :
    ∀ {ms : List Method}, (∀ m ∈ ms, m.isInherited = false → m.Declared k) → (k.methodStubs agent ms).Uses
  | [], _ => .pure _
  | m :: ms, h => by
      rw [forall_mem_cons] at h
      rw [methodStubs_cons]
      refine .append ?_ (uses_methodStubs hr plain h.2)
      split
      · exact .pure _
      · next own => exact uses_methodStub hr plain (h.1 (Bool.eq_false_of_not_eq_true own))

/-- The code of an agent cites all that it needs. -/
theorem uses_agentDecls (hr : k.config.renames = []) {a : AgentType} (h : a.Declared k) :
    (k.agentDecls a).Uses := by
  have own (keep : Property → Bool) : ∀ p ∈ a.properties.filter fun p => isOwn p && keep p, p.Declared k := by
    intro p mem
    rw [mem_filter, Bool.and_eq_true] at mem
    exact h.properties p mem.1 mem.2.1
  have types {ps : List Property} : ∀ p ∈ ps, p.type ∈ ps.map Property.type := fun p mem => mem_map_of_mem mem
  have decls : (k.agentDecls a).value = k.front a ++ (k.methodStubs (basicName a.name) a.methods).value := by
    simp [agentDecls, front]
  have fields (mentions : ∃ native ∈ (a.properties.filter fun p => isOwn p && !p.isStatic).map Property.type,
      k.Mentions native) : Decl.Uses (k.agentDecls a).value (.runtime "bt") := by
    refine ⟨by decide, _, ?_, cites_fieldRows (own _) (basicName a.name) none mentions⟩
    simp [decls, front]
  intro i mem
  simp only [agentDecls, Emit.needs_bind, Emit.needs_pure, Needs.imports_append, mem_append] at mem
  rcases mem with mem | mem | mem | mem | ⟨⟨⟩⟩
  · obtain ⟨rfl, mentions⟩ := noted_fieldRows types i mem
    exact fields mentions
  · obtain ⟨rfl, mentions⟩ := noted_staticDecls _ types i mem
    obtain ⟨d, held, cites⟩ := cites_staticDecls (own _) h.name mentions
    have some : (a.properties.filter fun p => isOwn p && p.isStatic).isEmpty = false := by
      obtain ⟨native, mem, -⟩ := mentions
      obtain ⟨p, mem, -⟩ := mem_map.mp mem
      exact isEmpty_eq_false_iff_exists_mem.mpr ⟨p, mem⟩
    refine ⟨by decide, d, ?_, cites⟩
    simp [decls, front, some, held]
  · -- a field that the constructor sets has its row as well
    obtain ⟨rfl, mentions⟩ := noted_fieldSetup types i mem
    exact fields mentions
  · rw [decls]
    exact (uses_methodStubs hr h.name h.methods i mem).mono (subset_append_right _ _)

/-- The code of a struct cites all that it needs. -/
theorem uses_structDecls {s : StructType} (h : s.Declared k) : (k.structDecls s).Uses := by
  have own : ∀ p ∈ s.properties.filter fun p => !p.isInherited, p.Declared k := by
    intro p mem
    rw [mem_filter, Bool.not_eq_true'] at mem
    exact h.properties p mem.1 mem.2
  have record (base : Option String) : Emit.Uses (k.fieldRows (s.properties.filter fun p => !p.isInherited) >>=
      fun rows => pure ([.blank] ++ commentOf s.description ++ [.record (basicName s.name) base rows])) := by
    intro i mem
    rw [Emit.needs_bind, Needs.imports_append, mem_append] at mem
    obtain ⟨rfl, mentions⟩ := noted_fieldRows (fun p mem => mem_map_of_mem (f := Property.type) mem) i
      (mem.resolve_right (by rintro ⟨⟩))
    exact ⟨by decide, _, mem_append_right _ mem_cons_self, cites_fieldRows own _ base mentions⟩
  rw [structDecls]
  split
  · next b base =>
    intro i mem
    simp only [Emit.needs_bind, Emit.needs_pure, Needs.imports_append, mem_append] at mem
    rcases mem with mem | mem | ⟨⟨⟩⟩ | ⟨⟨⟩⟩
    · exact record (some (k.goType b).value) i (mem_append_left _ mem)
    · obtain ⟨rfl, native, held, mentions⟩ := noted_goType mem_cons_self i mem
      obtain rfl := mem_singleton.mp held
      have given : native ∈ s.base := (Option.mem_filter_iff.mp base).1
      exact ⟨by decide, _, mem_append_right _ mem_cons_self, Decl.cites_base (h.base native given mentions)⟩
  · exact record none

theorem uses_structsDecls : ∀ {ss : List StructType}, (∀ s ∈ ss, s.Declared k) → (k.structsDecls ss).Uses
  | [], _ => .pure _
  | s :: ss, h => by
      rw [forall_mem_cons] at h
      exact (uses_structDecls h.1).append (uses_structsDecls h.2)

end Skeleton

end GoTrees
