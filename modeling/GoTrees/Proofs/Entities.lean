import GoTrees.Proofs.Names
import GoTrees.Proofs.Occurrences
import GoTrees.Proofs.SkeletonLines

/-!
# Declared and accessed names

Type files declare the types of the catalog with their fields, static variables and methods; tree files
refer to them by names that are worked out again at each access. Both come to the same names: a type that
the spelling rules leave alone is qualified by the package that declares it, a property is read and written
under the name of its field or variable, and a call names the stub of its method.
-/

namespace GoTrees

open Text Go
open List hiding contains replace

variable {name className : String} {q p : Property}

/-! ### What declarations introduce -/

namespace Go

/-- Something with a name that code in another file can refer to. -/
inductive Entity where
  | type (name : String)
  | field (type name : String)
  | variable (name : String)
  | method (type name : String)
  deriving DecidableEq, Repr

def Decl.entities : Decl → List Entity
  | .defined name _ => [.type name]
  | .record name _ rows => .type name :: rows.map fun r => .field name r.name
  | .variable name _ _ => [.variable name]
  | .func f => f.receiver.toList.map fun r => .method r.2 f.name
  | _ => []

/-- An expression without the index behind it. -/
def Expr.unindexed : Expr → Expr
  | .index e _ => e
  | e => e

def entitiesOf (ds : List Decl) : List Entity := ds.flatMap Decl.entities

theorem entitiesOf_append (ds es : List Decl) : entitiesOf (ds ++ es) = entitiesOf ds ++ entitiesOf es :=
  flatMap_append

theorem entitiesOf_cons (d : Decl) (ds : List Decl) : entitiesOf (d :: ds) = d.entities ++ entitiesOf ds := rfl

theorem entitiesOf_nil : entitiesOf [] = [] := rfl

end Go

namespace Skeleton

variable (k : Skeleton)

theorem entitiesOf_commentOf (text : String) : entitiesOf (commentOf text) = [] := by
  rw [commentOf]
  split <;> rfl

theorem entitiesOf_staticDecls (agent : String) : ∀ ps : List Property,
    entitiesOf (k.staticDecls agent ps).value = ps.map fun p => .variable (agent ++ fieldName p)
  | [] => rfl
  | _ :: ps => congrArg (_ :: ·) (entitiesOf_staticDecls agent ps)

theorem entitiesOf_methodStub (agent : String) (m : Method) :
    entitiesOf (k.methodStub agent m).value = [.method agent (memberName m.name)] := by
  simp [methodStub, entitiesOf_append, entitiesOf_cons, entitiesOf_commentOf, entitiesOf_nil, Decl.entities]

theorem entitiesOf_methodStubs (agent : String) : ∀ ms : List Method,
    entitiesOf (k.methodStubs agent ms).value =
      (ms.filter fun m => !m.isInherited).map fun m => .method agent (memberName m.name)
  | [] => rfl
  | m :: ms => by
      have rest := entitiesOf_methodStubs agent ms
      rw [methodStubs]
      cases inherited : m.isInherited with
      | true => simpa [inherited] using rest
      | false => simp [inherited, entitiesOf_append, entitiesOf_methodStub, rest]

theorem fields_fieldRows (type : String) (ps : List Property) :
    ((k.fieldRows ps).value.map fun r => Entity.field type r.name) =
      ps.map fun p => .field type (fieldName p) := by
  rw [value_fieldRows, map_map]
  rfl

/-- The entities of an agent type: the type, a field or variable for each property that it declares itself,
and a method for each method that it does not inherit. -/
def agentEntities (a : AgentType) : List Entity :=
  Entity.type (basicName a.name) ::
    ((a.properties.filter fun p => isOwn p && !p.isStatic).map
      fun p => Entity.field (basicName a.name) (fieldName p)) ++
    ((a.properties.filter fun p => isOwn p && p.isStatic).map
      fun p => Entity.variable (basicName a.name ++ fieldName p)) ++
    a.ownMethods.map fun m => Entity.method (basicName a.name) (memberName m.name)

/-- The entities of a struct: the type and a field for each property that it does not inherit. -/
def structEntities (s : StructType) : List Entity :=
  .type (basicName s.name) ::
    (s.properties.filter fun p => !p.isInherited).map fun p => .field (basicName s.name) (fieldName p)

/-- The code of an agent declares its type, its fields and its methods. -/
theorem entitiesOf_agentDecls (a : AgentType) : entitiesOf (k.agentDecls a).value = agentEntities a := by
  have statics : ∀ ps : List Property,
      entitiesOf (if ps.isEmpty then [] else (k.staticDecls (basicName a.name) ps).value ++ [Decl.blank]) =
        ps.map fun p => .variable (basicName a.name ++ fieldName p) := by
    intro ps
    cases ps with
    | nil => rfl
    | cons p ps =>
      rw [if_neg (by simp), entitiesOf_append, entitiesOf_staticDecls]; simp [entitiesOf, Decl.entities]
  simp only [agentDecls, Emit.value_bind, Emit.value_pure, entitiesOf_append, entitiesOf_cons, entitiesOf_nil,
    entitiesOf_commentOf, Decl.entities, fields_fieldRows, statics, entitiesOf_methodStubs]
  simp [agentEntities, AgentType.ownMethods]

theorem entitiesOf_enumDecls (e : EnumType) : entitiesOf (enumDecls e) = [.type (basicName e.name)] := by
  simp [enumDecls, entitiesOf_append, entitiesOf_cons, entitiesOf_commentOf, entitiesOf_nil, Decl.entities]

theorem entitiesOf_structDecls (s : StructType) : entitiesOf (k.structDecls s).value = structEntities s := by
  rw [structDecls, Emit.value_bind]
  split <;> simp [entitiesOf_append, entitiesOf_cons, entitiesOf_nil, entitiesOf_commentOf, Decl.entities,
    fields_fieldRows, structEntities]

theorem mem_entitiesOf_structsDecls {s : StructType} {e : Entity} : ∀ {ss : List StructType}, s ∈ ss →
    e ∈ entitiesOf (k.structDecls s).value → e ∈ entitiesOf (k.structsDecls ss).value
  | t :: ss, mem, he => by
      rw [structsDecls]
      simp only [Emit.value_bind, Emit.value_pure, entitiesOf_append, mem_append]
      rcases mem_cons.mp mem with rfl | mem
      · exact .inl he
      · exact .inr (mem_entitiesOf_structsDecls mem he)

/-- The enums and structs that share a file. -/
def sharedTypes : List String :=
  (k.catalog.enums.filter fun e => !e.isImplemented && e.location.isNone).map EnumType.name ++
    (k.catalog.structs.filter fun s => !s.isImplemented && s.location.isNone).map StructType.name

/-- Each type without a place of its own is declared in the shared file. -/
theorem sharedFile?_declares {t : String} (mem : t ∈ k.sharedTypes) : ∃ code,
    k.sharedFile? = some (k.file (k.config.typesDir ++ "/customized_types.go") k.config.typesPackage code) ∧
      .type (basicName t) ∈ entitiesOf code.value := by
  rw [sharedTypes, mem_append] at mem
  have filled : ((k.catalog.enums.filter fun e => !e.isImplemented && e.location.isNone).isEmpty &&
      (k.catalog.structs.filter fun s => !s.isImplemented && s.location.isNone).isEmpty) = false := by
    rw [Bool.and_eq_false_iff]
    refine mem.imp ?_ ?_ <;>
      · intro mem
        cases none : List.isEmpty _ with
        | false => rfl
        | true => simp [List.isEmpty_iff.mp none] at mem
  refine ⟨_, by rw [sharedFile?, if_neg (by simp [filled])], ?_⟩
  simp only [Emit.value_bind, Emit.value_pure, entitiesOf_append, mem_append]
  rcases mem with mem | mem
  · obtain ⟨e, he, rfl⟩ := mem_map.mp mem
    left
    rw [if_neg (by rw [List.isEmpty_iff]; exact ne_nil_of_mem he), entitiesOf_append, mem_append]
    have whole : entitiesOf ((k.catalog.enums.filter fun e => !e.isImplemented && e.location.isNone).flatMap
        enumDecls) = (k.catalog.enums.filter fun e => !e.isImplemented && e.location.isNone).flatMap
          fun e => [.type (basicName e.name)] := by
      rw [entitiesOf, flatMap_assoc]
      exact flatMap_congr fun e _ => entitiesOf_enumDecls e
    rw [whole]
    exact .inr (mem_flatMap.mpr ⟨e, he, mem_singleton_self _⟩)
  · obtain ⟨s, hs, rfl⟩ := mem_map.mp mem
    right
    rw [if_neg (by rw [List.isEmpty_iff]; exact ne_nil_of_mem hs), entitiesOf_append, mem_append]
    refine .inr (k.mem_entitiesOf_structsDecls hs ?_)
    rw [entitiesOf_structDecls]
    exact mem_cons_self

end Skeleton

/-! ### Types in tree files -/

/-- The package of a class as tree files name it: its namespace with dots, else the types package. -/
def packageOf (className : String) : String :=
  if contains className "::" then dotted (namespaceOf className) else typesAlias

/-- The spelling rules leave the name alone, apart from its `::`: none of the replaced texts occurs in it, and
none of the characters that types are built with. -/
structure Unmapped (name : String) : Prop where
  chars : AllChars (fun c => isBlank c = false ∧ c ≠ '.' ∧ c ≠ '<' ∧ c ≠ '[') name
  colons : contains name ":::" = false
  native : ∀ e ∈ GoType.nativeReplacements, contains name e.1 = false
  go : ∀ e ∈ GoType.goReplacements.tail, contains (dotted name) e.1 = false

/-- With dots for its `::`, a class is its package, a dot and its basic name. -/
theorem packageOf_append (clear : contains name ":::" = false) :
    packageOf name ++ "." ++ basicName name =
      if contains name "::" then dotted name else typesAlias ++ "." ++ name := by
  rw [packageOf]
  cases colons : contains name "::" with
  | true => rw [if_pos rfl, if_pos rfl, dotted_eq colons clear]
  | false => rw [if_neg (by simp), if_neg (by simp), basicName_of_not_contains colons]

namespace GoType

theorem replaceAll_cons (pat new : String) (table : List (String × String)) (s : String) :
    replaceAll ((pat, new) :: table) s = replaceAll table (replace s pat new) := rfl

theorem replaceAll_of_absent {s : String} (solid : Merge.Solid s) : ∀ {table : List (String × String)},
    (∀ e ∈ table, e.1 ≠ "" ∧ contains s e.1 = false) → replaceAll table s = s
  | [], _ => Merge.trim_eq_self solid
  | (pat, new) :: table, h => by
      have kept : replace s pat new = s :=
        replace_of_not_contains new (h _ mem_cons_self).1 (h _ mem_cons_self).2
      rw [replaceAll_cons, kept]
      exact replaceAll_of_absent solid fun e he => h e (mem_cons_of_mem _ he)

end GoType

namespace Unmapped

variable {name : String}

theorem dotted_chars (h : Unmapped name) :
    AllChars (fun c => isBlank c = false ∧ c ≠ '<' ∧ c ≠ '[') (dotted name) :=
  AllChars.replace (h.chars.mono fun _ hc => ⟨hc.1, hc.2.2⟩) (by decide) "::"

theorem afterLead?_dotted (h : Unmapped name) {lead : String} (mark : '<' ∈ lead.toList ∨ '[' ∈ lead.toList) :
    afterLead? (dotted name) lead = none := by
  rw [afterLead?, dropLead?, if_neg, Option.map_none]
  intro leads
  have inside := (List.isPrefixOf_iff_prefix.mp leads).subset
  rcases mark with mark | mark
  · exact (h.dotted_chars _ (inside mark)).2.1 rfl
  · exact (h.dotted_chars _ (inside mark)).2.2 rfl

/-- A name that is not mapped is written with dots. -/
theorem ofNative_eq (h : Unmapped name) : GoType.ofNative [] name = dotted name := by
  have solid : Merge.Solid name := h.chars.mono fun _ hc => hc.1
  have native : GoType.replaceAll GoType.nativeReplacements name = name :=
    GoType.replaceAll_of_absent solid fun e he =>
      ⟨(by decide : ∀ e ∈ GoType.nativeReplacements, e.1 ≠ "") e he, h.native e he⟩
  have split : GoType.goReplacements = ("::", ".") :: GoType.goReplacements.tail := rfl
  have go : GoType.replaceAll GoType.goReplacements name = dotted name := by
    rw [split, GoType.replaceAll_cons]
    exact GoType.replaceAll_of_absent (h.dotted_chars.mono fun _ hc => hc.1) fun e he =>
      ⟨(by decide : ∀ e ∈ GoType.goReplacements.tail, e.1 ≠ "") e he, h.go e he⟩
  have whole : GoType.sliced (dotted name) = dotted name := by
    have none : GoType.vectorLeads.findSome? (afterLead? (dotted name)) = none :=
      findSome?_eq_none_iff.mpr fun lead mem => h.afterLead?_dotted
        (.inl ((by decide : ∀ lead ∈ GoType.vectorLeads, '<' ∈ lead.toList) lead mem))
    rw [GoType.sliced, none]
  rw [GoType.ofNative, native, go, whole]
  rfl

end Unmapped

theorem Catalog.findNamed?_isSome {α : Type} {nameOf : α → String} {entries : List α} {e : α}
    (mem : e ∈ entries) : (findNamed? nameOf entries (nameOf e)).isSome = true := by
  have found : (entries.find? fun d => nameOf d == nameOf e).isSome = true :=
    find?_isSome.mpr ⟨e, mem, beq_self_eq_true _⟩
  obtain ⟨d, hd⟩ := Option.isSome_iff_exists.mp found
  rw [findNamed?, hd]
  rfl

namespace Context

variable (x : Context)

theorem value_classPath (clear : contains name ":::" = false) :
    (classPath name).value = packageOf name ++ "." ++ basicName name := by
  rw [packageOf_append clear, classPath]
  split <;> rfl

/-- A type of the catalog that the spelling rules leave alone is reached as a member of its package. -/
theorem value_goType (plain : x.config.renames = []) (h : Unmapped name)
    (known : x.isCatalogType name = true) :
    (x.goType name).value = packageOf name ++ "." ++ basicName name := by
  have type : GoType.ofNative x.config.renames name = dotted name := by rw [plain, h.ofNative_eq]
  have whole : splitSlice (dotted name) = ("", dotted name) := by
    rw [splitSlice, h.afterLead?_dotted (.inr (by decide))]
  rw [packageOf_append h.colons, goType]
  simp only [Emit.value_bind, type, whole]
  cases colons : contains name "::" with
  | true =>
    have point : contains (dotted name) "." = true := by
      rw [dotted_eq colons h.colons, contains, String.append_assoc, String.toList_append]
      exact containsChars_append (containsChars_of_lead (by simp)) _
    simp [point]
  | false =>
    have self : dotted name = name := replace_of_not_contains "." (by decide) colons
    have point : contains name "." = false :=
      containsChars_of_not_mem (mem_singleton_self '.') fun mem => (h.chars '.' mem).2.1 rfl
    simp [self, point, known, typesAlias]

/-! ### Members in tree files -/

def Selects (name : String) (e : Expr) : Prop := ∃ object, e = .select object name

/-- Every access to the property goes to a place: what is read, and what is assigned to, up to the index of
an element. -/
structure Reaches (q : Property) (place : Expr → Prop) : Prop where
  read : ∀ (v : Variable) (slot : String), v.property? = some q →
    place (x.readVariable v slot).value.expr.unindexed
  write : ∀ (v : Variable) (value : Expr) (slot : String), v.property? = some q →
    ∃ pre target, (x.writeVariable v value slot).value = pre ++ [.assign target value] ∧ place target.unindexed

theorem unindexed_indexed (p : Property) (owner : Expr) (i : Option Expr) :
    (indexed (memberAccess p owner).value i).unindexed = (memberAccess p owner).value := by
  cases i with
  | some i => rfl
  | none =>
    rw [indexed, memberAccess]
    cases p.isStatic <;> rfl

/-- An early-bound property is read and stored at its member. -/
theorem reaches_memberAccess (early : q.isLateBound = false) {place : Expr → Prop}
    (h : ∀ owner, place (memberAccess q owner).value) : x.Reaches q place where
  read v slot hv := by
    have read (owner : Expr) (i : Option Expr) :
        (x.readFrom q owner i).value.2 = indexed (memberAccess q owner).value i := by simp [readFrom, early]
    cases v with
    | const native value => simp [Variable.property?] at hv
    | property p | element p index =>
      obtain rfl := Option.some.inj hv
      simp only [readVariable, Emit.value_bind, Emit.value_pure, read, unindexed_indexed]
      exact h _
  write v value slot hv := by
    have write (owner : Expr) (i : Option Expr) :
        (x.writeTo q owner i value).value = [.assign (indexed (memberAccess q owner).value i) value] := by
      simp [writeTo, early]
    cases v with
    | const native value => simp [Variable.property?] at hv
    | property p | element p index =>
      obtain rfl := Option.some.inj hv
      simp only [writeVariable, Emit.value_bind, Emit.value_pure, write]
      exact ⟨_, _, rfl, by rw [unindexed_indexed]; exact h _⟩

end Context

/-- The property is `p` as a variable of a tree refers to it, with the class that it belongs to. -/
structure Property.Refers (q p : Property) (className : String) : Prop where
  name : q.name = p.name
  className : q.className = className
  isStatic : q.isStatic = p.isStatic
  early : q.isLateBound = false

theorem Property.Refers.basicName (h : q.Refers p className) :
    q.basicName = p.basicName := by
  rw [Property.basicName, Property.basicName, h.name]

/-! ### Colons in names -/

/-- A colon has no other form in upper case, and is the upper-case form of nothing else. -/
theorem count_upperFirst : ∀ cs : List Char, (upperFirst cs).count ':' = cs.count ':'
  | [] => rfl
  | c :: cs => by
      have upper : (upperChar c).count ':' = [c].count ':' := by
        by_cases colon : c = ':'
        · subst colon
          decide
        · have caseless : Caseless [(58, 58)] := by decide +kernel
          have other : ∀ d : Char, d ≠ ':' ↔ ∀ r ∈ [(58, 58)], d.toNat < r.1 ∨ r.2 < d.toNat := by
            intro d
            rw [forall_mem_singleton, ne_eq, ← Char.toNat_inj]
            change ¬ d.toNat = 58 ↔ _
            omega
          have absent : ':' ∉ upperChar c := fun mem =>
            (other _).mpr (caseless.upperChar ((other c).mp colon) ':' mem) rfl
          rw [count_eq_zero_of_not_mem absent, count_eq_zero_of_not_mem (by simpa using Ne.symm colon)]
      rw [upperFirst, count_append, upper, ← count_append, singleton_append]

theorem count_flatMap_splitChars : ∀ cs : List Char,
    ((splitChars (· == '_') cs).flatMap upperFirst).count ':' = cs.count ':'
  | [] => rfl
  | c :: cs => by
      have rest := count_flatMap_splitChars cs
      rw [splitChars]
      by_cases underscore : c = '_'
      · simpa [underscore, upperFirst] using rest
      · obtain ⟨part, parts, split⟩ := exists_cons_of_ne_nil (splitChars_ne_nil (· == '_') cs)
        rw [split, flatMap_cons, count_append, count_upperFirst] at rest
        rw [if_neg (by simpa using underscore), split]
        simp only [flatMap_cons, count_append, count_upperFirst, count_cons, ← rest]
        omega

/-- A member is accessed by the name of its field exactly if its name has no namespace. -/
theorem memberName_eq_fieldName_iff :
    memberName p.basicName = Skeleton.fieldName p ↔ contains p.basicName "::" = false := by
  refine ⟨fun same => Bool.of_not_eq_true fun colons => ?_, fun simple => ?_⟩
  · have parts := congrArg (fun s => s.toList.count ':') (namespaceOf_append_basicName colons).1
    have counts := congrArg (fun s => s.toList.count ':') same
    simp only [memberName, Skeleton.fieldName, pascalCase, String.toList_ofList,
      count_flatMap_splitChars] at counts
    simp only [String.toList_append, count_append, counts, show "::".toList.count ':' = 2 from rfl] at parts
    omega
  · rw [memberName, basicName_of_not_contains simple, Skeleton.fieldName]

namespace Context

variable {x : Context}

/-- A field is accessed by the name of its member. -/
theorem reaches_field (h : q.Refers p className) (static : p.isStatic = false) :
    x.Reaches q (Selects (memberName p.basicName)) := by
  refine x.reaches_memberAccess h.early fun owner => ⟨owner, ?_⟩
  simp [memberAccess, h.isStatic, static, h.basicName]

/-- A static property is accessed by its class and its member. -/
theorem reaches_static (h : q.Refers p className) (static : p.isStatic = true)
    (clear : contains className ":::" = false) :
    x.Reaches q
      (· = .path (packageOf className ++ "." ++ (basicName className ++ memberName p.basicName))) := by
  refine x.reaches_memberAccess h.early fun owner => ?_
  simp [memberAccess, h.isStatic, static, h.basicName, h.className, value_classPath clear, String.append_assoc]

/-- A place is an expression or a member below it. -/
inductive Within (e : Expr) : Expr → Prop
  | self : Within e e
  | member {place : Expr} (name : String) : Within e place → Within e (.select place name)

theorem Within.of_select {e place : Expr} (h : Within (.select e name) place) : Within e place := by
  induction h with
  | self => exact .member name .self
  | member field _ ih => exact .member field ih

/-- The steps do nothing but assign to places within an expression. -/
def AssignsWithin (e : Expr) (steps : List Step) : Prop :=
  ∀ step ∈ steps, ∃ place value, step = .assign place value ∧ Within e place

theorem AssignsWithin.append {e : Expr} {a b : List Step} (ha : AssignsWithin e a) (hb : AssignsWithin e b) :
    AssignsWithin e (a ++ b) := fun step mem => (mem_append.mp mem).elim (ha step) (hb step)

theorem assignsWithin_singleton (e value : Expr) : AssignsWithin e [.assign e value] := by
  intro step mem
  exact ⟨e, value, mem_singleton.mp mem, .self⟩

mutual

theorem assignsWithin_setFields (target : Expr) (struct : Option StructType) :
    ∀ fields : List (String × Value),
    AssignsWithin target (x.setFields target struct fields).value
  | [] => by rw [setFields]; rintro _ ⟨⟩
  | (field, value) :: fields => by
      rw [setFields]
      refine .append (fun step mem => ?_) (assignsWithin_setFields target struct fields)
      obtain ⟨place, e, rfl, within⟩ :=
        assignsWithin_setField (.select target (memberName field)) (fieldNative struct field) value step mem
      exact ⟨place, e, rfl, within.of_select⟩

theorem assignsWithin_setField (target : Expr) (native : String) : ∀ value : Value,
    AssignsWithin target (x.setField target native value).value
  | .struct fields => by rw [setField]; exact assignsWithin_setFields target _ fields
  | .array [] => by rw [setField]; rintro _ ⟨⟩
  | .array (item :: items) => by rw [setField]; exact assignsWithin_singleton target _
  | .bool _ | .int _ | .float _ | .char _ | .string _ | .member _ => by
      simp only [setField, Emit.value_bind]
      split
      · exact assignsWithin_singleton target _
      · rintro _ ⟨⟩

end

theorem value_setFields_append (target : Expr) (struct : Option StructType) (after : List (String × Value)) :
    ∀ before : List (String × Value), (x.setFields target struct (before ++ after)).value =
      (x.setFields target struct before).value ++ (x.setFields target struct after).value
  | [] => by rw [List.nil_append, setFields]; rfl
  | (field, value) :: before => by
      have rest := value_setFields_append target struct after before
      simp only [cons_append, setFields, Emit.value_bind, Emit.value_pure, rest, List.append_assoc]

/-- Each field of a struct is set on its own, in order. -/
theorem setFields_within (field : String) (target : Expr) (struct : Option StructType)
    (before after : List (String × Value)) (value : Value) :
    ∃ steps, (x.setFields target struct (before ++ (field, value) :: after)).value =
        (x.setFields target struct before).value ++ steps ++ (x.setFields target struct after).value ∧
      AssignsWithin (.select target (memberName field)) steps := by
  refine ⟨(x.setField (.select target (memberName field)) (fieldNative struct field) value).value, ?_,
    assignsWithin_setField _ _ value⟩
  rw [value_setFields_append, List.append_assoc, setFields]
  rfl

theorem expr_callMethod (c : Call) (slot : String) : ∃ agent args,
    (x.callMethod c slot).value.expr = .call (.select agent (memberName c.1.name)) args := by
  simp only [callMethod, operand, Emit.value_bind, invoke]
  split <;> exact ⟨_, _, rfl⟩

/-- The type files of the catalog that a tree file is emitted against. -/
def typeFiles (x : Context) : Skeleton := { catalog := x.catalog, config := x.config }

/-- What declarations and accesses name. A shared type is declared in the types package, but tree files
qualify it by its namespace if it has one, where the spelling rules leave it alone; so they name what is
declared exactly if the namespace is that package. An agent type or struct has a field or variable for each
of its properties, and reads, writes and constants go to the member of its basic name, which is that field
exactly if the name of the property has no namespace. A call names the method that its agent type has a
stub for. -/
theorem declared_as_accessed (x : Context) (plain : x.config.renames = []) :
    (∀ t ∈ x.typeFiles.sharedTypes,
      (∃ code, x.typeFiles.sharedFile? = some (x.typeFiles.file
          (x.config.typesDir ++ "/customized_types.go") x.config.typesPackage code) ∧
        .type (basicName t) ∈ entitiesOf code.value) ∧
      (Unmapped t → (x.goType t).value = packageOf t ++ "." ++ basicName t ∧
        ((x.goType t).value = typesAlias ++ "." ++ basicName t ↔ packageOf t = typesAlias))) ∧
    (∀ a, entitiesOf (x.typeFiles.agentDecls a).value = Skeleton.agentEntities a) ∧
    (∀ s, entitiesOf (x.typeFiles.structDecls s).value = Skeleton.structEntities s) ∧
    (∀ (p : Property) (className : String),
      (memberName p.basicName = Skeleton.fieldName p ↔ contains p.basicName "::" = false) ∧
      (∀ q : Property, q.Refers p className → p.isStatic = false →
        x.Reaches q (Selects (memberName p.basicName))) ∧
      (∀ q : Property, q.Refers p className → p.isStatic = true → contains className ":::" = false →
        x.Reaches q
          (· = .path (packageOf className ++ "." ++ (basicName className ++ memberName p.basicName)))) ∧
      ∀ target struct before value after, ∃ steps,
        (x.setFields target struct (before ++ (p.basicName, value) :: after)).value =
            (x.setFields target struct before).value ++ steps ++ (x.setFields target struct after).value ∧
          AssignsWithin (.select target (memberName p.basicName)) steps) ∧
    ∀ (m : Method) (c : Call) (slot : String), c.1.name = m.name → ∃ agent args,
      (x.callMethod c slot).value.expr = .call (.select agent (memberName m.name)) args := by
  refine ⟨fun t mem => ⟨x.typeFiles.sharedFile?_declares mem, fun unmapped => ?_⟩,
    x.typeFiles.entitiesOf_agentDecls, x.typeFiles.entitiesOf_structDecls,
    fun p className => ⟨memberName_eq_fieldName_iff, fun q refers static => reaches_field refers static,
      fun q refers static clear => reaches_static refers static clear,
      fun target struct before value after => setFields_within p.basicName target struct before after value⟩,
    fun m c slot same => same ▸ expr_callMethod c slot⟩
  have known : x.isCatalogType t = true := by
    rw [Skeleton.sharedTypes, mem_append] at mem
    rcases mem with mem | mem
    · obtain ⟨e, he, rfl⟩ := mem_map.mp mem
      have found : (x.catalog.enum? e.name).isSome = true := Catalog.findNamed?_isSome (mem_of_mem_filter he)
      rw [isCatalogType, found, Bool.true_or, Bool.true_or]
    · obtain ⟨s, hs, rfl⟩ := mem_map.mp mem
      have found : (x.catalog.struct? s.name).isSome = true := Catalog.findNamed?_isSome (mem_of_mem_filter hs)
      rw [isCatalogType, found, Bool.or_true, Bool.true_or]
  have used := x.value_goType plain unmapped known
  refine ⟨used, ?_⟩
  rw [used, String.append_left_inj, String.append_left_inj]

/-- A catalog with a plain enum and one in a namespace, a struct, and an agent type with a static property. -/
def barracks : Context where
  catalog := {
    enums := [{ name := "Color" }, { name := "game::Rank" }]
    structs := [{ name := "Post", properties := [{ name := "gate_no", type := "int" }] }]
    agents := [{
      name := "game::Guard"
      properties := [{ name := "watch_time", type := "int" },
        { name := "alarms", type := "int", isStatic := true }]
      methods := [{ name := "Guard::raise_alarm" }] }] }

theorem declared_as_accessed_barracks :
    (barracks.goType "Color").value = "types.Color" ∧ (barracks.goType "game::Rank").value = "game.Rank" ∧
    entitiesOf (barracks.typeFiles.agentDecls (barracks.catalog.agents.headD default)).value =
      [.type "Guard", .field "Guard" "WatchTime", .variable "GuardAlarms", .method "Guard" "RaiseAlarm"] ∧
    barracks.Reaches { name := "watch_time", className := "game::Guard" } (Selects "WatchTime") ∧
    barracks.Reaches { name := "alarms", className := "game::Guard", isStatic := true }
      (· = .path "game.GuardAlarms") := by
  obtain ⟨types, agents, -, members, -⟩ := declared_as_accessed barracks rfl
  have color := (types "Color" (by decide)).2 ⟨by decide, by decide, by decide, by decide⟩
  have rank := (types "game::Rank" (by decide)).2 ⟨by decide, by decide, by decide, by decide⟩
  refine ⟨color.1, rank.1, agents _, ?_, ?_⟩
  · exact (members { name := "watch_time" } "game::Guard").2.1 _ ⟨rfl, rfl, rfl, rfl⟩ rfl
  · exact (members { name := "alarms", isStatic := true } "game::Guard").2.2.1 _ ⟨rfl, rfl, rfl, rfl⟩ rfl
      (by decide)

/-- A catalog with names that the spelling rules change, and with a qualified property. -/
def hoard : Context where
  catalog := {
    enums := [{ name := "game::Color" }]
    structs := [{ name := "Belongings" }]
    agents := [{ name := "Guard", properties := [{ name := "Guard::alarm", type := "int" }] }] }

/-- A namespace is taken for the package of a shared type, a replacement changes a name from within, and a
qualified property is accessed by its basic name only. -/
theorem declared_not_as_accessed :
    (∃ t ∈ hoard.typeFiles.sharedTypes, (hoard.goType t).value ≠ typesAlias ++ "." ++ basicName t) ∧
    "Belongings" ∈ hoard.typeFiles.sharedTypes ∧ (hoard.goType "Belongings").value = "Beint64ings" ∧
    entitiesOf (hoard.typeFiles.agentDecls (hoard.catalog.agents.headD default)).value =
      [.type "Guard", .field "Guard" "Guard::alarm"] ∧
    (memberAccess { name := "Guard::alarm", className := "Guard" } agentVar).value =
      .select agentVar "Alarm" :=
  ⟨⟨"game::Color", by decide, by decide +kernel⟩, by decide, by decide +kernel, by decide, rfl⟩

end Context

end GoTrees
