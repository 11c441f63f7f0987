import GoTrees.Proofs.Loaded
import GoTrees.Proofs.Occurrences
import GoTrees.Proofs.Qualifiers

/-!
# Packages beside names and types

A package is watched: whenever it stands as a qualifier in emitted code, the code must need its import. The
names and types that come from outside do not mention the package, so it can only get into code where it is
written together with its import. As needs only grow, it is enough to follow one emission after the other, for
the imports that the whole file ends up with.
-/

namespace GoTrees

open Go Text
open List hiding contains replace

/-! ### Inputs that do not mention a package -/

/-- A variable of generated code from which something is selected. -/
inductive IsHolder : String → Prop
  | fixed {name : String} (h : name ∈ ["agent", "n", "tree", "fsm"]) : IsHolder name
  | node (id : Int) : IsHolder ("node" ++ toString id)
  | attachment (id : Int) : IsHolder ("attach" ++ toString id)
  | agent (slot : String) : IsHolder ("pAgent_" ++ slot)

/-- A package other than the one that every tree imports: no number, and hidden by no variable. -/
structure Watched (pkg : String) : Prop where
  letter : ∃ c ∈ pkg.toList, c.isDigit = false
  other : pkg ≠ "bt"
  visible : ¬ IsHolder pkg

/-- The packages of the runtime besides the one that every tree imports. -/
def runtimePackages : List String :=
  ["composites", "decorators", "actions", "conditions", "performers", "attachments"]

/-- A name is no variable if it is none of the fixed ones, has no number at its end and does not start like the
name of an agent. -/
theorem not_isHolder {name : String} (fixed : name ∉ ["agent", "n", "tree", "fsm"])
    (last : ∃ c ∈ name.toList.getLast?, isNumeral c = false) (slot : ¬ "pAgent_".toList <+: name.toList) :
    ¬ IsHolder name := by
  have number {front : String} {id : Int}
      (h : ∃ c ∈ (front ++ toString id).toList.getLast?, isNumeral c = false) : False := by
    obtain ⟨c, hc, other⟩ := h
    have filled : (toString id).toList ≠ [] := by
      cases id with
      | ofNat n =>
        have digits : (toString (Int.ofNat n)).toList = Nat.toDigits 10 n := Nat.toList_repr
        exact digits ▸ Nat.toDigits_ne_nil
      | negSucc n => simp [toString, Int.repr]
    rw [String.toList_append, getLast?_append_of_ne_nil _ filled] at hc
    rw [isNumeral_of_mem_toString (mem_of_getLast? hc)] at other
    exact Bool.noConfusion other
  intro holder
  cases holder with
  | fixed h => exact fixed h
  | node id | attachment id => exact number last
  | agent slot' => exact slot (by simp)

theorem watched_runtime {pkg : String} (h : pkg ∈ typesAlias :: runtimePackages) : Watched pkg := by
  have ends : ∀ pkg ∈ typesAlias :: runtimePackages, pkg.toList.getLast? = some 's' := by decide
  have last : ∃ c ∈ pkg.toList.getLast?, isNumeral c = false := ⟨'s', ends pkg h, rfl⟩
  have letter : ∃ c ∈ pkg.toList, c.isDigit = false := ⟨'s', mem_of_getLast? (ends pkg h), rfl⟩
  have apart : ∀ pkg ∈ typesAlias :: runtimePackages, pkg ≠ "bt" ∧ pkg ∉ ["agent", "n", "tree", "fsm"] ∧
      ¬ "pAgent_".toList <+: pkg.toList := by decide
  obtain ⟨other, fixed, slot⟩ := apart pkg h
  exact ⟨letter, other, not_isHolder fixed last slot⟩

def PathBeside (pkg name : String) : Prop :=
  ∃ words, words ≠ [] ∧ (∀ w ∈ words, IsWord w) ∧ (1 < words.length → pkg ∉ words) ∧ name = join "::" words

/-- A native type without dots, quotes and slashes, in whose Go spelling no dotted name starts with the
package. -/
structure TypeBeside (pkg native : String) : Prop where
  bare : AllChars IsBare native
  names : ∀ name ∈ dottedNames (GoType.ofNative [] native).toList, String.ofList (lead name) ≠ pkg

/-- The native type of a constant, which may be taken apart if it is a vector. -/
def ConstBeside (pkg native : String) : Prop :=
  TypeBeside pkg native ∧ TypeBeside pkg (GoType.elementOrSelf native)

mutual

/-- The names in a constant are beside the package. -/
def Value.Beside (pkg : String) : Value → Prop
  | .member name => PathBeside pkg name
  | .array items => Value.AllBeside pkg items
  | .struct fields => Value.FieldsBeside pkg fields
  | _ => True

/-- The names in constants are beside the package. -/
def Value.AllBeside (pkg : String) : List Value → Prop
  | [] => True
  | v :: vs => v.Beside pkg ∧ Value.AllBeside pkg vs

/-- The names of fields and those in their values are beside the package. -/
def Value.FieldsBeside (pkg : String) : List (String × Value) → Prop
  | [] => True
  | (name, v) :: fields => PathBeside pkg name ∧ v.Beside pkg ∧ Value.FieldsBeside pkg fields

end

/-- The agent that something belongs to is named beside the package. -/
def Owner.Beside (pkg : String) (o : Owner) : Prop := ∀ agent, o = .named agent → PathBeside pkg agent

/-- The names and the type of a property are beside the package. -/
structure Property.Beside (pkg : String) (p : Property) : Prop where
  name : PathBeside pkg p.basicName
  className : PathBeside pkg p.className
  type : TypeBeside pkg p.type
  owner : p.owner.Beside pkg

/-- The names and the types of a method are beside the package. -/
structure Method.Beside (pkg : String) (m : Method) : Prop where
  name : PathBeside pkg m.name
  className : PathBeside pkg m.className
  result : TypeBeside pkg m.result
  params : ∀ p ∈ m.params, TypeBeside pkg p.type
  owner : m.owner.Beside pkg

/-- What an operand says itself is beside the package. -/
def Operand.Beside (pkg : String) : Operand → Prop
  | .var (.const native value) => ConstBeside pkg native ∧ value.Beside pkg
  | .var (.property p) => p.Beside pkg
  | .var (.element p _) => p.Beside pkg
  | .call m _ => m.Beside pkg

/-- What an operand says at every depth is beside the package. -/
def Operand.DeepBeside (pkg : String) (o : Operand) : Prop :=
  ∀ inner : Operand, inner.Part o → inner.Beside pkg

/-- The catalog and the agent type of a tree are beside the package, and no type is renamed. -/
structure Context.Beside (pkg : String) (x : Context) : Prop extends Watched pkg where
  renames : x.config.renames = []
  agentType : PathBeside pkg x.agentType
  structs : ∀ s ∈ x.catalog.structs, ∀ p ∈ s.properties, ConstBeside pkg p.type

/-! ### What emitted code needs -/

def packageImport (pkg : String) : Import := if pkg = typesAlias then .types else .runtime pkg

/-- A package, and the imports of a file that may use it. -/
structure Usage where
  imports : List Import
  pkg : String

/-- The qualifier is not the package, or the package is imported. -/
def Usage.Permits (u : Usage) (q : List Char) : Prop :=
  String.ofList q = u.pkg → packageImport u.pkg ∈ u.imports

/-- The needs of emitted code are named by words, and the fields and steps that it leaves to its class have no
qualifiers but permitted ones. -/
structure Needs.Permitted (u : Usage) (needs : Needs) : Prop where
  words : ∀ p, .runtime p ∈ needs.imports → IsWord p
  fields : ∀ r ∈ needs.fields, r.Allowed u.Permits
  setup : Step.AllAllowed u.Permits needs.setup

theorem Needs.Permitted.append {u : Usage} {a b : Needs} (ha : a.Permitted u) (hb : b.Permitted u) :
    (a ++ b).Permitted u where
  words p mem := (mem_append.mp mem).elim (ha.words p) (hb.words p)
  fields := forall_mem_append.mpr ⟨ha.fields, hb.fields⟩
  setup := forall_mem_append.mpr ⟨ha.setup, hb.setup⟩

/-- If all that the code needs is imported, its value satisfies `P` and its needs are permitted. -/
def Emit.Covered {α : Type} (u : Usage) (P : α → Prop) (e : Emit α) : Prop :=
  e.needs.imports ⊆ u.imports → P e.value ∧ e.needs.Permitted u

namespace Emit.Covered

variable {u : Usage} {pkg : String} {α β : Type} {P : α → Prop} {Q : β → Prop}

theorem pure {a : α} (h : P a) : Covered u P (Pure.pure a) :=
  fun _ => ⟨h, by rintro _ ⟨⟩, by rintro _ ⟨⟩, by rintro _ ⟨⟩⟩

theorem bind {e : Emit α} {f : α → Emit β} (he : Covered u P e)
    (hf : ∀ a, P a → Covered u Q (f a)) : Covered u Q (e >>= f) := by
  intro sub
  rw [Emit.needs_bind, Needs.imports_append, append_subset] at sub
  obtain ⟨value, needs⟩ := he sub.1
  obtain ⟨value', needs'⟩ := hf e.value value sub.2
  exact ⟨value', needs.append needs'⟩

theorem mono {P' : α → Prop} {e : Emit α} (he : Covered u P e) (imp : ∀ a, P a → P' a) :
    Covered u P' e := fun sub => ⟨imp _ (he sub).1, (he sub).2⟩

theorem require {i : Import} (h : ∀ p, .runtime p = i → IsWord p) :
    Covered u (fun _ => i ∈ u.imports) (Emit.require i) :=
  fun sub => ⟨sub mem_cons_self, fun p mem => h p (mem_singleton.mp mem), by rintro _ ⟨⟩, by rintro _ ⟨⟩⟩

theorem requireTypes : Covered u (fun _ => .types ∈ u.imports) (Emit.require .types) :=
  require (by rintro _ ⟨⟩)

theorem usePackage {p : String} (h : IsWord p) :
    Covered u (fun _ => .runtime p ∈ u.imports) (Emit.usePackage p) :=
  require (by rintro _ ⟨⟩; exact h)

theorem capture {row : Row} {steps : List Step} (hr : row.Allowed u.Permits)
    (hs : Step.AllAllowed u.Permits steps) :
    Covered u (fun _ => True) (Emit.capture row steps) :=
  fun _ => ⟨trivial, by rintro _ ⟨⟩, forall_mem_singleton.mpr hr, hs⟩

end Emit.Covered

/-! ### Names -/

section Names

variable {u : Usage} {pkg name : String}

theorem permits_of_ne {q : List Char} (h : String.ofList q ≠ u.pkg) : u.Permits q :=
  fun same => absurd same h

theorem permits_word {w : String} (h : w ≠ u.pkg) : u.Permits w.toList :=
  permits_of_ne (by rwa [String.ofList_toList])

theorem permits_runtime {p : String} (h : .runtime p ∈ u.imports) (ne : p ≠ typesAlias) :
    u.Permits p.toList := by
  intro same
  rw [String.ofList_toList] at same
  rw [packageImport, ← same, if_neg ne]
  exact h

theorem permits_types (h : .types ∈ u.imports) : u.Permits typesAlias.toList := by
  intro same
  rw [String.ofList_toList] at same
  rw [packageImport, if_pos same.symm]
  exact h

/-- Numbers are no packages, and neither is an empty name. -/
theorem Watched.permits_digits (w : Watched u.pkg) {q : List Char} (h : ∀ c ∈ q, c.isDigit = true) :
    u.Permits q := by
  obtain ⟨c, mem, other⟩ := w.letter
  refine permits_of_ne fun same => ?_
  rw [← same, String.toList_ofList] at mem
  exact absurd (h c mem) (by simp [other])

theorem Watched.base (w : Watched u.pkg) : u.Permits [] := w.permits_digits (by simp)

theorem Watched.permits_holder (w : Watched u.pkg) {v : String} (h : IsHolder v) :
    u.Permits v.toList :=
  permits_word fun same => w.visible (same ▸ h)

theorem PathBeside.words (h : PathBeside pkg name) :
    AllChars (fun c => isIdentifierChar c = true ∨ c = ':') name := by
  obtain ⟨words, -, each, -, rfl⟩ := h
  exact AllChars.join (by decide) fun w mem => (each w mem).mono fun _ hc => .inl hc

theorem PathBeside.bare (h : PathBeside pkg name) : AllChars IsBare name := by
  refine h.words.mono fun c hc => ?_
  rcases hc with hc | rfl
  · exact (isBare_of_isIdentifierChar hc).1
  · decide

theorem IsWord.colon_notMem {w : String} (h : IsWord w) : ':' ∉ w.toList :=
  fun mem => absurd (h _ mem) (by decide)

theorem PathBeside.memberName (h : PathBeside pkg name) : IsWord (memberName name) := by
  obtain ⟨words, filled, each, -, rfl⟩ := h
  have basic := basicName_join filled fun w mem => IsWord.colon_notMem (each w mem)
  exact IsWord.pascalCase (each _ basic)

/-- A name with a dot, all in one piece, whose qualifier is allowed. -/
structure Qualified (A : List Char → Prop) (text : String) : Prop where
  noGap : ∀ c ∈ text.toList, isGap c = false
  dot : '.' ∈ text.toList
  allowed : A (lead text.toList)

theorem Qualified.clean {A : List Char → Prop} {text : String} (h : Qualified A text) : Clean A text :=
  ⟨text.toList, reads_plain fun c hc => isPlain_of_not_isGap (h.noGap c hc), allows_name h.noGap h.allowed⟩

theorem Qualified.append {A : List Char → Prop} {text word : String} (h : Qualified A text)
    (hw : IsWord word) : Qualified A (text ++ word) := by
  refine ⟨?_, ?_, ?_⟩ <;> rw [String.toList_append]
  · exact forall_mem_append.mpr ⟨h.noGap, hw.noGap⟩
  · exact mem_append_left _ h.dot
  · rw [lead_append_of_dot h.dot]
    exact h.allowed

theorem noGap_join : ∀ {words : List String}, (∀ w ∈ words, IsWord w) →
    ∀ c ∈ (join "." words).toList, isGap c = false
  | [], _ => by rintro _ ⟨⟩
  | [w], h => (h w mem_cons_self).noGap
  | v :: w :: ws, h => by
      rw [forall_mem_cons] at h
      have rest : AllChars (isGap · = false) (join "." (w :: ws)) := noGap_join h.2
      exact AllChars.append (AllChars.append h.1.noGap (by decide)) rest

/-- The path of a class uses imported packages only. -/
theorem covered_classPath (h : PathBeside u.pkg name) :
    (Context.classPath name).Covered u (Qualified u.Permits) := by
  obtain ⟨words, filled, word, apart, rfl⟩ := h
  have colon : ∀ w ∈ words, ':' ∉ w.toList := fun w mem => IsWord.colon_notMem (word w mem)
  rw [Context.classPath]
  match words with
  | [w] =>
    rw [join, if_neg (by simp [contains_colons_of_not_mem (colon w mem_cons_self)])]
    refine .bind .requireTypes fun _ imported => .pure ?_
    have prior : Qualified u.Permits (typesAlias ++ ".") :=
      ⟨(by decide : AllChars (isGap · = false) (typesAlias ++ ".")), by decide, permits_types imported⟩
    exact prior.append (word w mem_cons_self)
  | v :: w :: ws =>
    have colons : contains (join "::" (v :: w :: ws)) "::" = true := by
      have chars : (join "::" (v :: w :: ws)).toList = v.toList ++
          ':' :: ':' :: (join "::" (w :: ws)).toList := by
        simp [join]
      rw [contains, chars]
      exact containsChars_append (containsChars_of_lead (by simp)) _
    rw [if_pos colons]
    refine .pure ?_
    rw [← dotted, dotted_join colon]
    have chars : (join "." (v :: w :: ws)).toList = v.toList ++ '.' :: (join "." (w :: ws)).toList := by
      simp [join]
    refine ⟨noGap_join word, by simp [chars], ?_⟩
    rw [chars, lead_append_dot, (word v mem_cons_self).lead]
    refine permits_word fun same => ?_
    exact apart (by simp) (same ▸ mem_cons_self)

end Names

/-! ### Types -/

section Types

variable {u : Usage} {pkg native : String} {x : Context}

theorem TypeBeside.plain (h : TypeBeside pkg native) : AllChars IsPlain (GoType.ofNative [] native) := by
  have table : ∀ e ∈ GoType.nativeReplacements ++ GoType.goReplacements, AllChars IsPlain e.2 := by decide
  rw [forall_mem_append] at table
  have native : AllChars IsPlain native := h.bare.mono fun _ hc => hc.1
  exact GoType.allChars_renamed (by simp) (GoType.allChars_sliced (by decide)
    (GoType.allChars_replaceAll table.2 (GoType.allChars_replaceAll table.1 native)))

theorem splitSlice_append (type : String) : (Context.splitSlice type).1 ++ (Context.splitSlice type).2 = type ∧
    ((Context.splitSlice type).1 = "" ∨ (Context.splitSlice type).1 = "[]") := by
  rw [Context.splitSlice]
  split
  · next element found =>
    rw [afterLead?, Option.map_eq_some_iff] at found
    obtain ⟨cs, dropped, rfl⟩ := found
    rw [dropLead?] at dropped
    split at dropped
    · next leads =>
      have whole := prefix_iff_eq_append.mp (List.isPrefixOf_iff_prefix.mp leads)
      refine ⟨String.toList_inj.mp ?_, .inr rfl⟩
      rw [← Option.some.inj dropped]
      simpa using whole
    · cases dropped
  · exact ⟨String.empty_append, .inl rfl⟩

theorem stem_types (imported : .types ∈ u.imports) {element : List Char} (undotted : '.' ∉ element)
    (names : ∀ name ∈ dottedNames element, String.ofList (lead name) ≠ u.pkg) :
    Stem u.Permits (typesAlias.toList ++ '.' :: element) := by
  have types : Stem u.Permits typesAlias.toList :=
    stem_name (by decide : AllChars (isGap · = false) typesAlias) (permits_types imported)
  rcases noGap_or_last_gap element with none | ⟨front, g, name, rfl, gap, last⟩
  · exact types.selected none
  · rw [mem_append, not_or] at undotted
    rw [dottedNames, splitChars_append gap, forall_mem_append, splitChars_eq_singleton name last,
      forall_mem_singleton] at names
    rw [← cons_append, ← List.append_assoc]
    exact stem_append_gap gap (types.allows_dot undotted.1) (stem_name last (permits_of_ne names.2))

theorem covered_notePackages (text : String) :
    (Context.notePackages text).Covered u fun _ => True := by
  rw [Context.notePackages]
  split
  · exact (Emit.Covered.usePackage (by decide)).mono fun _ _ => trivial
  · exact .pure trivial

/-- A type uses imported packages only. -/
theorem covered_goType (hx : x.Beside u.pkg) (h : TypeBeside u.pkg native) :
    (x.goType native).Covered u (Selectable u.Permits) := by
  have plain := h.plain
  rw [Context.goType, hx.renames]
  generalize type_eq : GoType.ofNative [] native = type at plain
  have names := h.names
  rw [type_eq] at names
  obtain ⟨whole, mark⟩ := splitSlice_append type
  generalize Context.splitSlice type = parts at whole mark ⊢
  obtain ⟨mark, element⟩ := parts
  dsimp only at whole mark ⊢
  refine .bind (covered_notePackages type) fun _ _ => ?_
  split
  · next known =>
    rw [Bool.and_eq_true, Bool.not_eq_true'] at known
    have undotted : '.' ∉ element.toList := not_mem_of_not_contains known.1
    refine .bind .requireTypes fun _ imported => .pure ?_
    have chars : (typesAlias ++ "." ++ element).toList = typesAlias.toList ++ '.' :: element.toList := by simp
    have reads (h : AllChars IsPlain element)
        (stem : Stem u.Permits (typesAlias.toList ++ '.' :: element.toList)) :
        Selectable u.Permits (typesAlias ++ "." ++ element) :=
      ⟨_, reads_plain (AllChars.append (by decide) h), chars ▸ stem⟩
    have apart (m : String) : m ++ typesAlias ++ "." ++ element = m ++ (typesAlias ++ "." ++ element) := by
      simp [String.append_assoc]
    rw [apart]
    rcases mark with rfl | rfl
    · rw [String.empty_append] at whole ⊢
      subst whole
      exact reads plain (stem_types imported undotted names)
    · subst whole
      have inner : ∀ name ∈ dottedNames element.toList, String.ofList (lead name) ≠ u.pkg := by
        have split : dottedNames ("[]" ++ element).toList = [] :: [] :: dottedNames element.toList := by
          simp [dottedNames_cons_gap (c := '[') (by decide), dottedNames_cons_gap (c := ']') (by decide)]
        rw [split, forall_mem_cons, forall_mem_cons] at names
        exact names.2.2
      have stem := clean_empty.stem (g := "[]") (gaps_of_plain (by decide) (by decide))
        (reads (fun c hc => plain c (by simp [hc])) (stem_types imported undotted inner))
      rwa [String.empty_append] at stem
  · refine .pure ⟨type.toList, reads_plain plain, stem_of_names fun name mem => permits_of_ne (names name mem)⟩

end Types

end GoTrees
