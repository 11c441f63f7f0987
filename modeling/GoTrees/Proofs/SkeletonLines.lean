import GoTrees.Proofs.Emit
import GoTrees.Proofs.Merging
import GoTrees.Proofs.Rendering
import GoTrees.Skeleton

/-!
# Lines of a skeleton

A skeleton is rendered line by line: what stands in front of its methods, and the stub of each method with a
block for its body. Apart from those blocks, it has no line that a merge takes for a marker: a line of code
starts with a character that no comment starts with, and no comment says what a marker says. That holds of
every agent type whose names and texts can be written on a line.
-/

namespace GoTrees

open Text Go
open List hiding contains replace

variable {s name : String}

/-! ### Lines that are no markers -/

/-- A text that starts as code does. -/
def Coded (s : String) : Prop := ∃ c, s.toList.head? = some c ∧ IsInk c

theorem Coded.append (h : Coded s) (t : String) : Coded (s ++ t) := by
  obtain ⟨c, head, ink⟩ := h
  refine ⟨c, ?_, ink⟩
  rw [String.toList_append, head?_append, head, Option.some_or]

theorem Coded.trimEnd (h : Coded s) : Coded (Text.trimEnd s) := by
  obtain ⟨c, head, ink⟩ := h
  obtain ⟨cs, hs⟩ := head?_eq_some_iff.mp head
  refine ⟨c, ?_, ink⟩
  rw [Text.trimEnd, String.toList_ofList, hs, ← singleton_append,
    trimEndBy_append (by simpa using ink.1)]
  rfl

/-- A line that begins no block and is read back. -/
structure Quiet (l : String) : Prop where
  begins : Merge.beginKey? l = none
  unbroken : Unbroken l

theorem blank_tabs (depth : Nat) : Merge.Blank (Sheet.tabs depth) := by
  refine allChars_ofList.mpr fun c hc => ?_
  obtain rfl := (mem_replicate.mp hc).2
  decide

theorem unbroken_tabs (depth : Nat) : Unbroken (Sheet.tabs depth) := by
  refine allChars_ofList.mpr fun c hc => ?_
  obtain rfl := (mem_replicate.mp hc).2
  decide

theorem quiet_empty : Quiet "" := ⟨by decide, by decide⟩

theorem indented_of_ne (ne : s ≠ "") (depth : Nat) :
    Sheet.indented depth s = Sheet.tabs depth ++ s := by
  rw [Sheet.indented, if_neg (by simpa using ne)]

theorem Coded.ne_empty (h : Coded s) : s ≠ "" := by
  rintro rfl
  obtain ⟨c, head, -⟩ := h
  simp at head

/-- A line of code begins no block. -/
theorem quiet_code (coded : Coded s) (unbroken : Unbroken s) (depth : Nat) :
    Quiet (Sheet.indented depth s) := by
  rw [indented_of_ne coded.ne_empty]
  obtain ⟨c, head, ink⟩ := coded
  exact ⟨Merge.beginKey?_code (blank_tabs depth) head ink.1 ink.2, (unbroken_tabs depth).append unbroken⟩

theorem indented_margin (s : String) : Sheet.indented 0 s = s := by
  rw [Sheet.indented]
  split
  · next empty => exact (String.isEmpty_iff.mp empty).symm
  · exact String.empty_append

/-- A comment that does not open as a marker does begins no block. -/
theorem quiet_comment {t : String} (other : ¬ "<<<".toList <+: t.toList) (unbroken : Unbroken t) :
    Quiet (Sheet.indented 0 ("// " ++ t)) := by
  rw [indented_margin]
  exact ⟨Merge.beginKey?_comment other, AllChars.append (by decide) unbroken⟩

/-! ### Texts that make a skeleton -/

/-- A character of an identifier; what lies beyond ASCII and is not blank counts as a letter. -/
def isIdentifierChar (c : Char) : Bool := isWordChar c || (128 ≤ c.toNat && !isBlank c)

/-- An identifier that is not all underscores. -/
structure IsIdentifier (s : String) : Prop where
  chars : AllChars (isIdentifierChar · = true) s
  letter : ∃ c ∈ s.toList, c ≠ '_'

def IsName (name : String) : Prop :=
  ∃ words, words ≠ [] ∧ (∀ w ∈ words, IsIdentifier w) ∧ name = join "::" words

/-- No setting that a skeleton shows breaks a line. -/
structure Config.Unbroken (c : Config) : Prop where
  folder : Text.Unbroken c.generatedFolder
  types : Text.Unbroken c.typesFolder
  package : Text.Unbroken c.typesPackage
  runtime : Text.Unbroken c.runtimeModule
  renames : ∀ r ∈ c.renames, Text.Unbroken r.new

/-- The property has a name, and its texts break no line. -/
structure Property.Writable (p : Property) : Prop where
  name : IsName p.name
  type : Text.Unbroken p.type
  initial : ∀ t ∈ p.initial, Text.Unbroken t
  description : Text.Unbroken p.description

/-- A description that breaks no line and does not speak of markers. -/
structure IsRemark (s : String) : Prop where
  unbroken : Text.Unbroken s
  unmarked : contains s "<<<" = false

/-- The method has a name, its texts break no line, and its description does not speak of markers. -/
structure Method.Writable (m : Method) : Prop where
  name : IsName m.name
  result : Text.Unbroken m.result
  params : ∀ p ∈ m.params, Text.Unbroken p.name ∧ Text.Unbroken p.type
  description : IsRemark m.description

def AgentType.ownMethods (a : AgentType) : List Method := a.methods.filter fun m => !m.isInherited

/-- The agent type has members with names and texts that break no line, and the Go names of its own methods
differ. -/
structure AgentType.Writable (a : AgentType) : Prop where
  name : Text.Unbroken a.name
  location : ∀ l ∈ a.location, Text.Unbroken l
  description : IsRemark a.description
  properties : ∀ p ∈ a.properties, p.Writable
  methods : ∀ m ∈ a.methods, m.Writable
  distinct : (a.ownMethods.map fun m => memberName m.name).Nodup

theorem isInk_of_isIdentifierChar {c : Char} (h : isIdentifierChar c = true) : IsInk c ∧ c ≠ ']' := by
  have bracket : c ≠ ']' ↔ c.toNat ≠ 93 := not_congr Char.toNat_inj.symm
  have underscore : c = '_' ↔ c.toNat = 95 := Char.toNat_inj.symm
  simp only [isIdentifierChar, isWordChar, isWordStart, isLetter, Bool.or_eq_true, Bool.and_eq_true,
    decide_eq_true_eq, beq_iff_eq, char_le_iff, Bool.not_eq_true', underscore] at h
  rw [bracket]
  rcases h with word | ⟨beyond, blank⟩
  · rw [isInk_iff]
    simp [inklessRanges, blankRanges] at word ⊢
    omega
  · refine ⟨⟨blank, ?_⟩, by omega⟩
    rintro rfl
    exact absurd beyond (by decide)

theorem IsName.chars (h : IsName name) : AllChars (fun c => IsInk c ∧ c ≠ ']') name := by
  obtain ⟨words, -, hw, rfl⟩ := h
  refine AllChars.join (by decide) fun w hword => ?_
  exact (hw w hword).chars.mono fun c => isInk_of_isIdentifierChar

theorem IsName.ink (h : IsName name) : AllChars IsInk name :=
  h.chars.mono fun _ => And.left

theorem IsName.letter (h : IsName name) : ∃ c ∈ name.toList, c ≠ '_' := by
  obtain ⟨words, some, hw, rfl⟩ := h
  cases words with
  | nil => exact absurd rfl some
  | cons w rest =>
    obtain ⟨c, hc, letter⟩ := (hw w mem_cons_self).letter
    refine ⟨c, ?_, letter⟩
    cases rest with
    | nil => exact hc
    | cons next rest =>
      rw [join]
      · simp [hc]
      · simp

theorem isName_of_word {c : Char} (chars : AllChars (isIdentifierChar · = true) s)
    (hc : c ∈ s.toList) (letter : c ≠ '_') : IsName s := by
  refine ⟨[s], cons_ne_nil _ _, ?_, rfl⟩
  rw [forall_mem_singleton]
  exact ⟨chars, c, hc, letter⟩

theorem IsName.basicName {p : Property} (h : IsName p.name) : p.basicName = p.name := by
  refine dropTails_eq_self ?_
  rintro ⟨front, back⟩
  have bracket : ']' ∈ p.name.toList := by
    rw [← mem_reverse, ← back]
    exact mem_append_left _ (by decide)
  exact (h.chars _ bracket).2 rfl

theorem Property.Writable.coded {p : Property} (h : p.Writable) :
    Coded (Skeleton.fieldName p) ∧ Text.Unbroken (Skeleton.fieldName p) := by
  rw [Skeleton.fieldName, h.name.basicName]
  have ink := pascalCase_isInk h.name.ink
  refine ⟨?_, ink.mono fun _ => IsInk.flat⟩
  cases hs : (pascalCase p.name).toList with
  | nil => exact absurd (String.toList_eq_nil_iff.mp hs) (pascalCase_ne_empty h.name.letter)
  | cons c cs => exact ⟨c, by rw [hs]; rfl, ink c (by rw [hs]; exact mem_cons_self)⟩

theorem IsRemark.not_leads (h : IsRemark s) : ¬ "<<<".toList <+: s.toList := by
  intro lead
  have found : contains s "<<<" = true := by
    rw [contains]
    cases hs : s.toList with
    | nil => rw [hs] at lead; exact absurd lead (by decide)
    | cons c cs =>
      rw [hs] at lead
      rw [containsChars, List.isPrefixOf_iff_prefix.mpr lead, Bool.true_or]
  exact absurd (h.unmarked.symm.trans found) Bool.false_ne_true

namespace Skeleton

/-! ### Lines of a skeleton -/

def ownBody (k : Skeleton) (m : Method) : List String :=
  (k.initialValue m.result none).value.toList.map fun e => Sheet.indented 1 ("return " ++ e.text)

/-- The line that opens the stub of a method. -/
def stubHeader (k : Skeleton) (agent : String) (m : Method) : String :=
  Func.header {
    receiver := some ("_o", agent), name := memberName m.name, params := (k.paramTypes m.params).value,
    result := (k.initialValue m.result none).value.map fun _ => (k.goType m.result).value, body := [] }

def stubLines (k : Skeleton) (agent : String) (m : Method) (body : List String) : List String :=
  (commentOf m.description).flatMap (Decl.lines 0) ++ [Sheet.indented 0 (k.stubHeader agent m)]
    ++ (Merge.opening "\t" (memberName m.name) :: body ++ [Merge.closing "\t"])
    ++ [Sheet.indented 0 "\x7d", ""]

def stubs (k : Skeleton) (agent : String) (bodies : Method → List String) (ms : List Method) : List String :=
  ms.flatMap fun m => k.stubLines agent m (bodies m)

def front (k : Skeleton) (a : AgentType) : List Decl :=
  let name := basicName a.name
  let members := a.properties.filter fun p => isOwn p && !p.isStatic
  let statics := a.properties.filter fun p => isOwn p && p.isStatic
  let body : List Step :=
    [.define "_o" (.new name)] ++ (k.fieldSetup members).value ++ [.ret (.name "_o")]
  [.blank] ++ commentOf a.description ++ [.record name none (k.fieldRows members).value, .blank]
    ++ (if statics.isEmpty then [] else (k.staticDecls name statics).value ++ [.blank])
    ++ [.func { name := "New" ++ name, result := some ("*" ++ name), body := body.map .step }, .blank]

def frontLines (k : Skeleton) (a : AgentType) : List String :=
  headerLines (k.agentPlace a).1 (k.agentPlace a).2 (importLines k.config (k.agentDecls a).needs.imports)
    ++ (k.front a).flatMap (Decl.lines 0)

def handEdited (k : Skeleton) (a : AgentType) (bodies : Method → List String) : String :=
  unlines (k.frontLines a ++ k.stubs (basicName a.name) bodies a.ownMethods)

theorem indented_comment (t : String) : Sheet.indented 1 ("// " ++ t) = "\t" ++ ("// " ++ t) := by
  have filled : "// " ++ t ≠ "" := by
    intro empty
    simpa using congrArg String.toList empty
  have tab : Sheet.tabs 1 = "\t" := by decide
  rw [indented_of_ne filled, tab]

/-- The lines of a stub are its header, its body and its end. -/
theorem lines_methodStub (k : Skeleton) (agent : String) (m : Method) :
    (k.methodStub agent m).value.flatMap (Decl.lines 0) = k.stubLines agent m (k.ownBody m) := by
  have opened : "\t" ++ ("// " ++ (Merge.beginText ++ " " ++ memberName m.name)) =
      Merge.opening "\t" (memberName m.name) := by
    rw [Merge.opening, Merge.beginMarker, String.append_assoc, String.append_assoc]
  have closed : "\t" ++ ("// " ++ Merge.endText) = Merge.closing "\t" := rfl
  have inner : Stmt.linesAll 1 (([Step.comment (Merge.beginText ++ " " ++ memberName m.name)]
        ++ (k.initialValue m.result none).value.toList.map Step.ret ++
        [Step.comment Merge.endText]).map .step) =
      Merge.opening "\t" (memberName m.name) :: k.ownBody m ++ [Merge.closing "\t"] := by
    rw [Stmt.linesAll_map_step, map_append, map_append, map_map]
    simp only [map_cons, map_nil, Step.text, indented_comment, opened, closed]
    rfl
  rw [methodStub]
  simp only [Emit.value_bind, Emit.value_pure, flatMap_append, flatMap_cons, flatMap_nil,
    Decl.lines]
  rw [inner, stubLines]
  simp only [List.append_assoc, cons_append, List.nil_append]
  rfl

theorem lines_methodStubs (k : Skeleton) (agent : String) : ∀ ms : List Method,
    (k.methodStubs agent ms).value.flatMap (Decl.lines 0) =
      (ms.filter fun m => !m.isInherited).flatMap fun m => k.stubLines agent m (k.ownBody m)
  | [] => rfl
  | m :: ms => by
      have rest := lines_methodStubs k agent ms
      rw [methodStubs]
      cases inherited : m.isInherited with
      | true => simpa [inherited] using rest
      | false => simp [inherited, rest, lines_methodStub]

/-- A new skeleton holds the bodies that its methods start out with. -/
theorem handEdited_ownBody (k : Skeleton) (a : AgentType) :
    k.handEdited a k.ownBody = (k.agentFile a).contents := by
  have decls : (k.agentDecls a).value = k.front a ++ (k.methodStubs (basicName a.name) a.methods).value := by
    simp [agentDecls, front]
  have contents : (k.agentFile a).contents = (assemble (k.agentPlace a).1 (k.agentPlace a).2
      (importLines k.config (k.agentDecls a).needs.imports) (k.agentDecls a).value).contents := rfl
  rw [contents, contents_assemble, decls, flatMap_append, lines_methodStubs, handEdited, frontLines,
    List.append_assoc]
  rfl

/-! ### Imports -/

/-- Nothing but the runtime is imported. -/
def RuntimeOnly {α : Type} (e : Emit α) : Prop := ∀ i ∈ e.needs.imports, i = .runtime "bt"

theorem RuntimeOnly.pure {α : Type} (a : α) : RuntimeOnly (Pure.pure a) := by
  simp [RuntimeOnly]

theorem RuntimeOnly.bind {α β : Type} {e : Emit α} {f : α → Emit β} (he : RuntimeOnly e)
    (hf : ∀ a, RuntimeOnly (f a)) : RuntimeOnly (e >>= f) := by
  intro i hi
  rw [Emit.needs_bind, Needs.imports_append, mem_append] at hi
  exact hi.elim (he i) (hf _ i)

variable (k : Skeleton)

theorem runtimeOnly_goType (native : String) : RuntimeOnly (k.goType native) := by
  refine .bind ?_ fun _ => .pure _
  rw [Context.notePackages]
  split
  · simp [RuntimeOnly, Emit.usePackage, Emit.require]
  · exact .pure _

theorem runtimeOnly_initialValue (native : String) (text : Option String) :
    RuntimeOnly (k.initialValue native text) := by
  refine .bind (k.runtimeOnly_goType native) fun type => ?_
  simp only
  split
  · exact .pure _
  · exact .pure _

theorem runtimeOnly_fieldRows : ∀ ps : List Property, RuntimeOnly (k.fieldRows ps)
  | [] => .pure _
  | p :: ps => .bind (k.runtimeOnly_goType p.type) fun _ =>
      .bind (runtimeOnly_fieldRows ps) fun _ => .pure _

theorem runtimeOnly_staticDecls (agent : String) : ∀ ps : List Property,
    RuntimeOnly (k.staticDecls agent ps)
  | [] => .pure _
  | p :: ps => .bind (k.runtimeOnly_goType p.type) fun _ =>
      .bind (k.runtimeOnly_initialValue p.type p.initial) fun _ =>
        .bind (runtimeOnly_staticDecls agent ps) fun _ => .pure _

theorem runtimeOnly_fieldSetup : ∀ ps : List Property, RuntimeOnly (k.fieldSetup ps)
  | [] => .pure _
  | p :: ps => by
      have rest := runtimeOnly_fieldSetup ps
      rw [fieldSetup]
      split
      · exact .bind (k.runtimeOnly_initialValue p.type p.initial) fun _ => .bind rest fun _ => .pure _
      · exact .bind (.pure _) fun _ => .bind rest fun _ => .pure _

theorem runtimeOnly_paramTypes : ∀ ps : List Param, RuntimeOnly (k.paramTypes ps)
  | [] => .pure _
  | p :: ps => .bind (k.runtimeOnly_goType p.type) fun _ =>
      .bind (runtimeOnly_paramTypes ps) fun _ => .pure _

theorem runtimeOnly_methodStub (agent : String) (m : Method) : RuntimeOnly (k.methodStub agent m) :=
  .bind (k.runtimeOnly_paramTypes m.params) fun _ => .bind (k.runtimeOnly_goType m.result) fun _ =>
    .bind (k.runtimeOnly_initialValue m.result none) fun _ => .pure _

theorem runtimeOnly_methodStubs (agent : String) : ∀ ms : List Method, RuntimeOnly (k.methodStubs agent ms)
  | [] => .pure _
  | m :: ms => by
      have rest := runtimeOnly_methodStubs agent ms
      rw [methodStubs]
      split
      · exact .bind (.pure _) fun _ => .bind rest fun _ => .pure _
      · exact .bind (k.runtimeOnly_methodStub agent m) fun _ => .bind rest fun _ => .pure _

theorem runtimeOnly_agentDecls (a : AgentType) : RuntimeOnly (k.agentDecls a) :=
  .bind (k.runtimeOnly_fieldRows _) fun _ => .bind (k.runtimeOnly_staticDecls _ _) fun _ =>
    .bind (k.runtimeOnly_fieldSetup _) fun _ => .bind (k.runtimeOnly_methodStubs _ _) fun _ => .pure _

theorem mem_of_mem_sortedImports {l : String} {ls : List String} (h : l ∈ sortedImports ls) : l ∈ ls := by
  rw [sortedImports, mem_mergeSort, mem_eraseDups, mem_mergeSort] at h
  exact h

/-! ### The front of a skeleton -/

variable {k} {a : AgentType}

theorem quiet_imports (config : k.config.Unbroken) (a : AgentType) :
    ∀ l ∈ importLines k.config (k.agentDecls a).needs.imports, Quiet (Sheet.indented 1 l) := by
  intro l hl
  obtain ⟨i, hi, rfl⟩ := mem_map.mp (mem_of_mem_sortedImports hl)
  obtain rfl := k.runtimeOnly_agentDecls a i hi
  refine quiet_code ?_ ?_ 1
  · exact Coded.append (Coded.append ⟨'"', by decide, by decide⟩ _) _
  · exact AllChars.append (.append (by decide) ((config.runtime.append (by decide)).append (by decide)))
      (by decide)

theorem unbroken_locatedPath (config : k.config.Unbroken) {location name : String}
    (hl : Unbroken location) (hn : Unbroken name) : Unbroken (k.locatedPath location name) := by
  have dir : Unbroken k.config.typesDir := (config.folder.append (by decide)).append config.types
  exact ((((dir.append (by decide)).append (hl.trimChar '/')).append (by decide)).append hn).append (by decide)

theorem unbroken_locationPackage (config : k.config.Unbroken) {location : String}
    (hl : Unbroken location) : Unbroken (k.locationPackage location) := by
  rw [locationPackage]
  split
  · next folder found =>
    obtain ⟨part, hpart, rfl⟩ := List.mem_map.mp (List.mem_of_getLast? (Option.filter_eq_some_iff.mp found).1)
    refine allChars_ofList.mpr fun c hc => ?_
    obtain ⟨d, hd, rfl⟩ := List.mem_map.mp hc
    split
    · decide
    · rw [String.toList_ofList] at hd
      exact hl.trimChar '/' d (mem_of_mem_splitChars hpart hd)
  · exact config.package

theorem unbroken_typesPath (config : k.config.Unbroken) {file : String} (hf : Unbroken file) :
    Unbroken (k.config.typesDir ++ "/" ++ file) := by
  have dir : Unbroken k.config.typesDir := (config.folder.append (by decide)).append config.types
  exact (dir.append (by decide)).append hf

theorem unbroken_agentPlace (config : k.config.Unbroken) (agent : a.Writable) :
    Unbroken (k.agentPlace a).1 ∧ Unbroken (k.agentPlace a).2 := by
  have name := allChars_basicName agent.name
  have space := allChars_namespaceOf agent.name
  rw [agentPlace]
  split
  · next location given =>
    have place := agent.location location given
    dsimp only
    exact ⟨unbroken_locatedPath config place name, unbroken_locationPackage config place⟩
  · split
    · dsimp only
      exact ⟨(unbroken_typesPath config name).append (by decide), config.package⟩
    · dsimp only
      have slash : Unbroken "/" := by decide
      have nested := unbroken_typesPath config (space.replace slash "::")
      exact ⟨((nested.append (by decide)).append name).append (by decide), allChars_basicName space⟩

theorem not_marked {c : Char} {s : String} (head : s.toList.head? = some c) (other : c ≠ '<') :
    ¬ "<<<".toList <+: s.toList := by
  rintro ⟨rest, h⟩
  rw [← h] at head
  exact other (Option.some.inj head).symm

/-- The header begins and ends no block. -/
theorem quiet_headerLines (config : k.config.Unbroken) (agent : a.Writable) :
    ∀ l ∈ headerLines (k.agentPlace a).1 (k.agentPlace a).2
      (importLines k.config (k.agentDecls a).needs.imports), Quiet l := by
  obtain ⟨path, package⟩ := unbroken_agentPlace config agent
  have ruled : Quiet (Sheet.indented 0 ("// " ++
      "---------------------------------------------------------------------")) :=
    quiet_comment (not_marked (c := '-') (by decide) (by decide)) (by decide)
  have warned : Quiet (Sheet.indented 0 ("// " ++
      "THIS FILE IS AUTO-GENERATED, SO PLEASE DON'T MODIFY IT BY YOURSELF!")) :=
    quiet_comment (not_marked (c := 'T') (by decide) (by decide)) (by decide)
  have exported : Quiet (Sheet.indented 0 ("// " ++ ("Export file: " ++ (k.agentPlace a).1))) := by
    have head : ("Export file: " ++ (k.agentPlace a).1).toList.head? = some 'E' := by
      rw [String.toList_append]
      rfl
    exact quiet_comment (not_marked head (by decide)) (.append (by decide) path)
  have clause : Quiet (Sheet.indented 0 ("package " ++ (k.agentPlace a).2)) :=
    quiet_code (Coded.append ⟨'p', by decide, by decide⟩ _) (.append (by decide) package) 0
  have opens : Quiet (Sheet.indented 0 "import (") := quiet_code ⟨'i', by decide, by decide⟩ (by decide) 0
  have closes : Quiet (Sheet.indented 0 ")") := quiet_code ⟨')', by decide, by decide⟩ (by decide) 0
  rw [headerLines, List.forall_mem_append, List.forall_mem_append]
  refine ⟨⟨?_, ?_⟩, ?_⟩
  · simp only [List.flatMap_cons, List.flatMap_nil, List.append_nil, List.cons_append, List.nil_append, rule,
      warning, Decl.lines, List.forall_mem_cons]
    exact ⟨ruled, warned, exported, ruled, quiet_empty, List.forall_mem_nil _⟩
  · rw [List.forall_mem_singleton]
    exact clause
  · split
    · exact List.forall_mem_nil _
    · simp only [List.cons_append, List.forall_mem_cons, List.forall_mem_append, List.forall_mem_map]
      exact ⟨quiet_empty, opens, quiet_imports config a, closes, List.forall_mem_nil _⟩

theorem quiet_commentOf {text : String} (h : IsRemark text) :
    ∀ l ∈ (commentOf text).flatMap (Decl.lines 0), Quiet l := by
  rw [commentOf]
  split
  · exact nofun
  · rw [List.flatMap_singleton, Decl.lines, List.forall_mem_singleton]
    exact quiet_comment h.not_leads h.unbroken

theorem quiet_brace :
    Quiet (Sheet.indented 0 "\x7d") := quiet_code ⟨'\x7d', by decide, by decide⟩ (by decide) 0

theorem unbroken_padded {s : String} (h : Unbroken s) (width : Nat) : Unbroken (padded s width) := by
  refine h.append (allChars_ofList.mpr fun c hc => ?_)
  obtain rfl := (List.mem_replicate.mp hc).2
  decide

theorem quiet_threeColumns {rows : List Row} (h : ∀ r ∈ rows, (Coded r.name ∧ Unbroken r.name) ∧
    Unbroken r.type ∧ Unbroken r.comment) (depth : Nat) :
    ∀ l ∈ threeColumns rows, Quiet (Sheet.indented depth l) := by
  intro l hl
  obtain ⟨r, hr, rfl⟩ := List.mem_map.mp hl
  obtain ⟨⟨coded, name⟩, type, comment⟩ := h r hr
  have first (width : Nat) := coded.append (.ofList (List.replicate (width - r.name.length) ' '))
  have named := (unbroken_padded name (columnWidth (rows.map Row.name))).append (t := " ") (by decide)
  split
  · exact quiet_code (((first _).append " ").append r.type).trimEnd (named.append type).trimEnd depth
  · refine quiet_code (((((first _).append " ").append _).append " // ").append _) ?_ depth
    exact ((named.append (unbroken_padded type _)).append (by decide)).append comment

theorem value_fieldRows : ∀ ps : List Property, (k.fieldRows ps).value = ps.map fun p =>
    { name := fieldName p, type := GoType.ofNative k.config.renames p.type, comment := p.description }
  | [] => rfl
  | _ :: ps => congrArg (_ :: ·) (value_fieldRows ps)

theorem unbroken_initialValue (config : k.config.Unbroken) {native : String} {text : Option String}
    (hn : Unbroken native) (ht : ∀ t ∈ text, Unbroken t) :
    ∀ e ∈ (k.initialValue native text).value, Unbroken e.text := by
  intro e he
  simp only [initialValue, Emit.value_bind] at he
  split at he
  · obtain rfl := Option.some.inj he
    rw [Expr.text]
    exact (GoType.unbroken_ofNative config.renames hn).append (by decide)
  · exact unbroken_propertyLiteral config.renames hn ht he

theorem quiet_staticDecls (config : k.config.Unbroken) {agent : String} (ha : Unbroken agent) :
    ∀ ps : List Property, (∀ p ∈ ps, p.Writable) →
      ∀ l ∈ (k.staticDecls agent ps).value.flatMap (Decl.lines 0), Quiet l
  | [], _ => nofun
  | p :: ps, h => by
      rw [List.forall_mem_cons] at h
      obtain ⟨prop, props⟩ := h
      have rest := quiet_staticDecls config ha ps props
      have type : Unbroken (k.goType p.type).value := GoType.unbroken_ofNative config.renames prop.type
      have value := unbroken_initialValue config prop.type prop.initial
      have declared : Coded ("var " ++ (agent ++ fieldName p) ++ " " ++ (k.goType p.type).value) :=
        ((Coded.append ⟨'v', by decide, by decide⟩ _).append _).append _
      have unbroken : Unbroken ("var " ++ (agent ++ fieldName p) ++ " " ++ (k.goType p.type).value) :=
        ((AllChars.append (by decide) (ha.append prop.coded.2)).append (by decide)).append type
      simp only [staticDecls, Emit.value_bind, Emit.value_pure, List.flatMap_cons, List.forall_mem_append]
      refine ⟨?_, rest⟩
      cases given : (if p.initial.isSome then (k.initialValue p.type p.initial).value else none) with
      | none =>
        rw [Decl.lines, List.forall_mem_singleton]
        exact quiet_code declared unbroken 0
      | some e =>
        have known : e ∈ (k.initialValue p.type p.initial).value := by
          split at given
          · exact given
          · cases given
        rw [Decl.lines, List.forall_mem_singleton]
        exact quiet_code ((declared.append _).append _)
          ((unbroken.append (by decide)).append (value e known)) 0

theorem quiet_fieldSetup (config : k.config.Unbroken) : ∀ ps : List Property, (∀ p ∈ ps, p.Writable) →
    ∀ s ∈ (k.fieldSetup ps).value, Coded s.text ∧ Unbroken s.text
  | [], _ => nofun
  | p :: ps, h => by
      rw [List.forall_mem_cons] at h
      obtain ⟨prop, props⟩ := h
      have rest := quiet_fieldSetup config ps props
      have assigned : ∀ e ∈ (k.initialValue p.type p.initial).value,
          Coded (Step.text (.assign (.select (.name "_o") (fieldName p)) e)) ∧
            Unbroken (Step.text (.assign (.select (.name "_o") (fieldName p)) e)) := by
        intro e he
        have value := unbroken_initialValue config prop.type prop.initial e he
        rw [Step.text, Expr.text, Expr.text]
        exact ⟨(((Coded.append ⟨'_', by decide, by decide⟩ _).append _).append _).append _,
          ((((AllChars.append (by decide) (by decide)).append prop.coded.2).append (by decide)).append value)⟩
      rw [fieldSetup]
      split
      · simp only [Emit.value_bind, Emit.value_pure, List.forall_mem_append, List.forall_mem_map,
          Option.mem_toList]
        exact ⟨assigned, rest⟩
      · simpa using rest

/-- The header of a function begins and ends no block. -/
theorem quiet_header {f : Func} (receiver : ∀ r ∈ f.receiver, Unbroken r.1 ∧ Unbroken r.2)
    (name : Unbroken f.name) (params : ∀ p ∈ f.params, Unbroken p.1 ∧ Unbroken p.2)
    (result : ∀ t ∈ f.result, Unbroken t) : Quiet (Sheet.indented 0 f.header) := by
  have listed : ∀ t ∈ f.params.map fun p => p.1 ++ " " ++ p.2, Unbroken t := by
    rw [List.forall_mem_map]
    exact fun p hp => ((params p hp).1.append (by decide)).append (params p hp).2
  rw [Func.header]
  refine quiet_code (.append (.append (.append (.append (.append (.append (.append
    ⟨'f', by decide, by decide⟩ _) _) _) _) _) _) _) ?_ 0
  refine .append (.append (.append (.append (.append (.append (.append (by decide) ?_) name) (by decide))
    (AllChars.join (by decide) listed)) (by decide)) ?_) (by decide)
  · split
    · next x type given =>
      obtain ⟨hv, ht⟩ := receiver _ given
      exact (((AllChars.append (by decide) hv).append (by decide)).append ht).append (by decide)
    · decide
  · split
    · next type given => exact AllChars.append (by decide) (result _ given)
    · decide

/-- Nothing in front of the stubs begins or ends a block. -/
theorem quiet_front (config : k.config.Unbroken) (agent : a.Writable) :
    ∀ l ∈ (k.front a).flatMap (Decl.lines 0), Quiet l := by
  have name := allChars_basicName agent.name
  have own (q : Property → Bool) : ∀ p ∈ a.properties.filter q, p.Writable :=
    fun p hp => agent.properties p (List.mem_of_mem_filter hp)
  have fields (q : Property → Bool) : ∀ r ∈ (k.fieldRows (a.properties.filter q)).value,
      (Coded r.name ∧ Unbroken r.name) ∧ Unbroken r.type ∧ Unbroken r.comment := by
    rw [value_fieldRows, List.forall_mem_map]
    intro p hp
    have prop := own q p hp
    exact ⟨prop.coded, GoType.unbroken_ofNative config.renames prop.type, prop.description⟩
  have type : Quiet (Sheet.indented 0 (structHeader (basicName a.name))) :=
    quiet_code ((Coded.append ⟨'t', by decide, by decide⟩ _).append _)
      ((AllChars.append (by decide) name).append (by decide)) 0
  have made : Quiet (Sheet.indented 0 (Func.header {
      name := "New" ++ basicName a.name, result := some ("*" ++ basicName a.name), body := [] })) := by
    refine quiet_header (by simp) (.append (by decide) name) (List.forall_mem_nil _) ?_
    rintro t ⟨rfl⟩
    exact .append (by decide) name
  have object : Quiet (Sheet.indented 1 (Step.text (.define "_o" (.new (basicName a.name))))) := by
    rw [Step.text, Expr.text]
    exact quiet_code ((Coded.append ⟨'_', by decide, by decide⟩ _).append _)
      (AllChars.append (by decide) ((AllChars.append (by decide) name).append (by decide))) 1
  have returned : Quiet (Sheet.indented 1 (Step.text (.ret (.name "_o")))) := by
    rw [Step.text, Expr.text]
    exact quiet_code (Coded.append ⟨'r', by decide, by decide⟩ _) (by decide) 1
  have setup (q : Property → Bool) : ∀ s ∈ (k.fieldSetup (a.properties.filter q)).value,
      Quiet (Sheet.indented 1 s.text) := by
    intro s hs
    obtain ⟨coded, unbroken⟩ := quiet_fieldSetup config _ (own q) s hs
    exact quiet_code coded unbroken 1
  simp only [front, flatMap_append, flatMap_cons, flatMap_nil, List.append_nil,
    forall_mem_append]
  refine ⟨⟨⟨⟨?_, quiet_commentOf agent.description⟩, ?_, ?_⟩, ?_⟩, ?_, ?_⟩
  · rw [Decl.lines, forall_mem_singleton]
    exact quiet_empty
  · rw [Decl.lines, cons_append, forall_mem_cons, forall_mem_append, forall_mem_singleton,
      forall_mem_map]
    exact ⟨type, quiet_threeColumns (fields _) 1, quiet_brace⟩
  · rw [Decl.lines, forall_mem_singleton]
    exact quiet_empty
  · split
    · exact forall_mem_nil _
    · simp only [flatMap_append, flatMap_singleton, Decl.lines, forall_mem_append,
        forall_mem_singleton]
      exact ⟨quiet_staticDecls config name _ (own _), quiet_empty⟩
  · rw [Decl.lines, Stmt.linesAll_map_step, cons_append, forall_mem_cons, forall_mem_append,
      forall_mem_singleton, forall_mem_map, forall_mem_append, forall_mem_append,
      forall_mem_singleton, forall_mem_singleton]
    exact ⟨made, ⟨⟨object, setup _⟩, returned⟩, quiet_brace⟩
  · rw [Decl.lines, forall_mem_singleton]
    exact quiet_empty

theorem quiet_frontLines (config : k.config.Unbroken) (agent : a.Writable) :
    ∀ l ∈ k.frontLines a, Quiet l := by
  rw [frontLines, forall_mem_append]
  exact ⟨quiet_headerLines config agent, quiet_front config agent⟩

end Skeleton

end GoTrees
