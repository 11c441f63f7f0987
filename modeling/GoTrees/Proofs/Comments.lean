import GoTrees.Proofs.Lexing
import GoTrees.Proofs.Remarks

/-!
# Comments and code

Go code is told from its comments line by line: a comment starts with two slashes outside of strings and
character literals, and goes on to the end of its line. Removing it takes the padding in front of it along,
and the whole line if nothing else stands there.

    // Guards the gate.
    type Guard struct {                        type Guard struct {
        Post  int    // where to stand    ──▶      Post  int
        Name  string                               Name  string

A remark is written behind two slashes on a line of its own, or at the end of a row. As long as it does not
break the line, and the row in front of it is something, all of it is removed again. So files that are
generated with different remarks have the same code.
-/

namespace GoTrees

open Text List

variable {text : String} {p : Char → Bool} {cs : List Char} {rows : List Row}

namespace Go

/-! ### Removing comments -/

/-- What stands before the comment of a line, if there is one. -/
def beforeComment? : Scan → List Char → Option (List Char)
  | _, [] => none
  | .code, c :: cs =>
    if c = '"' then (beforeComment? .string cs).map (c :: ·)
    else if c = '/' ∧ cs.head? = some '/' then some []
    else if c = '\'' ∧ cs.tail.head? = some '\'' then (beforeComment? .rune cs).map (c :: ·)
    else (beforeComment? .code cs).map (c :: ·)
  | .string, c :: cs =>
    if c = '"' then (beforeComment? .code cs).map (c :: ·)
    else if c = '\\' then (beforeComment? .escape cs).map (c :: ·)
    else (beforeComment? .string cs).map (c :: ·)
  | .escape, c :: cs => (beforeComment? .string cs).map (c :: ·)
  | .rune, c :: cs => (beforeComment? .runeEnd cs).map (c :: ·)
  | .runeEnd, c :: cs => (beforeComment? .code cs).map (c :: ·)
  | .comment, _ :: _ => none

/-- A line without its comment and the padding before that; nothing is left of a line that is only a
comment. -/
def uncommentedLine? (line : List Char) : Option (List Char) :=
  match beforeComment? .code line with
  | none => some line
  | some code =>
    let code := trimEndBy isBlank code
    if code.isEmpty then none else some code

/-- The lines of a text without comments. -/
def uncommented (text : String) : List (List Char) :=
  (splitChars (· == '\n') text.toList).filterMap uncommentedLine?

theorem uncommented_append_feed (s t : String) :
    uncommented (s ++ "\n" ++ t) = uncommented s ++ uncommented t := by
  have cut : (s ++ "\n" ++ t).toList = s.toList ++ '\n' :: t.toList := by simp [String.toList_append]
  rw [uncommented, cut, splitChars_append (by decide), filterMap_append]
  rfl

theorem uncommented_unlines (ls : List String) :
    uncommented (unlines ls) = ls.flatMap uncommented ++ [[]] := by
  induction ls with
  | nil => rfl
  | cons l ls ih =>
    have cut : unlines (l :: ls) = l ++ "\n" ++ unlines ls := by
      rw [← String.toList_inj]
      simp [String.toList_append]
    rw [cut, uncommented_append_feed, ih, flatMap_cons, List.append_assoc]

theorem uncommented_of_unbroken {line : String} (unbroken : '\n' ∉ line.toList) :
    uncommented line = (uncommentedLine? line.toList).toList := by
  have single : splitChars (· == '\n') line.toList = [line.toList] := by
    refine splitChars_eq_singleton _ fun c hc => ?_
    simpa using fun feed : c = '\n' => unbroken (feed ▸ hc)
  rw [uncommented, single]
  cases h : uncommentedLine? line.toList <;> simp [h]

theorem beforeComment?_append : ∀ {cs : List Char}, (∀ c ∈ cs, IsPlain c) → ∀ rest,
    beforeComment? .code (cs ++ rest) = (beforeComment? .code rest).map (cs ++ ·)
  | [], _, rest => by simp
  | c :: cs, plain, rest => by
      rw [forall_mem_cons] at plain
      obtain ⟨string, rune, slash⟩ := plain.1
      rw [cons_append, beforeComment?, if_neg string, if_neg (fun h => slash h.1), if_neg (fun h => rune h.1),
        beforeComment?_append plain.2, Option.map_map]
      rfl

/-- A remark on a line of its own is removed. -/
theorem uncommented_comment (unbroken : '\n' ∉ text.toList) :
    uncommented ("// " ++ text) = [] := by
  rw [uncommented_of_unbroken (by simpa [String.toList_append] using unbroken), String.toList_append]
  rfl

/-! ### Rows -/

def Row.silent (r : Row) : Row := { r with comment := "" }

/-- A character of a row in which no comment, string, character literal or line starts. -/
def IsRowChar (c : Char) : Prop := IsPlain c ∧ c ≠ '\n'

instance : DecidablePred IsRowChar := fun _ => inferInstanceAs (Decidable (_ ∧ _))

/-- The comment of the row, if it has one, stays on its line, and what stands before it is seen and not
taken for a literal or a comment. -/
structure Row.Tame (r : Row) : Prop where
  name : r.comment ≠ "" → AllChars IsRowChar r.name
  type : r.comment ≠ "" → AllChars IsRowChar r.type
  shown : r.comment ≠ "" → isBlankText (r.name ++ r.type) = false
  comment : '\n' ∉ r.comment.toList

instance (r : Row) : Decidable r.Tame :=
  decidable_of_iff ((r.comment ≠ "" → AllChars IsRowChar r.name) ∧
      (r.comment ≠ "" → AllChars IsRowChar r.type) ∧
      (r.comment ≠ "" → isBlankText (r.name ++ r.type) = false) ∧ '\n' ∉ r.comment.toList)
    ⟨fun ⟨name, type, shown, comment⟩ => ⟨name, type, shown, comment⟩,
      fun h => ⟨h.name, h.type, h.shown, h.comment⟩⟩

theorem toList_padded (s : String) (width : Nat) :
    (padded s width).toList = s.toList ++ List.replicate (width - s.length) ' ' := by
  rw [padded, String.toList_append, String.toList_ofList]

theorem isRowChar_padded {s : String} (h : AllChars IsRowChar s) (width : Nat) :
    AllChars IsRowChar (padded s width) := by
  refine h.append (allChars_ofList.mpr fun c hc => ?_)
  rw [(mem_replicate.mp hc).2]
  decide

theorem isRowChar_tabs (depth : Nat) : AllChars IsRowChar (Sheet.tabs depth) := by
  refine allChars_ofList.mpr fun c hc => ?_
  rw [(mem_replicate.mp hc).2]
  decide

theorem feed_notMem_row {s : String} (h : AllChars IsRowChar s) : '\n' ∉ s.toList :=
  fun feed => (h _ feed).2 rfl

/-- A line of code without a comment stays as it is. -/
theorem uncommented_row {line : String} (plain : AllChars IsRowChar line) :
    uncommented line = [line.toList] := by
  have none := beforeComment?_append (fun c hc => (plain c hc).1) []
  rw [List.append_nil] at none
  rw [uncommented_of_unbroken (feed_notMem_row plain), uncommentedLine?, none]
  rfl

/-- A comment behind code is removed with the padding before it. -/
theorem uncommented_row_comment {line text : String} (plain : AllChars IsRowChar line)
    (unbroken : '\n' ∉ text.toList) (shown : trimEndBy isBlank line.toList ≠ []) :
    uncommented (line ++ "// " ++ text) = [trimEndBy isBlank line.toList] := by
  have whole : (line ++ "// " ++ text).toList = line.toList ++ '/' :: '/' :: ' ' :: text.toList := by
    simp [String.toList_append]
  have feedless : '\n' ∉ (line ++ "// " ++ text).toList := by
    rw [whole]
    simpa using ⟨feed_notMem_row plain, unbroken⟩
  have cut := beforeComment?_append (fun c hc => (plain c hc).1) ('/' :: '/' :: ' ' :: text.toList)
  rw [uncommented_of_unbroken feedless, whole, uncommentedLine?, cut]
  simp [beforeComment?, shown]

def Row.line (nameWidth typeWidth : Nat) (r : Row) : String :=
  if r.comment.isEmpty then trimEnd (padded r.name nameWidth ++ " " ++ r.type)
  else padded r.name nameWidth ++ " " ++ padded r.type typeWidth ++ " // " ++ r.comment

theorem threeColumns_eq (rows : List Row) :
    threeColumns rows =
      rows.map (Row.line (columnWidth (rows.map Row.name)) (columnWidth (rows.map Row.type))) := rfl

section Codes

variable {code : String} (chars : AllChars IsRowChar code) (shown : ∃ c ∈ code.toList, isBlank c = false)

include chars shown

theorem uncommented_trimEnd (depth : Nat) :
    uncommented (Sheet.indented depth (trimEnd code)) =
      [(Sheet.tabs depth).toList ++ trimEndBy isBlank code.toList] := by
  have filled : trimEnd code ≠ "" := by
    intro empty
    refine trimEndBy_ne_nil shown ?_
    simpa [trimEnd] using congrArg String.toList empty
  rw [indented_of_ne filled, uncommented_row ((isRowChar_tabs depth).append chars.trimEnd),
    String.toList_append, trimEnd, String.toList_ofList]

/-- The comment of a row goes together with the spaces before it. -/
theorem uncommented_spaces {spaces : String} (hs : ∀ c ∈ spaces.toList, c = ' ')
    (unbroken : '\n' ∉ text.toList)
    (depth : Nat) : uncommented (Sheet.indented depth (code ++ spaces ++ "// " ++ text)) =
      [(Sheet.tabs depth).toList ++ trimEndBy isBlank code.toList] := by
  have blanks : ∀ c ∈ spaces.toList, isBlank c = true := fun c hc => hs c hc ▸ (by decide)
  have plain : AllChars IsRowChar spaces := fun c hc => hs c hc ▸ (by decide)
  have trimmed : trimEndBy isBlank (Sheet.tabs depth ++ code ++ spaces).toList =
      (Sheet.tabs depth).toList ++ trimEndBy isBlank code.toList := by
    rw [String.toList_append, trimEndBy_append_blank blanks, String.toList_append,
      trimEndBy_append_shown shown]
  have whole : Sheet.indented depth (code ++ spaces ++ "// " ++ text) =
      Sheet.tabs depth ++ code ++ spaces ++ "// " ++ text := by
    rw [indented_of_ne (by simp)]
    simp only [String.append_assoc]
  rw [whole, uncommented_row_comment _ unbroken, trimmed]
  · rw [trimmed]
    exact append_ne_nil_of_right_ne_nil _ (trimEndBy_ne_nil shown)
  · exact ((isRowChar_tabs depth).append chars).append plain

end Codes

/-- The comment of a row makes no difference to its code. -/
theorem uncommented_line {r : Row} (tame : r.Tame) (depth nameWidth typeWidth : Nat) :
    uncommented (Sheet.indented depth (r.line nameWidth typeWidth)) =
      uncommented (Sheet.indented depth (r.silent.line nameWidth typeWidth)) := by
  by_cases bare : r.comment = ""
  · have same : r.silent = r := by rw [Row.silent, ← bare]
    rw [same]
  let code := padded r.name nameWidth ++ " " ++ r.type
  have chars : AllChars IsRowChar code :=
    ((isRowChar_padded (tame.name bare) _).append (by decide)).append (tame.type bare)
  have shown : ∃ c ∈ code.toList, isBlank c = false := by
    obtain ⟨c, hc, shown⟩ := all_eq_false.mp (tame.shown bare)
    refine ⟨c, ?_, Bool.eq_false_iff.mpr shown⟩
    simp only [code, String.toList_append, toList_padded, mem_append] at hc ⊢
    tauto
  have silent : r.silent.line nameWidth typeWidth = trimEnd code := rfl
  let spaces := String.ofList (List.replicate (typeWidth - r.type.length) ' ') ++ " "
  have hs : ∀ c ∈ spaces.toList, c = ' ' := by
    intro c hc
    rw [String.toList_append, String.toList_ofList, mem_append] at hc
    rcases hc with pad | last
    · exact (mem_replicate.mp pad).2
    · simpa using last
  have line : r.line nameWidth typeWidth = code ++ spaces ++ "// " ++ r.comment := by
    rw [Row.line, if_neg (by simpa using bare), ← String.toList_inj]
    simp [code, spaces, padded, String.toList_append]
  rw [silent, line, uncommented_trimEnd chars shown, uncommented_spaces chars shown hs tame.comment]

theorem uncommented_rows (tame : ∀ r ∈ rows, r.Tame) (depth : Nat) :
    ((threeColumns rows).map (Sheet.indented depth)).flatMap uncommented =
      ((threeColumns (rows.map Row.silent)).map (Sheet.indented depth)).flatMap uncommented := by
  have names : (rows.map Row.silent).map Row.name = rows.map Row.name := by simp [Row.silent]
  have types : (rows.map Row.silent).map Row.type = rows.map Row.type := by simp [Row.silent]
  rw [threeColumns_eq, threeColumns_eq, names, types]
  simp only [map_map, flatMap_map, Function.comp_def]
  exact flatMap_congr fun r hr => uncommented_line (tame r hr) depth _ _

/-! ### Declarations -/

/-- The lines of declarations without comments. -/
def Decl.code (ds : List Decl) : List (List Char) := (ds.flatMap (Decl.lines 0)).flatMap uncommented

@[simp] theorem Decl.code_append (as bs : List Decl) :
    Decl.code (as ++ bs) = Decl.code as ++ Decl.code bs := by
  rw [Decl.code, flatMap_append, flatMap_append]
  rfl

theorem Decl.code_record (tame : ∀ r ∈ rows, r.Tame) (name : String) (base : Option String)
    (ds : List Decl) :
    Decl.code (.record name base rows :: ds) = Decl.code (.record name base (rows.map Row.silent) :: ds) := by
  simp only [Decl.code, Decl.lines, flatMap_cons, flatMap_append, map_append, cons_append,
    uncommented_rows tame]

theorem Decl.code_constants (tame : ∀ r ∈ rows, r.Tame) :
    Decl.code [.constants rows] = Decl.code [.constants (rows.map Row.silent)] := by
  simp only [Decl.code, Decl.lines, flatMap_cons, flatMap_nil, List.append_nil, flatMap_append,
    cons_append, uncommented_rows tame]

theorem Decl.code_commentOf (unbroken : '\n' ∉ text.toList) :
    Decl.code (Skeleton.commentOf text) = [] := by
  rw [Skeleton.commentOf]
  split
  · rfl
  · rw [Decl.code, flatMap_singleton, Decl.lines, indented_margin, flatMap_singleton,
      uncommented_comment unbroken]

/-- What a file is apart from its comments. -/
def OutputFile.code (f : OutputFile) :
    String × Bool × List (List Char) := (f.path, f.mergeable, uncommented f.contents)

theorem uncommented_assemble (path package : String) (imports : List String) (ds : List Decl) :
    uncommented (assemble path package imports ds).contents =
      (headerLines path package imports).flatMap uncommented ++ Decl.code ds ++ [[]] := by
  rw [contents_assemble, uncommented_unlines, flatMap_append]
  rfl

end Go

open Go

/-! ### Type files -/

namespace Skeleton

def silent (k : Skeleton) : Skeleton := { k with catalog := k.catalog.silent }

def fieldRow (k : Skeleton) (p : Property) : Row where
  name := fieldName p
  type := GoType.ofNative k.config.renames p.type
  comment := p.description

def memberRow (e : EnumType) (m : EnumMember) : Row where
  name := basicName m.name
  type := basicName e.name ++ " = " ++ toString m.value
  comment := m.display

/-- No remark of the catalog breaks its line, and the rows that have one are tame. -/
structure Tame (k : Skeleton) : Prop where
  agent : ∀ a ∈ k.catalog.agents, '\n' ∉ a.description.toList
  field : ∀ a ∈ k.catalog.agents, ∀ p ∈ a.properties, (k.fieldRow p).Tame
  method : ∀ a ∈ k.catalog.agents, ∀ m ∈ a.methods, '\n' ∉ m.description.toList
  enum : ∀ e ∈ k.catalog.enums, '\n' ∉ e.description.toList
  member : ∀ e ∈ k.catalog.enums, ∀ m ∈ e.members, (memberRow e m).Tame
  struct : ∀ s ∈ k.catalog.structs, '\n' ∉ s.description.toList
  part : ∀ s ∈ k.catalog.structs, ∀ p ∈ s.properties, (k.fieldRow p).Tame

/-- Both need the same and have the same code. -/
structure SameCode (e f : Emit (List Decl)) : Prop where
  needs : e.needs = f.needs
  code : Decl.code e.value = Decl.code f.value

variable (k : Skeleton)

theorem initialValue_silent (native : String) (text : Option String) :
    k.silent.initialValue native text = k.initialValue native text := by
  have type : k.silent.catalog.classify native = k.catalog.classify native := Catalog.classify_silent _ _
  simp only [initialValue, type]
  rfl

theorem needs_fieldRows_silent : ∀ ps : List Property,
    (k.silent.fieldRows (ps.map Property.silent)).needs = (k.fieldRows ps).needs
  | [] => rfl
  | p :: ps => by
      have rest := needs_fieldRows_silent ps
      simp only [map_cons, fieldRows, Emit.needs_bind, rest]
      rfl

theorem value_fieldRows_silent (ps : List Property) :
    (k.silent.fieldRows (ps.map Property.silent)).value = (k.fieldRows ps).value.map Row.silent := by
  rw [value_fieldRows, value_fieldRows, map_map, map_map]
  rfl

theorem staticDecls_silent (agent : String) : ∀ ps : List Property,
    k.silent.staticDecls agent (ps.map Property.silent) = k.staticDecls agent ps
  | [] => rfl
  | p :: ps => by
      simp only [map_cons, staticDecls, initialValue_silent, staticDecls_silent agent ps]
      rfl

theorem fieldSetup_silent : ∀ ps : List Property,
    k.silent.fieldSetup (ps.map Property.silent) = k.fieldSetup ps
  | [] => rfl
  | p :: ps => by
      simp only [map_cons, fieldSetup, initialValue_silent, fieldSetup_silent ps]
      rfl

theorem paramTypes_silent : ∀ ps : List Param, k.silent.paramTypes (ps.map Param.silent) = k.paramTypes ps
  | [] => rfl
  | p :: ps => by
      simp only [map_cons, paramTypes, paramTypes_silent ps]
      rfl

theorem methodStub_silent (agent : String) {m : Method} (line : '\n' ∉ m.description.toList) :
    SameCode (k.methodStub agent m) (k.silent.methodStub agent m.silent) := by
  have params : k.silent.paramTypes m.silent.params = k.paramTypes m.params := k.paramTypes_silent m.params
  have result : k.silent.initialValue m.silent.result none = k.initialValue m.result none :=
    k.initialValue_silent m.result none
  constructor
  · simp only [methodStub, Emit.needs_bind, params, result]
    rfl
  · simp only [methodStub, Emit.value_bind, Emit.value_pure, params, result, Decl.code_append,
      Decl.code_commentOf line]
    rfl

theorem SameCode.append {e e' f f' : Emit (List Decl)} (h : SameCode e e') (h' : SameCode f f') :
    SameCode (e ++ f) (e' ++ f') where
  needs := by rw [Emit.needs_append, Emit.needs_append, h.needs, h'.needs]
  code := by rw [Emit.value_append, Emit.value_append, Decl.code_append, Decl.code_append, h.code, h'.code]

theorem SameCode.refl (e : Emit (List Decl)) : SameCode e e := ⟨rfl, rfl⟩

theorem methodStubs_cons (agent : String) (m : Method) (ms : List Method) :
    k.methodStubs agent (m :: ms) =
      (if m.isInherited then pure [] else k.methodStub agent m) ++ k.methodStubs agent ms := by
  rw [methodStubs]
  split <;> rfl

theorem methodStubs_silent (agent : String) : ∀ {ms : List Method}, (∀ m ∈ ms, '\n' ∉ m.description.toList) →
    SameCode (k.methodStubs agent ms) (k.silent.methodStubs agent (ms.map Method.silent))
  | [], _ => .refl _
  | m :: ms, lines => by
      rw [forall_mem_cons] at lines
      have rest := methodStubs_silent agent lines.2
      have stub := k.methodStub_silent agent lines.1
      rw [map_cons, methodStubs_cons, methodStubs_cons]
      refine SameCode.append ?_ rest
      have inherited : m.silent.isInherited = m.isInherited := rfl
      rw [inherited]
      split
      · exact .refl _
      · exact stub

theorem tame_fieldRows {ps : List Property} (tame : ∀ p ∈ ps, (k.fieldRow p).Tame) :
    ∀ r ∈ (k.fieldRows ps).value, r.Tame := by
  rw [value_fieldRows]
  exact forall_mem_map.mpr tame

theorem filter_silent (keep : Property → Bool) (blind : ∀ p : Property, keep p.silent = keep p)
    (ps : List Property) :
    (ps.map Property.silent).filter keep = (ps.filter keep).map Property.silent := by
  rw [filter_map]
  congr 1
  exact filter_congr fun p _ => blind p

/-- Remarks do not change the code of an agent. -/
theorem agentDecls_silent {a : AgentType} (line : '\n' ∉ a.description.toList)
    (fields : ∀ p ∈ a.properties, (k.fieldRow p).Tame)
    (methods : ∀ m ∈ a.methods, '\n' ∉ m.description.toList) :
    SameCode (k.agentDecls a) (k.silent.agentDecls a.silent) := by
  have name : a.silent.name = a.name := rfl
  have properties : a.silent.properties = a.properties.map Property.silent := rfl
  have members := filter_silent (fun p => isOwn p && !p.isStatic) (fun _ => rfl) a.properties
  have statics := filter_silent (fun p => isOwn p && p.isStatic) (fun _ => rfl) a.properties
  have stubs : SameCode (k.methodStubs (basicName a.name) a.methods)
      (k.silent.methodStubs (basicName a.name) a.silent.methods) := k.methodStubs_silent _ methods
  have tame := k.tame_fieldRows fun p hp =>
    fields p (mem_of_mem_filter (p := fun p => isOwn p && !p.isStatic) hp)
  constructor
  · simp only [agentDecls, Emit.needs_bind, name, properties, members, statics, needs_fieldRows_silent,
      staticDecls_silent, fieldSetup_silent, stubs.needs]
    rfl
  · simp only [agentDecls, Emit.value_bind, Emit.value_pure, name, properties, members, statics,
      value_fieldRows_silent, staticDecls_silent, fieldSetup_silent, Decl.code_append, stubs.code,
      Decl.code_commentOf line, isEmpty_map, Decl.code_record tame]
    rfl

theorem enumDecls_silent {e : EnumType} (line : '\n' ∉ e.description.toList)
    (members : ∀ m ∈ e.members, (memberRow e m).Tame) :
    Decl.code (enumDecls e) = Decl.code (enumDecls e.silent) := by
  have rows : ∀ r ∈ e.members.map (memberRow e), r.Tame := forall_mem_map.mpr members
  have shown (e : EnumType) : enumDecls e = [.blank] ++ commentOf e.description
      ++ ([.defined (basicName e.name) "int", .blank] ++ [.constants (e.members.map (memberRow e))]) := rfl
  have silentRows : e.silent.members.map (memberRow e.silent) =
      (e.members.map (memberRow e)).map Row.silent := by
    simp only [EnumType.silent, map_map]
    rfl
  rw [shown, shown, silentRows]
  simp only [Decl.code_append, Decl.code_commentOf line, Decl.code_constants rows]
  rfl

/-- Remarks do not change the code of a struct. -/
theorem structDecls_silent {s : StructType} (line : '\n' ∉ s.description.toList)
    (parts : ∀ p ∈ s.properties, (k.fieldRow p).Tame) :
    SameCode (k.structDecls s) (k.silent.structDecls s.silent) := by
  have name : s.silent.name = s.name := rfl
  have base : s.silent.base = s.base := rfl
  have properties : s.silent.properties = s.properties.map Property.silent := rfl
  have goType (native : String) : k.silent.goType native = k.goType native := rfl
  have own := filter_silent (fun p => !p.isInherited) (fun _ => rfl) s.properties
  have tame := k.tame_fieldRows fun p hp =>
    parts p (mem_of_mem_filter (p := fun p => !p.isInherited) hp)
  constructor
  · simp only [structDecls, Emit.needs_bind, base, properties, own, needs_fieldRows_silent, goType]
    cases s.base.filter fun b => !b.isEmpty <;> rfl
  · simp only [structDecls, Emit.value_bind, name, base, properties, own, goType, value_fieldRows_silent]
    cases s.base.filter fun b => !b.isEmpty with
    | none =>
      simp only [Emit.value_bind, Emit.value_pure, Decl.code_append, Decl.code_commentOf line,
        Decl.code_record tame]
      rfl
    | some b =>
      simp only [Emit.value_bind, Emit.value_pure, Decl.code_append, Decl.code_commentOf line,
        Decl.code_record tame]
      rfl

theorem structsDecls_silent : ∀ (ss : List StructType), (∀ s ∈ ss, '\n' ∉ s.description.toList) →
    (∀ s ∈ ss, ∀ p ∈ s.properties, (k.fieldRow p).Tame) →
    SameCode (k.structsDecls ss) (k.silent.structsDecls (ss.map StructType.silent))
  | [], _, _ => .refl _
  | s :: ss, lines, parts => by
      rw [forall_mem_cons] at lines parts
      exact (k.structDecls_silent lines.1 parts.1).append (structsDecls_silent ss lines.2 parts.2)

theorem SameCode.file {e f : Emit (List Decl)} (h : SameCode e f) (path package : String) :
    (k.file path package e).code = (k.silent.file path package f).code := by
  simp only [OutputFile.code, Skeleton.file, uncommented_assemble, h.needs, h.code]
  rfl

variable {k}

theorem config_silent : k.silent.config = k.config := rfl

theorem locatedPath_silent (location name : String) :
    k.silent.locatedPath location name = k.locatedPath location name := by
  rw [locatedPath, config_silent, locatedPath]

theorem locationPackage_silent (location : String) :
    k.silent.locationPackage location = k.locationPackage location := by
  rw [locationPackage, config_silent, locationPackage]

theorem agentPlace_silent (a : AgentType) : k.silent.agentPlace a.silent = k.agentPlace a := by
  have name : a.silent.name = a.name := rfl
  have location : a.silent.location = a.location := rfl
  simp only [agentPlace, name, location, config_silent, locatedPath_silent, locationPackage_silent]

theorem code_agentFile (tame : k.Tame) {a : AgentType} (ha : a ∈ k.catalog.agents) :
    (k.agentFile a).code = (k.silent.agentFile a.silent).code := by
  have decls := k.agentDecls_silent (tame.agent a ha) (tame.field a ha) (tame.method a ha)
  have code := decls.file k (k.agentPlace a).1 (k.agentPlace a).2
  simp only [OutputFile.code, agentFile, agentPlace_silent, Prod.mk.injEq] at code ⊢
  exact ⟨code.1, trivial, code.2.2⟩

theorem code_enumFile (tame : k.Tame) {e : EnumType} (he : e ∈ k.catalog.enums) :
    (k.enumFile? e).map OutputFile.code = (k.silent.enumFile? e.silent).map OutputFile.code := by
  have decls := enumDecls_silent (tame.enum e he) (tame.member e he)
  have location : e.silent.location = e.location := rfl
  have name : e.silent.name = e.name := rfl
  have same : SameCode (pure (enumDecls e)) (pure (enumDecls e.silent)) := ⟨rfl, decls⟩
  simp only [enumFile?, Option.map_map, location, name, Function.comp_def, locatedPath_silent,
    locationPackage_silent, same.file k]

theorem code_structFile (tame : k.Tame) {s : StructType} (hs : s ∈ k.catalog.structs) :
    (k.structFile? s).map OutputFile.code = (k.silent.structFile? s.silent).map OutputFile.code := by
  have decls := k.structDecls_silent (tame.struct s hs) (tame.part s hs)
  have location : s.silent.location = s.location := rfl
  have name : s.silent.name = s.name := rfl
  simp only [structFile?, Option.map_map, location, name, Function.comp_def, locatedPath_silent,
    locationPackage_silent, decls.file k]

theorem code_enums (tame : k.Tame) (es : List EnumType) (sub : es ⊆ k.catalog.enums) :
    Decl.code (es.flatMap enumDecls) = Decl.code ((es.map EnumType.silent).flatMap enumDecls) := by
  induction es with
  | nil => rfl
  | cons e es ih =>
    have first := enumDecls_silent (tame.enum e (sub mem_cons_self)) (tame.member e (sub mem_cons_self))
    have rest := ih fun e he => sub (mem_cons_of_mem _ he)
    rw [map_cons, flatMap_cons, flatMap_cons, Decl.code_append, Decl.code_append, first, rest]

/-- Remarks do not change the code of the types that share a file. -/
theorem code_sharedFile (tame : k.Tame) :
    k.sharedFile?.map OutputFile.code = k.silent.sharedFile?.map OutputFile.code := by
  have enums : k.silent.catalog.enums.filter (fun e => !e.isImplemented && e.location.isNone) =
      (k.catalog.enums.filter fun e => !e.isImplemented && e.location.isNone).map EnumType.silent := filter_map
  have structs : k.silent.catalog.structs.filter (fun s => !s.isImplemented && s.location.isNone) =
      (k.catalog.structs.filter fun s => !s.isImplemented && s.location.isNone).map StructType.silent :=
    filter_map
  have enumCode := code_enums tame (k.catalog.enums.filter fun e => !e.isImplemented && e.location.isNone)
    (fun _ he => mem_of_mem_filter he)
  have structCode := k.structsDecls_silent
    (k.catalog.structs.filter fun s => !s.isImplemented && s.location.isNone)
    (fun s hs => tame.struct s (mem_of_mem_filter hs)) (fun s hs => tame.part s (mem_of_mem_filter hs))
  simp only [sharedFile?, enums, structs, isEmpty_map, config_silent]
  generalize k.catalog.enums.filter (fun e => !e.isImplemented && e.location.isNone) = es at *
  generalize k.catalog.structs.filter (fun s => !s.isImplemented && s.location.isNone) = ss at *
  split
  · rfl
  · rw [Option.map_some, Option.map_some]
    congr 1
    apply SameCode.file
    constructor
    · simp only [Emit.needs_bind, structCode.needs]
      rfl
    · simp only [Emit.value_bind, Emit.value_pure, Decl.code_append]
      congr 1
      · split
        · rfl
        · rw [Decl.code_append, Decl.code_append, enumCode]
      · split
        · rfl
        · rw [Decl.code_append, Decl.code_append, structCode.code]

theorem code_files (tame : k.Tame) : k.files.map OutputFile.code = k.silent.files.map OutputFile.code := by
  have agents : k.silent.catalog.agents.filter (fun a => !a.isImplemented && a.name != agentBase) =
      (k.catalog.agents.filter fun a => !a.isImplemented && a.name != agentBase).map AgentType.silent :=
    filter_map
  have enums : k.silent.catalog.enums.filter (fun e => !e.isImplemented) =
      (k.catalog.enums.filter fun e => !e.isImplemented).map EnumType.silent := filter_map
  have structs : k.silent.catalog.structs.filter (fun s => !s.isImplemented) =
      (k.catalog.structs.filter fun s => !s.isImplemented).map StructType.silent := filter_map
  simp only [files, agents, enums, structs, map_append, map_map, map_filterMap,
    filterMap_map, Function.comp_def, ← Option.toList_map]
  refine congrArg₂ (· ++ ·) (congrArg₂ (· ++ ·) (congrArg₂ (· ++ ·) ?_ ?_) ?_) ?_
  · exact map_congr_left fun a ha => code_agentFile tame (mem_of_mem_filter ha)
  · rw [code_sharedFile tame]
  · exact filterMap_congr fun e he => code_enumFile tame (mem_of_mem_filter he)
  · exact filterMap_congr fun s hs => code_structFile tame (mem_of_mem_filter hs)

end Skeleton

/-! ### Tree files -/

namespace Generation

open Skeleton (SameCode)

variable (x : Context)

theorem behavior_silent {b : Behavior} (line : '\n' ∉ b.comment.toList) :
    SameCode ((of x).behavior b) ((of x.silent).behavior b.silent) where
  needs := (needs_behavior_silent x b).symm
  code := by
    obtain ⟨before, after, spoken, silent⟩ := value_behavior_silent x b
    rw [spoken, silent, Decl.code_append, Decl.code_append, Decl.code_append, Decl.code_commentOf line,
      List.append_nil]

theorem behaviors_silent : ∀ {bs : List Behavior}, (∀ b ∈ bs, '\n' ∉ b.comment.toList) →
    SameCode ((of x).behaviors bs) ((of x.silent).behaviors (bs.map Behavior.silent))
  | [], _ => .refl _
  | b :: bs, lines => by
      rw [forall_mem_cons] at lines
      exact (behavior_silent { x with agentType := b.agentType } lines.1).append (behaviors_silent lines.2)

theorem code_file (path : String) (bs : List Behavior) : ((of x).file path bs).code = (path, false,
    (headerLines path x.config.treesPackage (importLines x.config ((of x).behaviors bs).needs.imports)).flatMap
      uncommented ++ Decl.code ((of x).behaviors bs).value ++ [[]]) := by
  rw [OutputFile.code, file, uncommented_assemble]
  rfl

theorem code_file_silent (path : String) (bs : List Behavior) (lines : ∀ b ∈ bs, '\n' ∉ b.comment.toList) :
    ((of x).file path bs).code = ((of x.silent).file path (bs.map Behavior.silent)).code := by
  have same := behaviors_silent x lines
  rw [code_file, code_file, same.needs, same.code]
  rfl

theorem code_treeFiles {bs : List Behavior} (lines : ∀ b ∈ bs, '\n' ∉ b.comment.toList) :
    ((of x).treeFiles bs).map OutputFile.code =
      ((of x.silent).treeFiles (bs.map Behavior.silent)).map OutputFile.code := by
  have mode : (of x.silent).config.fileMode = (of x).config.fileMode := rfl
  rw [treeFiles, treeFiles, mode]
  split
  · exact congrArg (fun c => [c]) (code_file_silent x _ _ lines)
  · simp only [map_map]
    refine map_congr_left fun b hb => ?_
    exact code_file_silent x (behaviorPath x.config b) [b] (by simpa using lines b hb)

end Generation

/-! ### Documents -/

/-- Everything that is generated from the document. -/
def Document.files (d : Document) : List OutputFile :=
  (Generation.of { catalog := d.catalog, config := d.config }).allFiles d.behaviors

/-- No remark of the document breaks its line, and the rows that have one are tame. -/
structure Document.Tame (d : Document) : Prop where
  tree : ∀ b ∈ d.behaviors, '\n' ∉ b.comment.toList
  catalog : Skeleton.Tame { catalog := d.catalog, config := d.config }

/-- A document has the code of the same document without remarks. -/
theorem Document.code_files_silent {d : Document} (tame : d.Tame) :
    d.files.map OutputFile.code = d.silent.files.map OutputFile.code := by
  let x : Context := { catalog := d.catalog, config := d.config }
  have trees := Generation.code_treeFiles x tame.tree
  have types : (Generation.of x).typeFiles.map OutputFile.code =
      (Generation.of x.silent).typeFiles.map OutputFile.code := Skeleton.code_files tame.catalog
  rw [files, Generation.allFiles, map_append, trees, types, ← map_append]
  rfl

/-- Remarks do not change code: documents that are the same apart from their remarks give files of the same
paths in the same order, which are the same apart from their comments. -/
theorem Document.code_files_eq {d e : Document} (same : d.silent = e.silent) (hd : d.Tame) (he : e.Tame) :
    d.files.map OutputFile.code = e.files.map OutputFile.code := by
  rw [code_files_silent hd, code_files_silent he, same]

/-- A guard with a field, a method, an enum and a struct, and a tree; all of them have the same remark. -/
def gatekeeper (remark : String) : Document where
  config := { fileMode := .perBehavior }
  catalog := {
    agents := [{
      name := "game::Guard", description := remark
      properties := [{ name := "post", type := "int", description := remark },
        { name := "isAwake", type := "bool" }]
      methods := [{ name := "salute", description := remark }] }]
    enums := [{ name := "Mood", description := remark, members := [{ name := "Calm", display := remark }] }]
    structs := [{ name := "Gate", location := some "walls", description := remark
                  properties := [{ name := "width", type := "float", description := remark }] }] }
  behaviors := [{ name := "Patrol", path := "Patrol.xml", agentType := "game::Guard", comment := remark }]

theorem Document.code_files_eq_gatekeeper :
    let d := gatekeeper "\"<<< guards // the \\ 'gate'\r"
    let e := gatekeeper ""
    d.silent = e.silent ∧ d.Tame ∧ e.Tame ∧
      d.files.map OutputFile.code = e.files.map OutputFile.code := by
  intro d e
  have same : d.silent = e.silent := rfl
  have hd : d.Tame := by
    refine ⟨by decide +kernel, ⟨?_, ?_, ?_, ?_, ?_, ?_, ?_⟩⟩ <;> decide +kernel
  have he : e.Tame := by
    refine ⟨by decide +kernel, ⟨?_, ?_, ?_, ?_, ?_, ?_, ?_⟩⟩ <;> decide +kernel
  exact ⟨same, hd, he, code_files_eq same hd he⟩

/-- A remark that breaks its line leaves code behind: its second line is not commented. -/
theorem Document.remark_leaves_code :
    let tree (remark : String) : Document :=
      { config := {}, catalog := {}
        behaviors := [{ name := "Patrol", path := "Patrol.xml", agentType := agentBase, comment := remark }] }
    (tree "Guards.\nfunc init() \x7b\x7d").silent = (tree "").silent ∧
    (tree "Guards.\nfunc init() \x7b\x7d").files.map OutputFile.code ≠
    (tree "").files.map OutputFile.code := by
  intro tree
  refine ⟨rfl, fun same => ?_⟩
  have single (remark : String) : (tree remark).files.map OutputFile.code =
      [((Generation.of { catalog := {} }).file (Generation.singlePath {}) (tree remark).behaviors).code] := rfl
  have imports (remark : String) :
      ((Generation.of { catalog := {} }).behaviors (tree remark).behaviors).needs.imports =
      [.runtime "bt"] := rfl
  rw [single, single, Generation.code_file, Generation.code_file, imports, imports] at same
  have code := append_cancel_left (append_cancel_right (Prod.ext_iff.mp (Prod.ext_iff.mp
    (List.cons.inj same).1).2).2)
  revert code
  decide +kernel

end GoTrees
