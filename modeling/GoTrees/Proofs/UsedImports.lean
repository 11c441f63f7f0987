import GoTrees.Proofs.Imports
import GoTrees.Proofs.UsedRuntime

/-!
# No unused import

The imports of a file are listed between the package clause and the code, and each of them has a name there:

    "behaviac/bt"                         bt       the last folder of its path
    types "behaviac_generated/types"      types    its alias

A tree file lists the runtime of the trees, which the method that builds a tree cites in its first line,
the packages that items are made from, and the generated types if a class needs them. A type file lists the
runtime if the Go type of something that it declares mentions it.
-/

namespace GoTrees

open Go Text List

variable {i : Import} {lines : List String} {path : String}

/-! ### Import blocks -/

namespace Go

/-- The lines between the parentheses of the imports, which stand right below the package clause. -/
def importBlock (text : String) : List String :=
  let below := ((split text '\n').dropWhile fun l => (afterLead? l "package ").isNone).drop 1
  if below.take 2 = ["", "import ("] then (below.drop 2).takeWhile (· ≠ ")") else []

/-- The name that a listed package has in the file: its alias, or else the last folder of its path. -/
def importName (line : String) : String :=
  match splitFirstChar '"' line.toList with
  | none => ""
  | some (front, path) =>
    let folder := ((splitLastChars ['/'] path).map Prod.snd).getD path
    let name := trimBy isBlank front
    .ofList (if name.isEmpty then folder.takeWhile (· ≠ '"') else name)

theorem importName_text (c : Config) (plain : AllChars IsRowChar i.qualifier) :
    importName ("\t" ++ i.text c) = i.qualifier := by
  cases i with
  | types =>
    have found : splitFirstChar '"' ("\t" ++ Import.types.text c).toList =
        some ("\ttypes ".toList, c.typesImport.toList ++ ['"']) := by
      simp [Import.text, typesAlias, splitFirstChar]
    rw [importName, found]
    exact congrArg String.ofList (if_neg (by decide))
  | runtime package =>
    have found : splitFirstChar '"' ("\t" ++ (Import.runtime package).text c).toList =
        some (['\t'], c.runtimeModule.toList ++ '/' :: (package.toList ++ ['"'])) := by
      simp [Import.text, Config.runtimeImport, splitFirstChar]
    have row : ∀ d ∈ package.toList, d ≠ '"' ∧ d ≠ '/' := fun d mem => ⟨(plain d mem).1.1, (plain d mem).1.2.2⟩
    have slash : '/' ∉ package.toList ++ ['"'] := by
      rw [mem_append, not_or]
      exact ⟨fun mem => (row _ mem).2 rfl, by decide⟩
    have last : splitLastChars ['/'] ('/' :: (package.toList ++ ['"'])) =
        some ([], package.toList ++ ['"']) := by
      rw [splitLastChars, splitLastChars_eq_none (containsChars_of_not_mem mem_cons_self slash)]
      rfl
    have name : (package.toList ++ ['"']).takeWhile (· ≠ '"') = package.toList := by
      rw [takeWhile_append_of_pos fun d mem => decide_eq_true (row d mem).1,
        takeWhile_cons_of_neg (by decide), List.append_nil]
    rw [importName, found]
    simp only [splitLastChars_append last, Option.map_some, Option.getD_some]
    rw [if_pos (by decide), name, String.ofList_toList]
    rfl

theorem split_unlines (t : String) : ∀ {ls : List String}, (∀ l ∈ ls, '\n' ∉ l.toList) →
    split (unlines ls ++ t) '\n' = ls ++ split t '\n'
  | [], _ => by rw [unlines_nil, String.empty_append, List.nil_append]
  | l :: ls, h => by
      rw [forall_mem_cons] at h
      have chars : (unlines (l :: ls) ++ t).toList = l.toList ++ '\n' :: (unlines ls ++ t).toList := by simp
      have first : splitChars (· == '\n') l.toList = [l.toList] :=
        splitChars_eq_singleton _ fun c hc => by
          rw [beq_eq_false_iff_ne]
          rintro rfl
          exact h.1 hc
      rw [split, chars, splitChars_append (by decide), first, map_append, ← split, split_unlines t h.2]
      simp

/-- The code below the header does not go on with a block of imports. -/
def Opens (ds : List Decl) : Prop := (split (Decl.textOf ds) '\n').take 2 ≠ ["", "import ("]

theorem opens_nil : Opens [] := (by decide : (split "" '\n').take 2 ≠ ["", "import ("])

theorem split_cons {t : String} {c : Char} (head : t.toList.head? = some c) (unbroken : c ≠ '\n') :
    ∃ part parts, split t '\n' = .ofList (c :: part) :: parts := by
  obtain ⟨cs, chars⟩ := head?_eq_some_iff.mp head
  obtain ⟨part, parts, rest⟩ := exists_cons_of_ne_nil (splitChars_ne_nil (· == '\n') cs)
  refine ⟨part, parts.map .ofList, ?_⟩
  rw [split, chars, splitChars, rest]
  simp [unbroken]

/-- The declaration starts with a comment or a type. -/
def Decl.Starts (d : Decl) : Prop := ∃ l ∈ (d.lines 0).head?, ∃ c ∈ ['/', 't'], l.toList.head? = some c

theorem Decl.Starts.opens {d : Decl} (h : d.Starts) (ds : List Decl) : Opens (.blank :: d :: ds) := by
  obtain ⟨l, mem, c, known, head⟩ := h
  obtain ⟨ls, lines⟩ := head?_eq_some_iff.mp mem
  have other : ∀ c ∈ ['/', 't'], c ≠ '\n' ∧ c ≠ 'i' := by simp
  have text : Decl.textOf (.blank :: d :: ds) = unlines [""] ++
      unlines (l :: (ls ++ ds.flatMap (Decl.lines 0))) := by
    rw [textOf_eq, ← unlines_append, flatMap_cons, flatMap_cons, lines]
    rfl
  have start : (unlines (l :: (ls ++ ds.flatMap (Decl.lines 0)))).toList.head? = some c := by
    rw [toList_unlines_cons, head?_append, head, Option.some_or]
  obtain ⟨part, parts, first⟩ := split_cons start (other c known).1
  rw [Opens, text, split_unlines _ (by decide), first]
  intro same
  have chars : String.ofList (c :: part) = "import (" := by simpa using same
  have letter := congrArg (fun s => s.toList.head?) chars
  exact (other c known).2 (by simpa using letter)

/-- The lines above the package clause. -/
def bannerLines (path : String) : List String :=
  [rule, warning, .comment ("Export file: " ++ path), rule, .blank].flatMap (Decl.lines 0)

theorem bannerLines_eq (path : String) :
    ∃ line notice, '\n' ∉ line.toList ∧ '\n' ∉ notice.toList ∧
      bannerLines path = ["// " ++ line, "// " ++ notice, "// " ++ ("Export file: " ++ path),
        "// " ++ line, ""] := by
  refine ⟨"---------------------------------------------------------------------",
    "THIS FILE IS AUTO-GENERATED, SO PLEASE DON'T MODIFY IT BY YOURSELF!", by decide, by decide, ?_⟩
  simp only [bannerLines, rule, warning, flatMap_cons, flatMap_nil, Decl.lines, indented_margin]
  rfl

theorem headerLines_eq (path package : String) (shown : ∀ l ∈ lines, l ≠ "") :
    headerLines path package lines = bannerLines path ++ ("package " ++ package) ::
      (if lines.isEmpty then [] else "" :: "import (" :: (lines.map ("\t" ++ ·) ++ [")"])) := by
  have rows : lines.map (Sheet.indented 1) = lines.map ("\t" ++ ·) :=
    map_congr_left fun l mem => indented_of_ne (shown l mem) 1
  rw [headerLines, indented_margin, indented_margin, indented_margin, rows, List.append_assoc]
  rfl

theorem feed_notMem_append {s t : String} (hs : '\n' ∉ s.toList) (ht : '\n' ∉ t.toList) :
    '\n' ∉ (s ++ t).toList := by
  rw [String.toList_append, mem_append, not_or]
  exact ⟨hs, ht⟩

theorem feed_notMem_headerLines {package : String} (hpath : '\n' ∉ path.toList)
    (hpackage : '\n' ∉ package.toList) (hlines : ∀ l ∈ lines, l ≠ "" ∧ '\n' ∉ l.toList) :
    ∀ l ∈ headerLines path package lines, '\n' ∉ l.toList := by
  obtain ⟨line, notice, hline, hnotice, banner⟩ := bannerLines_eq path
  have comment {s : String} (h : '\n' ∉ s.toList) : '\n' ∉ ("// " ++ s).toList :=
    feed_notMem_append (by decide) h
  have block : ∀ l ∈ (if lines.isEmpty then [] else "" :: "import (" :: (lines.map ("\t" ++ ·) ++ [")"])),
      '\n' ∉ l.toList := by
    split
    · rintro _ ⟨⟩
    · rw [forall_mem_cons, forall_mem_cons, forall_mem_append, forall_mem_map,
        forall_mem_singleton]
      exact ⟨by decide, by decide, fun l mem => feed_notMem_append (by decide) (hlines l mem).2, by decide⟩
  rw [headerLines_eq path package fun l mem => (hlines l mem).1, banner, forall_mem_append]
  refine ⟨?_, forall_mem_cons.mpr ⟨feed_notMem_append (by decide) hpackage, block⟩⟩
  simp only [forall_mem_cons, not_mem_nil, false_imp_iff, implies_true, and_true]
  exact ⟨comment hline, comment hnotice, comment (feed_notMem_append (by decide) hpath),
    comment hline, by decide⟩

/-- The block of imports is found again in the file. -/
theorem importBlock_assemble {package : String} {ds : List Decl}
    (hpath : '\n' ∉ path.toList) (hpackage : '\n' ∉ package.toList)
    (hlines : ∀ l ∈ lines, l ≠ "" ∧ '\n' ∉ l.toList) (opens : lines = [] → Opens ds) :
    importBlock (assemble path package lines ds).contents = lines.map ("\t" ++ ·) := by
  obtain ⟨line, notice, -, -, banner⟩ := bannerLines_eq path
  have skipped : ∀ l ∈ bannerLines path, (afterLead? l "package ").isNone = true := by
    have comment (s : String) : (afterLead? ("// " ++ s) "package ").isNone = true := by
      simp [afterLead?, dropLead?]
    rw [banner]
    simp only [forall_mem_cons, not_mem_nil, false_imp_iff, implies_true, and_true]
    exact ⟨comment _, comment _, comment _, comment _, by decide⟩
  have clause : (afterLead? ("package " ++ package) "package ").isNone = false := by
    simp [afterLead?, dropLead?]
  have pieces : split (assemble path package lines ds).contents '\n' =
      headerLines path package lines ++ split (Decl.textOf ds) '\n' := by
    rw [contents_assemble, unlines_append, ← textOf_eq,
      split_unlines _ (feed_notMem_headerLines hpath hpackage hlines)]
  rw [importBlock, pieces, headerLines_eq path package fun l mem => (hlines l mem).1, List.append_assoc,
    dropWhile_append_of_pos skipped, cons_append, dropWhile_cons_of_neg (by simp [clause]),
    drop_succ_cons, drop_zero]
  cases lines with
  | nil => exact if_neg (opens rfl)
  | cons l ls =>
    have entries : ∀ e ∈ (l :: ls).map ("\t" ++ ·), decide (e ≠ ")") = true := by
      refine forall_mem_map.mpr fun e _ => decide_eq_true fun same => ?_
      have chars := congrArg (fun s => s.toList.head?) same
      simp at chars
    rw [isEmpty_cons, if_neg Bool.false_ne_true, cons_append, cons_append, if_pos (by simp),
      drop_succ_cons, drop_succ_cons, drop_zero, List.append_assoc,
      takeWhile_append_of_pos entries, singleton_append, takeWhile_cons_of_neg (by decide),
      List.append_nil]

end Go

/-! ### Trees -/

namespace Go

/-- The import has a qualifier that can be written, and the statements cite it. -/
def Stmt.Uses (ss : List Stmt) (i : Import) : Prop :=
  AllChars IsRowChar i.qualifier ∧ Stmt.AnyCites i.qualifier ss

theorem Stmt.Uses.mono {ss ts : List Stmt} (sub : Stmt.allInner ss ⊆ Stmt.allInner ts)
    (h : Stmt.Uses ss i) : Stmt.Uses ts i := by
  obtain ⟨plain, s, mem, cites⟩ := h
  exact ⟨plain, s, sub mem, cites⟩

theorem Stmt.uses_step {s : Step} (plain : AllChars IsRowChar i.qualifier) (legible : s.Legible)
    (h : s.Cites i.qualifier) : Stmt.Uses [.step s] i :=
  ⟨plain, s, mem_cons_self, h.text legible⟩

end Go

/-- Emitted statements use all that they need, the runtime of the trees apart. -/
def Emit.PaidBody (e : Emit (List Stmt)) : Prop :=
  ∀ i ∈ e.needs.imports, i = .runtime "bt" ∨ Stmt.Uses e.value i

namespace Generation

variable {x : Context} {g : Generation}

theorem legible_numbered {front : String} (hf : AllChars IsPlain front) (id : Int) :
    Go.Legible (front ++ toString id) :=
  legible_plain (hf.append fun c hc => (bare_toString id c hc).1)

/-- An item without a class is made from its runtime type, whose package is then cited. -/
theorem paid_createItem {i : Item} (hi : i.Spelled x) (className : Option String) :
    (createItem { toContext := x } i className).PaidBody := by
  have plain := hi.runtime
  have new : (Expr.call (.member i.runtimeType.1 ("New" ++ i.runtimeType.2)) []).Legible :=
    ⟨⟨legible_plain (plain.1.mono fun _ h => h.1),
      legible_plain (AllChars.append (by decide) (plain.2.mono fun _ h => h.1))⟩, trivial⟩
  have cites : (Expr.call (.member i.runtimeType.1 ("New" ++ i.runtimeType.2)) []).Cites i.runtimeType.1 :=
    .inl rfl
  cases i with
  | node n =>
    rw [createItem, Registry.builtin_create]
    cases className with
    | some c =>
      rintro j (_ | ⟨_, ⟨⟩⟩)
      exact .inl rfl
    | none =>
      rintro j (_ | ⟨_, _ | ⟨_, ⟨⟩⟩⟩)
      · refine .inr (Stmt.uses_step plain.1 ⟨legible_numbered (by decide) n.id, ?_⟩ (.inr (.inr (.inl cites))))
        exact ⟨⟨legible_plain (by decide), legible_plain (by decide)⟩, legible_int n.id, new, trivial⟩
      · exact .inl rfl
  | attachment a =>
    rw [createItem, Registry.builtin_createAttachment]
    cases className with
    | some c => rintro j ⟨⟩
    | none =>
      rintro j (_ | ⟨_, ⟨⟩⟩)
      exact .inr (Stmt.uses_step plain.1 ⟨legible_numbered (by decide) a.id, new⟩ cites)

mutual

theorem paid_emit : ∀ {p : Piece}, (∀ c ∈ p.creations, (g.createItem c.1 c.2).PaidBody) → (p.emit g).PaidBody
  | .code _, _ => by rintro _ ⟨⟩
  | .create i className, h => h (i, className) mem_cons_self
  | .block body, h => by
      intro i mem
      rw [Piece.emit, Emit.needs_bind, Needs.imports_append, mem_append] at mem
      refine (paid_emitAll h i (mem.resolve_right (by rintro ⟨⟩))).imp_right (Stmt.Uses.mono ?_)
      exact fun _ held => mem_append_left _ held

/-- A plan uses what it needs, if each of its items does. -/
theorem paid_emitAll : ∀ {ps : List Piece}, (∀ c ∈ Piece.allCreations ps, (g.createItem c.1 c.2).PaidBody) →
    (Piece.emitAll g ps).PaidBody
  | [], _ => by rintro _ ⟨⟩
  | p :: ps, h => by
      rw [Piece.allCreations, forall_mem_append] at h
      intro i mem
      rw [Piece.emitAll, Emit.needs_append, Needs.imports_append, mem_append] at mem
      have inner : Stmt.allInner (Piece.emitAll g (p :: ps)).value =
          Stmt.allInner (p.emit g).value ++ Stmt.allInner (Piece.emitAll g ps).value :=
          Stmt.allInner_append _ _
      rcases mem with mem | mem
      · exact (paid_emit h.1 i mem).imp_right (Stmt.Uses.mono (inner ▸ subset_append_left _ _))
      · exact (paid_emitAll h.2 i mem).imp_right (Stmt.Uses.mono (inner ▸ subset_append_right _ _))

end

end Generation

/-- What the items of a behavior say is spelled. -/
structure Behavior.Spelled (x : Context) (b : Behavior) : Prop where
  agentType : AllChars IsPlain b.agentType
  items : ∀ i ∈ b.visited, i.Spelled { x with agentType := b.agentType }

namespace Generation

variable {x : Context} {b : Behavior}

theorem paid_declareEach {g : Generation} : ∀ {cs : List (Item × String)}, (∀ c ∈ cs, (g.declareItem c).Paid) →
    (g.declareEach cs).Paid
  | [], _ => .pure []
  | c :: cs, h => by
      rw [forall_mem_cons] at h
      exact h.1.append (paid_declareEach h.2)

/-- The method that builds a tree cites the runtime in its first line. -/
theorem uses_runtime (g : Generation) (b : Behavior) : Stmt.Uses (g.treeBody b).value (.runtime "bt") := by
  obtain ⟨rest, first⟩ : ∃ rest, g.plan b =
      .code (.step (.define "tree" (.call (.member "bt" "NewTree") [.string b.name]))) :: rest := ⟨_, rfl⟩
  have legible : (Step.define "tree" (.call (.member "bt" "NewTree") [.string b.name])).Legible :=
    ⟨legible_plain (by decide), ⟨legible_plain (by decide), legible_plain (by decide)⟩, trivial, trivial⟩
  have line := Stmt.uses_step (i := .runtime "bt") (by decide) legible (.inl rfl)
  rw [treeBody_eq, first, Piece.emitAll, Piece.emit, Emit.value_append, Emit.value_pure]
  exact line.mono fun _ mem => by
    rw [Stmt.allInner_append]
    exact mem_append_left _ mem

/-- The code of a behavior cites all that it needs. -/
theorem uses_behavior (hx : x.Spelled) (hb : ∀ i ∈ b.visited, i.Spelled x) :
    (behavior { toContext := x } b).Uses := by
  have visited := hb
  rw [Behavior.visited, forall_mem_append] at visited
  have declared (is : List Item) (h : ∀ i ∈ is, i.Spelled x) :
      (declareEach { toContext := x } (classed { toContext := x } b.className is)).Paid := by
    refine paid_declareEach fun c mem => ?_
    obtain ⟨i, hi, made⟩ := mem_filterMap.mp mem
    obtain ⟨className, -, rfl⟩ := Option.map_eq_some_iff.mp made
    exact paid_declareItem hx (h i hi) className
  have classes := (declared _ visited.1).append (declared _ visited.2)
  have body : (treeBody { toContext := x } b).PaidBody := by
    rw [treeBody_eq]
    refine paid_emitAll ?_
    rw [allCreations_plan]
    exact forall_mem_map.mpr fun i hi => paid_createItem (hb i hi) _
  rw [← declareAttachments_eq, ← declareSubtrees_eq] at classes
  have method {i : Import} (h : Stmt.Uses (treeBody { toContext := x } b).value i) :
      Decl.Uses (behavior { toContext := x } b).value i := by
    rw [behavior_eq]
    exact ⟨h.1, _, mem_append_right _ mem_cons_self, Decl.cites_func h.2⟩
  have runtime := method (uses_runtime { toContext := x } b)
  intro i mem
  rw [behavior_eq] at mem
  simp only [Emit.needs_bind, Emit.needs_pure, Needs.imports_append, mem_append] at mem
  rcases mem with mem | mem | mem | ⟨⟨⟩⟩
  · cases mem_singleton.mp mem
    exact runtime
  · refine (classes i mem).elim (· ▸ runtime) fun used => ?_
    rw [behavior_eq]
    exact used.mono fun _ held => mem_append_left _ (mem_append_right _ held)
  · exact (body i mem).elim (· ▸ runtime) method

theorem uses_behaviors (hr : x.config.renames = [])
    (hs : ∀ s ∈ x.catalog.structs, ∀ p ∈ s.properties, AllChars IsPlain p.type) :
    ∀ {bs : List Behavior}, (∀ b ∈ bs, b.Spelled x) → (behaviors { toContext := x } bs).Uses
  | [], _ => .pure []
  | b :: bs, h => by
      rw [forall_mem_cons] at h
      have first := uses_behavior (x := { x with agentType := b.agentType }) ⟨hr, h.1.agentType, hs⟩ h.1.items
      exact first.append (uses_behaviors hr hs h.2)

end Generation

/-! ### Files -/

namespace Go

/-- No text in the header of a file breaks its line. -/
structure Headed (c : Config) (path package : String) : Prop where
  runtime : '\n' ∉ c.runtimeModule.toList
  types : '\n' ∉ c.typesImport.toList
  path : '\n' ∉ path.toList
  package : '\n' ∉ package.toList

def UsesListed (text : String) : Prop := ∀ l ∈ importBlock text, Refers (importName l) text

section Files

variable {c : Config} {path package : String} {e : Emit (List Decl)}

theorem importText_line (h : Headed c path package) (plain : AllChars IsRowChar i.qualifier) :
    i.text c ≠ "" ∧ '\n' ∉ (i.text c).toList := by
  cases i with
  | types =>
    refine ⟨fun empty => ?_, feed_notMem_append (feed_notMem_append (by decide) h.types) (by decide)⟩
    simpa [Import.text, typesAlias] using congrArg String.toList empty
  | runtime package =>
    refine ⟨fun empty => ?_, feed_notMem_append (feed_notMem_append (by decide) ?_) (by decide)⟩
    · simpa [Import.text] using congrArg String.toList empty
    · exact feed_notMem_append (feed_notMem_append h.runtime (by decide)) (feed_notMem_row plain)

theorem importBlock_file (h : Headed c path package)
    (plain : ∀ i ∈ e.needs.imports, AllChars IsRowChar i.qualifier)
    (opens : e.needs.imports = [] → Opens e.value) :
    importBlock (assemble path package (importLines c e.needs.imports) e.value).contents =
      (importLines c e.needs.imports).map ("\t" ++ ·) := by
  refine importBlock_assemble h.path h.package (fun l mem => ?_) fun none => opens ?_
  · obtain ⟨i, needed, rfl⟩ := mem_importLines.mp mem
    exact importText_line h (plain i needed)
  · refine eq_nil_iff_forall_not_mem.mpr fun i mem => ?_
    have listed : i.text c ∈ importLines c e.needs.imports := mem_importLines.mpr ⟨i, mem, rfl⟩
    rw [none] at listed
    cases listed

theorem mem_importBlock_file (h : Headed c path package) {is : List Import} (needs : e.needs.imports = is)
    (plain : ∀ j ∈ is, AllChars IsRowChar j.qualifier) (mem : i ∈ is) :
    "\t" ++ i.text c ∈ importBlock (assemble path package
      (importLines c e.needs.imports) e.value).contents := by
  subst needs
  rw [importBlock_file h plain fun none => absurd (none ▸ mem) not_mem_nil]
  exact mem_map_of_mem (mem_importLines.mpr ⟨i, mem, rfl⟩)

theorem usesListed_file (h : Headed c path package) (uses : e.Uses)
    (opens : e.needs.imports = [] → Opens e.value) :
    UsesListed (assemble path package (importLines c e.needs.imports) e.value).contents := by
  intro l mem
  rw [importBlock_file h (fun i mem => (uses i mem).1) opens] at mem
  obtain ⟨_, listed, rfl⟩ := mem_map.mp mem
  obtain ⟨i, needed, rfl⟩ := mem_importLines.mp listed
  obtain ⟨plain, cites⟩ := uses i needed
  rw [importName_text c plain]
  exact refers_assemble (plain.mono fun _ row => row.1) cites

theorem IsWord.rowChars {q : String} (h : IsWord q) : AllChars IsRowChar q := by
  refine h.mono fun d hd => ⟨isPlain_of_not_isGap (isBare_of_isIdentifierChar hd).2, ?_⟩
  rintro rfl
  exact absurd hd (by decide)

theorem exists_listed_unused (hc : c.Written) (h : Headed c path package) (hp : IsWord package)
    {is : List Import} (needs : e.needs.imports = is) (words : ∀ j ∈ is, IsWord j.qualifier) (mem : i ∈ is)
    (code : ∀ l ∈ e.value.flatMap (Decl.lines 0), '\n' ∉ l.toList ∧ l.toList.getLast? ≠ some '\'' ∧
      ∀ name ∈ dottedNames l.toList, '.' ∈ name → lead name ≠ i.qualifier.toList) :
    ∃ l ∈ importBlock (assemble path package (importLines c e.needs.imports) e.value).contents,
      ¬ Refers (importName l) (assemble path package (importLines c e.needs.imports) e.value).contents := by
  subst needs
  have allows : Allows (· ≠ i.qualifier.toList)
      (scan .code (assemble path package (importLines c e.needs.imports) e.value).contents.toList) := by
    rw [contents_assemble]
    refine allows_unlines (forall_mem_append.mpr ⟨lineAllows_header h.path hp fun l mem => ?_, ?_⟩)
    · obtain ⟨j, needed, rfl⟩ := mem_importLines.mp mem
      refine clean_importText hc fun p same => ?_
      subst same
      exact words _ needed
    · exact fun l mem => lineAllows_raw (code l mem).1 (code l mem).2.1 (code l mem).2.2
  refine ⟨_, mem_importBlock_file h rfl (fun j needed => (words j needed).rowChars) mem, fun refers => ?_⟩
  rw [importName_text c (words i mem).rowChars] at refers
  obtain ⟨name, held, dot, same⟩ := mem_qualifiers.mp (refers.mem_qualifiers (words i mem))
  exact allows name held dot (String.toList_ofList.symm.trans (congrArg String.toList same))

end Files

end Go

theorem Generation.mem_treeFiles {x : Context} {bs : List Behavior} {f : OutputFile}
    (mem : f ∈ (Generation.of x).treeFiles bs) :
    ∃ path cs, cs ⊆ bs ∧ f = file { toContext := x } path cs := by
  rw [treeFiles] at mem
  split at mem
  · exact ⟨_, bs, List.Subset.refl bs, mem_singleton.mp mem⟩
  · obtain ⟨b, held, rfl⟩ := mem_map.mp mem
    exact ⟨_, [b], cons_subset.mpr ⟨held, nil_subset bs⟩, rfl⟩

theorem Generation.usesListed_file {x : Context} {bs : List Behavior}
    (h : Headed x.config path x.config.treesPackage) (uses : (behaviors { toContext := x } bs).Uses) :
    UsesListed (file { toContext := x } path bs).contents := by
  refine Go.usesListed_file h uses fun none => ?_
  cases bs with
  | nil => exact opens_nil
  | cons b bs =>
    have runtime := bt_mem_imports { toContext := x } b bs
    rw [none] at runtime
    cases runtime

/-- What the types say that get a declaration is declared. -/
structure Skeleton.Declared (k : Skeleton) : Prop where
  agents : ∀ a ∈ k.catalog.agents, a.isImplemented = false → a.Declared k
  structs : ∀ s ∈ k.catalog.structs, s.isImplemented = false → s.Declared k

namespace Skeleton

variable {k : Skeleton}

theorem starts_comment (text : String) : (Decl.comment text).Starts :=
  ⟨_, rfl, '/', by decide, by simp [indented_margin]⟩

theorem starts_record (name : String) (base : Option String) (rows : List Row) :
    (Decl.record name base rows).Starts :=
  ⟨_, rfl, 't', by decide, by simp [indented_margin, structHeader]⟩

theorem starts_defined (name underlying : String) : (Decl.defined name underlying).Starts :=
  ⟨_, rfl, 't', by decide, by simp [indented_margin]⟩

theorem opens_commented (text : String) {d : Decl} (h : d.Starts) (ds : List Decl) :
    Opens ([.blank] ++ commentOf text ++ d :: ds) := by
  rw [commentOf]
  split
  · exact h.opens ds
  · exact (starts_comment text).opens (d :: ds)

theorem opens_agentDecls (a : AgentType) : Opens (k.agentDecls a).value := by
  have first := opens_commented a.description (starts_record (basicName a.name) none
    (k.fieldRows (a.properties.filter fun p => isOwn p && !p.isStatic)).value)
  simpa [agentDecls] using first _

theorem opens_enumDecls (e : EnumType) (ds : List Decl) : Opens (enumDecls e ++ ds) := by
  have first := opens_commented e.description (starts_defined (basicName e.name) "int")
  simpa [enumDecls] using first _

theorem opens_structDecls (s : StructType) : Opens (k.structDecls s).value := by
  rw [structDecls]
  split
  · exact opens_commented s.description (starts_record _ _ _) []
  · exact opens_commented s.description (starts_record _ _ _) []

theorem opens_banner (title : String) (ds : List Decl) : Opens (banner title ++ ds) :=
  (starts_comment _).opens _

/-- The packages of type files. -/
def packages (k : Skeleton) : List String :=
  k.config.typesPackage :: (k.catalog.agents.map fun a => (k.agentPlace a).2) ++
    ((k.catalog.enums.filterMap EnumType.location) ++ (k.catalog.structs.filterMap StructType.location)).map
      k.locationPackage

/-- The file has one of the packages, and code that uses what it needs. -/
def Uses (k : Skeleton) (f : OutputFile) : Prop :=
  ∃ package ∈ k.packages, ∃ code : Emit (List Decl),
    f.contents = (k.file f.path package code).contents ∧ code.Uses ∧ Opens code.value

theorem uses_agentFile (hr : k.config.renames = []) {a : AgentType} (mem : a ∈ k.catalog.agents)
    (h : a.Declared k) : k.Uses (k.agentFile a) := by
  refine ⟨(k.agentPlace a).2, ?_, k.agentDecls a, rfl, uses_agentDecls hr h, opens_agentDecls a⟩
  exact mem_append_left _ (mem_cons_of_mem _ (mem_map_of_mem mem))

theorem location_mem_packages {location : String}
    (mem : location ∈ k.catalog.enums.filterMap EnumType.location ++
      k.catalog.structs.filterMap StructType.location) : k.locationPackage location ∈ k.packages :=
  mem_append_right _ (mem_map_of_mem mem)

theorem uses_enumFile {e : EnumType} (mem : e ∈ k.catalog.enums) : ∀ f ∈ k.enumFile? e, k.Uses f := by
  intro f made
  obtain ⟨location, place, rfl⟩ := Option.map_eq_some_iff.mp made
  have listed := mem_append_left (k.catalog.structs.filterMap StructType.location)
    (mem_filterMap.mpr ⟨e, mem, place⟩)
  refine ⟨_, location_mem_packages listed, pure (enumDecls e), rfl, .pure _, ?_⟩
  simpa using opens_enumDecls e []

theorem uses_structFile {s : StructType} (mem : s ∈ k.catalog.structs) (h : s.Declared k) :
    ∀ f ∈ k.structFile? s, k.Uses f := by
  intro f made
  obtain ⟨location, place, rfl⟩ := Option.map_eq_some_iff.mp made
  have listed := mem_append_right (k.catalog.enums.filterMap EnumType.location)
    (mem_filterMap.mpr ⟨s, mem, place⟩)
  exact ⟨_, location_mem_packages listed, k.structDecls s, rfl, uses_structDecls h, opens_structDecls s⟩

/-- The file of the shared types cites all that it imports. -/
theorem uses_sharedFile (h : ∀ s ∈ k.catalog.structs, s.isImplemented = false → s.Declared k) :
    ∀ f ∈ k.sharedFile?, k.Uses f := by
  have own : ∀ s ∈ k.catalog.structs.filter fun s => !s.isImplemented && s.location.isNone, s.Declared k := by
    intro s mem
    rw [mem_filter, Bool.and_eq_true, Bool.not_eq_true'] at mem
    exact h s mem.1 mem.2.1
  intro f made
  rw [sharedFile?] at made
  split at made
  · cases made
  · next filled =>
    obtain rfl := Option.some.inj made
    refine ⟨k.config.typesPackage, mem_cons_self, _, rfl, ?_, ?_⟩
    · intro i mem
      rw [Emit.needs_bind, Needs.imports_append, mem_append] at mem
      have used := uses_structsDecls own i (mem.resolve_right (by rintro ⟨⟩))
      rw [Emit.value_bind, Emit.value_pure]
      refine used.mono fun d held => mem_append_right _ ?_
      split
      · next none =>
        rw [List.isEmpty_iff.mp none] at held
        cases held
      · exact mem_append_right _ held
    · rw [Emit.value_bind, Emit.value_pure]
      split
      · next none =>
        rw [none, Bool.true_and, Bool.not_eq_true] at filled
        rw [filled]
        exact opens_banner _ _
      · exact opens_banner _ _

/-- Every type file cites all that it imports. -/
theorem uses_files (hr : k.config.renames = []) (h : k.Declared) : ∀ f ∈ k.files, k.Uses f := by
  simp only [files, forall_mem_append, forall_mem_map, mem_filterMap, mem_filter,
    Option.mem_toList, Bool.and_eq_true, Bool.not_eq_true']
  refine ⟨⟨⟨?_, uses_sharedFile h.structs⟩, ?_⟩, ?_⟩
  · rintro a ⟨mem, own, -⟩
    exact uses_agentFile hr mem (h.agents a mem own)
  · rintro f ⟨e, ⟨mem, -⟩, made⟩
    exact uses_enumFile mem f made
  · rintro f ⟨s, ⟨mem, own⟩, made⟩
    exact uses_structFile mem (h.structs s mem own) f made

end Skeleton

/-! ### Documents -/

/-- What the trees and the types of the document say is spelled, and no text in the header of a file breaks its
line. -/
structure Document.Spelled (d : Document) : Prop where
  behaviors : ∀ b ∈ d.behaviors, b.Spelled { catalog := d.catalog, config := d.config }
  fields : ∀ s ∈ d.catalog.structs, ∀ p ∈ s.properties, AllChars IsPlain p.type
  types : Skeleton.Declared { catalog := d.catalog, config := d.config }
  headers : ∀ f ∈ d.files, ∀ package ∈ d.config.treesPackage ::
    Skeleton.packages { catalog := d.catalog, config := d.config }, Headed d.config f.path package

/-- No import is unused: a package that a file lists stands in front of a dot in its code, outside of
strings and comments and with no part of a name before it. -/
theorem Document.no_unused_import {d : Document} (renames : d.config.renames = []) (spelled : d.Spelled) :
    ∀ f ∈ d.files, ∀ l ∈ importBlock f.contents, Refers (importName l) f.contents := by
  intro f mem
  obtain ⟨tree, type⟩ := forall_mem_cons.mp (spelled.headers f mem)
  rcases mem_append.mp mem with mem | mem
  · obtain ⟨path, bs, sub, rfl⟩ := Generation.mem_treeFiles mem
    exact Generation.usesListed_file tree
      (Generation.uses_behaviors renames spelled.fields fun b held => spelled.behaviors b (sub held))
  · obtain ⟨package, held, code, contents, uses, opens⟩ := Skeleton.uses_files renames spelled.types f mem
    rw [contents]
    exact usesListed_file (type package held) uses fun _ => opens

/-- A method with a status as its result and a struct as its parameter. -/
def march : Method where
  name := "march"
  className := "Guard"
  result := "EBTStatus"
  params := [{ name := "target", type := "Vector" }]

/-- A guard that marches, and has a status. -/
def marcher : AgentType where
  name := "Guard"
  properties := [{ name := "mood", type := "EBTStatus" }]
  methods := [march]

/-- A tree that does not say where a guard marches to. -/
def outpost : Document where
  config := {}
  catalog := {
    agents := [marcher]
    structs := [{ name := "Vector", properties := [{ name := "x", type := "float" }] }] }
  behaviors := [{
    name := "Patrol", path := "Patrol.xml", agentType := "Guard"
    children := [.mk { id := 1, kind := .action { method := some (march, []) } } []] }]

theorem Document.spelled_outpost : outpost.Spelled := by
  let k : Skeleton := { catalog := outpost.catalog, config := outpost.config }
  have status : k.Clear "EBTStatus" := fun _ =>
    (by decide +kernel : "bt" ++ "." ++ "Status" = (k.goType "EBTStatus").value) ▸ cites_self "bt" "Status"
  have other {native : String} (h : contains (k.goType native).value "bt." = false) : k.Clear native :=
    fun mentions => absurd (h.symm.trans mentions) Bool.false_ne_true
  have lines : '\n' ∉ outpost.config.runtimeModule.toList ∧ '\n' ∉ outpost.config.typesImport.toList ∧
      (∀ f ∈ outpost.files, '\n' ∉ f.path.toList) ∧
      ∀ package ∈ outpost.config.treesPackage :: k.packages, '\n' ∉ package.toList := by
    decide +kernel
  refine ⟨forall_mem_singleton.mpr ⟨by decide, forall_mem_singleton.mpr ⟨?_, ?_, ?_⟩⟩, by decide, ⟨?_, ?_⟩,
    fun f mem package held => ⟨lines.1, lines.2.1, lines.2.2.1 f mem, lines.2.2.2 package held⟩⟩
  · intro o mem inner part
    obtain rfl := mem_singleton.mp mem
    cases part with
    | arg mem _ => cases mem
    | self =>
      refine ⟨⟨by decide, by decide, by decide, by rintro _ ⟨⟩⟩, fun p mem => ?_⟩
      obtain ⟨rfl, -⟩ := Prod.ext_iff.mp (mem_singleton.mp mem)
      exact ⟨by decide, fun _ => by decide +kernel⟩
  · rintro _ ⟨⟩
  · rintro _ ⟨⟩
  · refine forall_mem_singleton.mpr fun _ => ⟨by decide +kernel, ?_, ?_⟩
    · exact forall_mem_singleton.mpr fun _ => ⟨by decide +kernel, status⟩
    · refine forall_mem_singleton.mpr fun _ => ⟨by decide, ?_, status, fun _ => by decide +kernel⟩
      exact forall_mem_singleton.mpr ⟨by decide, by decide, other (by decide +kernel)⟩
  · refine forall_mem_singleton.mpr fun _ => ⟨?_, by rintro _ ⟨⟩⟩
    exact forall_mem_singleton.mpr fun _ => ⟨by decide +kernel, other (by decide +kernel)⟩

theorem Document.no_unused_import_outpost :
    outpost.config.renames = [] ∧ outpost.Spelled ∧
    (∃ f ∈ outpost.files, "\ttypes \"behaviac_generated/types\"" ∈ importBlock f.contents ∧
      Refers "types" f.contents) ∧
    ∃ f ∈ outpost.files, f.mergeable = true ∧ "\t\"behaviac/bt\"" ∈ importBlock f.contents ∧
      Refers "bt" f.contents := by
  let k : Skeleton := { catalog := outpost.catalog, config := outpost.config }
  let x : Context := { catalog := outpost.catalog, config := outpost.config }
  have headed := spelled_outpost.headers
  have used := no_unused_import rfl spelled_outpost
  have trees : ∃ f ∈ outpost.files, "\ttypes \"behaviac_generated/types\"" ∈ importBlock f.contents := by
    have needs : (Generation.behaviors { toContext := x } outpost.behaviors).needs.imports =
        [.runtime "bt", .runtime "performers", .runtime "bt", .types, .types, .runtime "bt"] := by
      decide +kernel
    refine ⟨_, mem_cons_self, mem_importBlock_file (i := .types) ?_ needs (by decide) (by decide)⟩
    exact headed _ mem_cons_self _ mem_cons_self
  have guards : ∃ f ∈ outpost.files, f.mergeable = true ∧ "\t\"behaviac/bt\"" ∈ importBlock f.contents := by
    have needs : (k.agentDecls marcher).needs.imports =
        [.runtime "bt", .runtime "bt", .runtime "bt"] := by
      decide +kernel
    refine ⟨_, mem_cons_of_mem _ mem_cons_self, rfl,
      mem_importBlock_file (i := .runtime "bt") ?_ needs (by decide) (by decide)⟩
    exact headed _ (mem_cons_of_mem _ mem_cons_self) _ (mem_cons_of_mem _ mem_cons_self)
  have typesName : importName "\ttypes \"behaviac_generated/types\"" = "types" := by decide +kernel
  have runtimeName : importName "\t\"behaviac/bt\"" = "bt" := by decide +kernel
  obtain ⟨f, hf, types⟩ := trees
  obtain ⟨g, hg, merged, runtime⟩ := guards
  have refersTypes := used f hf _ types
  have refersRuntime := used g hg _ runtime
  rw [typesName] at refersTypes
  rw [runtimeName] at refersRuntime
  exact ⟨rfl, spelled_outpost, ⟨f, hf, types, refersTypes⟩, g, hg, merged, runtime, refersRuntime⟩

/-- A method with an agent as its parameter. -/
def follow : Method where
  name := "follow"
  className := "game::Guard"
  params := [{ name := "whom", type := "Player" }]

/-- A guard that follows, and has a field whose type only ends with the name of the runtime. -/
def pursuer : AgentType where
  name := "game::Guard"
  properties := [{ name := "kind", type := "subt::Kind" }]
  methods := [follow]

/-- A tree that does not say whom a guard follows. -/
def pursuit : Document where
  config := {}
  catalog := { agents := [pursuer, { name := "Player" }] }
  behaviors := [{
    name := "Pursuit", path := "Pursuit.xml", agentType := "game::Guard"
    children := [.mk { id := 1, kind := .action { method := some (follow, []) } } []] }]

/-- An agent that is left out as an argument is written without its type, which is imported all the same.
The end of another name is taken for the runtime. -/
theorem Document.imports_not_used :
    pursuit.config.renames = [] ∧
    (∃ f ∈ pursuit.files, f.mergeable = false ∧
      ∃ l ∈ importBlock f.contents, ¬ Refers (importName l) f.contents) ∧
    ∃ f ∈ pursuit.files, f.mergeable = true ∧
      ∃ l ∈ importBlock f.contents, ¬ Refers (importName l) f.contents := by
  let k : Skeleton := { catalog := pursuit.catalog, config := pursuit.config }
  let x : Context := { catalog := pursuit.catalog, config := pursuit.config }
  have written : pursuit.config.Written := ⟨rfl, by decide, by decide, by decide⟩
  refine ⟨rfl, ⟨_, mem_cons_self, rfl, ?_⟩, _, mem_cons_of_mem _ mem_cons_self, rfl, ?_⟩
  · have needs : (Generation.behaviors { toContext := x } pursuit.behaviors).needs.imports =
        [.runtime "bt", .runtime "performers", .runtime "bt", .types, .runtime "bt"] := by
      decide +kernel
    exact exists_listed_unused (i := .types) written ⟨by decide, by decide, by decide, by decide⟩
      (by decide) needs
      (by decide) (by decide) (by decide +kernel)
  · have needs : (k.agentDecls pursuer).needs.imports = [.runtime "bt"] := by decide +kernel
    exact exists_listed_unused (i := .runtime "bt") written
      ⟨by decide, by decide, by decide, by decide⟩ (by decide)
      needs (by decide) (by decide) (by decide +kernel)

end GoTrees
