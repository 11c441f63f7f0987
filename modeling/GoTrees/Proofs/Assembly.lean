import GoTrees.Proofs.Emit
import GoTrees.Proofs.Rendering

/-!
# Files of several behaviors

The code of a behavior is emitted against its own agent type and never looks at what was emitted before, so the
declarations of several behaviors are those of each one after the other, and so are the imports they need.
A file is its header and the text of its declarations. Hence the file of several behaviors has the bodies
of the files of each, behind a header with all their imports in order and without repetitions.
-/

namespace GoTrees

open List

namespace Go

/-! ### Imports in order -/

/-- Comes before in the import block: by path, and by the whole line where the paths are the same. -/
def ImportBefore (a b : String) : Prop :=
  importPath a < importPath b ∨ importPath a = importPath b ∧ a < b

instance (a b : String) : Decidable (ImportBefore a b) := inferInstanceAs (Decidable (_ ∨ _ ∧ _))

theorem ImportBefore.asymm {a b : String} (ab : ImportBefore a b) : ¬ ImportBefore b a := by
  rcases ab with path | ⟨path, line⟩
  · rintro (back | ⟨back, -⟩)
    · exact lt_asymm path back
    · exact absurd back path.ne'
  · rintro (back | ⟨-, back⟩)
    · exact absurd path back.ne'
    · exact lt_asymm line back

theorem textLe_iff {a b : String} : textLe a b = true ↔ a ≤ b := by
  rw [textLe, Bool.not_eq_true', decide_eq_false_iff_not, not_lt]

theorem textLe_trans (a b c : String) (ab : textLe a b = true) (bc : textLe b c = true) :
    textLe a c = true :=
  textLe_iff.mpr (le_trans (textLe_iff.mp ab) (textLe_iff.mp bc))

theorem textLe_total (a b : String) : (textLe a b || textLe b a) = true := by
  simpa only [Bool.or_eq_true, textLe_iff] using le_total a b

/-- What is in order stays in order without repetitions, and is then strictly in order. -/
theorem pairwise_eraseDups {R : String → String → Prop} : ∀ l : List String, l.Pairwise R →
    l.eraseDups.Pairwise fun a b => R a b ∧ a ≠ b
  | [], _ => by simp
  | a :: l, h => by
      rw [pairwise_cons] at h
      have rest := pairwise_eraseDups (l.filter fun b => !b == a) (h.2.filter _)
      rw [eraseDups_cons, pairwise_cons]
      refine ⟨fun b hb => ?_, rest⟩
      rw [mem_eraseDups, mem_filter] at hb
      exact ⟨h.1 b hb.1, fun same => by simp [same] at hb⟩
  termination_by l => l.length
  decreasing_by exact Nat.lt_succ_of_le (length_filter_le _ _)

/-- Two different entries stand in one order or the other. -/
theorem sublist_or_swap {a b : String} (ne : a ≠ b) : ∀ {l : List String}, a ∈ l → b ∈ l →
    [a, b].Sublist l ∨ [b, a].Sublist l
  | c :: l, ha, hb => by
      rcases mem_cons.mp ha with rfl | ha'
      · have later : b ∈ l := (mem_cons.mp hb).resolve_left ne.symm
        exact Or.inl ((singleton_sublist.mpr later).cons_cons a)
      · rcases mem_cons.mp hb with rfl | hb'
        · exact Or.inr ((singleton_sublist.mpr ha').cons_cons b)
        · exact (sublist_or_swap ne ha' hb').imp (·.cons c) (·.cons c)

/-- Two different entries stand in one order only. -/
theorem not_sublist_swap {a b : String} : ∀ {l : List String}, l.Nodup → [a, b].Sublist l →
    ¬ [b, a].Sublist l
  | [], _, ab, _ => by cases ab
  | c :: l, nodup, ab, ba => by
      rw [nodup_cons] at nodup
      cases ab with
      | cons _ ab =>
        cases ba with
        | cons _ ba => exact not_sublist_swap nodup.2 ab ba
        | cons_cons _ ba => exact nodup.1 (ab.subset (by simp))
      | cons_cons _ ab =>
        have later : b ∈ l := singleton_sublist.mp ab
        cases ba with
        | cons _ ba => exact nodup.1 (ba.subset (by simp))
        | cons_cons _ ba => exact nodup.1 later

/-- The import lines are in order, so none is repeated. -/
theorem pairwise_sortedImports (lines : List String) : (sortedImports lines).Pairwise ImportBefore := by
  have byText : (lines.mergeSort textLe).eraseDups.Pairwise (· < ·) :=
    (pairwise_eraseDups _ (pairwise_mergeSort textLe_trans textLe_total lines)).imp
      fun h => lt_of_le_of_ne (textLe_iff.mp h.1) h.2
  have byPath := pairwise_mergeSort (fun a b c => textLe_trans (importPath a) (importPath b) (importPath c))
    (fun a b => textLe_total (importPath a) (importPath b)) (lines.mergeSort textLe).eraseDups
  have nodup : (sortedImports lines).Nodup :=
    (mergeSort_perm _ _).nodup_iff.mpr (byText.imp fun h => h.ne)
  refine pairwise_iff_forall_sublist.mpr fun {a b} ab => ?_
  rcases (textLe_iff.mp (pairwise_iff_forall_sublist.mp byPath ab)).lt_or_eq with less | same
  · exact Or.inl less
  · refine Or.inr ⟨same, ?_⟩
    -- The second sort is stable, so two lines of one path keep the order of the first.
    have mem {x : String} (hx : x ∈ [a, b]) : x ∈ (lines.mergeSort textLe).eraseDups :=
      (mergeSort_perm _ _).mem_iff.mp (ab.subset hx)
    have ne : a ≠ b := by simpa using nodup.sublist ab
    by_contra notLess
    have swapped : [b, a].Sublist (lines.mergeSort textLe).eraseDups :=
      (sublist_or_swap ne (mem (by simp)) (mem (by simp))).resolve_left fun inOrder =>
        notLess (pairwise_iff_forall_sublist.mp byText inOrder)
    have stable := pair_sublist_mergeSort
      (fun a b c => textLe_trans (importPath a) (importPath b) (importPath c))
      (fun a b => textLe_total (importPath a) (importPath b)) (textLe_iff.mpr same.ge) swapped
    exact not_sublist_swap nodup ab stable

theorem mem_sortedImports {lines : List String} {l : String} : l ∈ sortedImports lines ↔ l ∈ lines := by
  rw [sortedImports, mem_mergeSort, mem_eraseDups, mem_mergeSort]

theorem mem_importLines {c : Config} {imports : List Import} {l : String} :
    l ∈ importLines c imports ↔ ∃ i ∈ imports, i.text c = l := by
  rw [importLines, mem_sortedImports, mem_map]

theorem importLines_eq {c : Config} {imports : List Import} {lines : List String}
    (sorted : lines.Pairwise ImportBefore) (sub : imports.map (Import.text c) ⊆ lines)
    (sup : lines ⊆ imports.map (Import.text c)) : importLines c imports = lines := by
  have sorted' : (importLines c imports).Pairwise ImportBefore := pairwise_sortedImports _
  have distinct {ls : List String} (h : ls.Pairwise ImportBefore) : ls.Nodup :=
    h.imp fun {a b} ab (same : a = b) => ImportBefore.asymm ab (by subst same; exact ab)
  have perm : (importLines c imports).Perm lines := by
    refine (perm_ext_iff_of_nodup (distinct sorted') (distinct sorted)).mpr fun l => ?_
    rw [mem_importLines, ← mem_map]
    exact ⟨fun h => sub h, fun h => sup h⟩
  exact perm.eq_of_pairwise (fun a b _ _ ab ba => absurd ba (ImportBefore.asymm ab)) sorted' sorted

/-! ### Header and body -/

def headerText (path package : String) (imports : List String) : String :=
  (writeHeader path package imports {}).text

theorem textOf_eq (ds : List Decl) : Decl.textOf ds = Text.unlines (ds.flatMap (Decl.lines 0)) := by
  rw [Decl.textOf, Decl.writeAll_eq_add]
  exact String.empty_append

theorem textOf_append (as bs : List Decl) : Decl.textOf (as ++ bs) = Decl.textOf as ++ Decl.textOf bs := by
  rw [textOf_eq, textOf_eq, textOf_eq, flatMap_append, Text.unlines_append]

/-- A file is its header followed by the text of its declarations. -/
theorem contents_assemble_eq (path package : String) (imports : List String) (ds : List Decl) :
    (assemble path package imports ds).contents = headerText path package imports ++ Decl.textOf ds := by
  have header : headerText path package imports = Text.unlines (headerLines path package imports) := by
    rw [headerText, writeHeader_eq_add]
    exact String.empty_append
  rw [contents_assemble, Text.unlines_append, header, textOf_eq]

end Go

namespace Generation

open Go

/-- The import lines of the file of one behavior. -/
def importsOf (g : Generation) (b : Behavior) : List String :=
  importLines g.config (g.behaviors [b]).needs.imports

/-- What the file of one behavior holds behind its header. -/
def bodyOf (g : Generation) (b : Behavior) : String := Decl.textOf (g.behaviors [b]).value

/-- The code of behaviors is that of the first and then that of the others. -/
theorem behaviors_cons (g : Generation) (b : Behavior) (bs : List Behavior) :
    g.behaviors (b :: bs) = g.behaviors [b] ++ g.behaviors bs := by
  have single : g.behaviors [b] = { g with agentType := b.agentType }.behavior b := by
    rw [behaviors, behaviors]
    exact Emit.append_nil _
  rw [behaviors, single]
  rfl

/-- The code of several behaviors is the code of each, in order. -/
theorem textOf_behaviors (g : Generation) : ∀ bs : List Behavior,
    Decl.textOf (g.behaviors bs).value = String.join (bs.map g.bodyOf)
  | [] => rfl
  | b :: bs => by
      rw [behaviors_cons, Emit.value_append, textOf_append, textOf_behaviors g bs, map_cons, String.join_cons]
      rfl

/-- Several behaviors need what one of them needs. -/
theorem mem_imports_behaviors (g : Generation) (i : Import) : ∀ bs : List Behavior,
    i ∈ (g.behaviors bs).needs.imports ↔ ∃ b ∈ bs, i ∈ (g.behaviors [b]).needs.imports
  | [] => by simp [behaviors]
  | b :: bs => by
      have rest := mem_imports_behaviors g i bs
      rw [behaviors_cons, Emit.needs_append, Needs.imports_append, mem_append, rest,
        exists_mem_cons_iff]

/-- The file of some behaviors has the bodies of the files of each, in order, behind a header with the
imports of all these files, in order and without repetitions. So the code of a behavior is the same
whatever stands before it or beside it in the file. -/
theorem file_concat (x : Context) (path : String) (bs : List Behavior) :
    (∀ b, (file { toContext := x } path [b]).contents =
      headerText path x.config.treesPackage (importsOf { toContext := x } b) ++ bodyOf { toContext := x } b) ∧
    ∃ imports : List String, imports.Pairwise ImportBefore ∧
      (∀ l, l ∈ imports ↔ ∃ b ∈ bs, l ∈ importsOf { toContext := x } b) ∧
      (file { toContext := x } path bs).contents =
        headerText path x.config.treesPackage imports ++ String.join (bs.map (bodyOf { toContext := x })) := by
  refine ⟨fun b => contents_assemble_eq _ _ _ _,
    importLines x.config (behaviors { toContext := x } bs).needs.imports, pairwise_sortedImports _, ?_, ?_⟩
  · intro l
    simp only [importsOf, mem_importLines, mem_imports_behaviors _ _ bs]
    tauto
  · rw [← textOf_behaviors]
    exact contents_assemble_eq _ _ _ _

end Generation

end GoTrees
