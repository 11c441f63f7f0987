import GoTrees.Proofs.Entities
import GoTrees.Proofs.Replacements

/-!
# Vectors as slices

The replacements that make a Go spelling of a native one know nothing of type arguments. They have no angle
brackets, so none of them reaches from a vector into its element type or out of it: the element is
rewritten as if it stood alone. The mark of the slice that the vector becomes is passed over by renames,
and set aside where the types of the catalog get their qualifier.
-/

namespace GoTrees

open Text
open List hiding contains replace

/-! ### The mark of a slice -/

/-- Brackets in front of a type add no occurrence of a pattern without brackets. -/
theorem contains_slice {pat : String} (filled : pat ≠ "") (clear : '[' ∉ pat.toList ∧ ']' ∉ pat.toList)
    (s : String) : contains ("[]" ++ s) pat = contains s pat := by
  obtain ⟨c, cs, chars⟩ := exists_cons_of_ne_nil (l := pat.toList) (by simpa using filled)
  rw [chars, mem_cons, mem_cons, not_or, not_or] at clear
  have front : ("[]" ++ s).toList = '[' :: ']' :: s.toList := by simp
  rw [contains, contains, front, chars, containsChars, containsChars]
  simp [List.isPrefixOf, beq_false_of_ne (Ne.symm clear.1.1), beq_false_of_ne (Ne.symm clear.2.1)]

theorem replace_slice {pat : String} (filled : pat ≠ "") (clear : '[' ∉ pat.toList ∧ ']' ∉ pat.toList)
    (s new : String) : replace ("[]" ++ s) pat new = "[]" ++ replace s pat new := by
  have some : pat.toList.isEmpty = false := by simpa using filled
  have apart : ∀ c ∈ ['[', ']'], c ∉ pat.toList.head? := by
    simpa using ⟨mt mem_of_head? clear.1, mt mem_of_head? clear.2⟩
  have front : ("[]" ++ s).toList = ['[', ']'] ++ s.toList := by simp
  refine String.toList_inj.mp ?_
  rw [replace, String.toList_ofList, front, replaceChars, some, if_neg Bool.false_ne_true,
    replaceFrom_gap apart (by simpa using filled)]
  simp [replace, replaceChars, filled]

namespace GoType

/-- A rename that has nothing to do with the mark of a slice. -/
structure Apart (r : Rename) : Prop where
  filled : r.old ≠ ""
  old : '[' ∉ r.old.toList ∧ ']' ∉ r.old.toList
  new : '[' ∉ r.new.toList

/-- The rename that applies to a slice is the one that applies to its element. -/
theorem renamed_slice {renames : List Rename} (apart : ∀ r ∈ renames, Apart r) (s : String) :
    renamed renames ("[]" ++ s) = "[]" ++ renamed renames s := by
  have same : (renames.find? fun r => contains ("[]" ++ s) r.old) = renames.find? fun r => contains s r.old :=
    find?_congr fun r hr => contains_slice (apart r hr).filled (apart r hr).old s
  rw [renamed, renamed, same]
  split
  · next r found =>
    have mem := mem_of_find?_eq_some found
    exact replace_slice (apart r mem).filled (apart r mem).old s r.new
  · rfl

/-! ### Elements -/

theorem replace_brackets {pat : String} (filled : pat ≠ "") (clear : '<' ∉ pat.toList ∧ '>' ∉ pat.toList)
    (a b new : String) :
    replace (a ++ "<" ++ b ++ ">") pat new = replace a pat new ++ "<" ++ replace b pat new ++ ">" := by
  have some : pat.toList ≠ [] := by simpa using filled
  have chars : (a ++ "<" ++ b ++ ">").toList = a.toList ++ '<' :: (b.toList ++ '>' :: []) := by simp
  have cut : replaceFrom pat.toList new.toList 0 (a.toList ++ '<' :: (b.toList ++ '>' :: [])) =
      replaceFrom pat.toList new.toList 0 a.toList ++ '<' ::
      (replaceFrom pat.toList new.toList 0 b.toList ++ ['>']) := by
    rw [replaceFrom_append_cons clear.1 some, replaceFrom_append_cons clear.2 some, replaceFrom]
  refine String.toList_inj.mp ?_
  rw [replace, chars, String.toList_ofList, replaceChars, if_neg (by simpa using some), cut]
  simp [replace, replaceChars, filled]

theorem replaceAll_brackets : ∀ {table : List (String × String)},
    (∀ r ∈ table, r.1 ≠ "" ∧ ('<' ∉ r.1.toList ∧ '>' ∉ r.1.toList) ∧ Merge.Solid r.2) → ∀ {a b : String},
    Merge.Solid a → Merge.Solid b →
    replaceAll table (a ++ "<" ++ b ++ ">") = replaceAll table a ++ "<" ++ replaceAll table b ++ ">"
  | [], _, a, b, ha, hb => by
      have whole : Merge.Solid (a ++ "<" ++ b ++ ">") := ((ha.append (by decide)).append hb).append (by decide)
      exact (Merge.trim_eq_self whole).trans
        (by rw [replaceAll, replaceAll]; simp [Merge.trim_eq_self, ha, hb])
  | (pat, new) :: table, h, a, b, ha, hb => by
      obtain ⟨⟨filled, clear, solid⟩, rest⟩ := forall_mem_cons.mp h
      rw [replaceAll_cons, replaceAll_cons, replaceAll_cons, replace_brackets filled clear,
        replaceAll_brackets rest (ha.replace solid pat) (hb.replace solid pat)]

/-- What the replacements make of a spelling. -/
def common (native : String) : String := replaceAll goReplacements (replaceAll nativeReplacements native)

theorem common_brackets {a b : String} (ha : Merge.Solid a) (hb : Merge.Solid b) :
    common (a ++ "<" ++ b ++ ">") = common a ++ "<" ++ common b ++ ">" := by
  have tables : ∀ table ∈ [nativeReplacements, goReplacements], ∀ r ∈ table,
      r.1 ≠ "" ∧ ('<' ∉ r.1.toList ∧ '>' ∉ r.1.toList) ∧ Merge.Solid r.2 := by decide +kernel
  simp only [forall_mem_cons] at tables
  obtain ⟨native, go, -⟩ := tables
  have solid {s : String} (hs : Merge.Solid s) : Merge.Solid (replaceAll nativeReplacements s) :=
    allChars_replaceAll (fun r hr => (native r hr).2.2) hs
  rw [common, replaceAll_brackets native ha hb, replaceAll_brackets go (solid ha) (solid hb)]
  rfl

theorem allChars_common {P : Char → Prop} {native : String} (h : AllChars P native)
    (new : ∀ r ∈ nativeReplacements ++ goReplacements, AllChars P r.2) : AllChars P (common native) := by
  rw [forall_mem_append] at new
  exact allChars_replaceAll new.2 (allChars_replaceAll new.1 h)

/-- A text that starts like a vector is one; the closing brackets go. -/
theorem sliced_vector {lead : String} (h : lead ∈ vectorLeads) {s : String} (clear : '>' ∉ s.toList) :
    sliced (lead ++ s ++ ">") = "[]" ++ s := by
  have found : vectorLeads.findSome? (afterLead? (lead ++ s ++ ">")) = some (s ++ ">") := by
    have chars : (lead ++ s ++ ">").toList = lead.toList ++ (s ++ ">").toList := by simp
    simp only [vectorLeads, findSome?_cons, afterLead?, dropLead?, chars]
    simp only [vectorLeads, mem_cons, not_mem_nil, or_false] at h
    rcases h with rfl | rfl | rfl <;> simp [List.isPrefixOf]
  have kept : s.toList.filter (· != '>') = s.toList := by
    refine filter_eq_self.mpr fun c hc => ?_
    rw [bne_iff_ne]
    rintro rfl
    exact clear hc
  rw [sliced, found]
  refine String.toList_inj.mp ?_
  simp [replace, replaceChars, replaceFrom_single, kept]

theorem sliced_of_not_mem {s : String} (clear : '<' ∉ s.toList) : sliced s = s := by
  have bracket : ∀ lead ∈ vectorLeads, '<' ∈ lead.toList := by decide
  have none : vectorLeads.findSome? (afterLead? s) = none := by
    refine findSome?_eq_none_iff.mpr fun lead hl => ?_
    rw [afterLead?, dropLead?, if_neg, Option.map_none]
    exact fun leads => clear ((List.isPrefixOf_iff_prefix.mp leads).subset (bracket lead hl))
  rw [sliced, none]

def vectorNames : List String := ["vector", "std::vector", "behaviac::vector"]

theorem ofNative_of_not_mem {t : String} (clear : '<' ∉ t.toList) (renames : List Rename) :
    ofNative renames t = renamed renames (common t) := by
  have free : AllChars (· ≠ '<') (common t) :=
    allChars_common (fun c hc same => clear (same ▸ hc)) (by decide +kernel)
  have whole : sliced (common t) = common t := sliced_of_not_mem fun mem => free '<' mem rfl
  exact congrArg (renamed renames) whole

/-- The Go spelling of a vector is the mark of a slice and the Go spelling of its element. -/
theorem ofNative_vector {renames : List Rename} (apart : ∀ r ∈ renames, Apart r) {t : String}
    (solid : Merge.Solid t)
    (clear : '<' ∉ t.toList ∧ '>' ∉ t.toList) {name : String} (h : name ∈ vectorNames) :
    ofNative renames (name ++ "<" ++ t ++ ">") = "[]" ++ ofNative renames t := by
  have names : ∀ name ∈ vectorNames, Merge.Solid name ∧ common name ++ "<" ∈ vectorLeads := by decide +kernel
  have free : AllChars (· ≠ '>') (common t) :=
    allChars_common (fun c hc same => clear.2 (same ▸ hc)) (by decide +kernel)
  have vector : sliced (common (name ++ "<" ++ t ++ ">")) = "[]" ++ common t := by
    rw [common_brackets (names name h).1 solid]
    exact sliced_vector (names name h).2 fun mem => free '>' mem rfl
  rw [ofNative_of_not_mem clear.1, ← renamed_slice apart, ← vector]
  rfl

end GoType

namespace Context

theorem splitSlice_slice (s : String) : splitSlice ("[]" ++ s) = ("[]", s) := by
  have after : Text.afterLead? ("[]" ++ s) "[]" = some s := by simp [afterLead?, dropLead?]
  rw [splitSlice, after]

theorem splitSlice_of_not_mem {s : String} (h : '[' ∉ s.toList) : splitSlice s = ("", s) := by
  have after : Text.afterLead? s "[]" = none := by
    rw [afterLead?, dropLead?, if_neg, Option.map_none]
    exact fun leads => h ((List.isPrefixOf_iff_prefix.mp leads).subset mem_cons_self)
  rw [splitSlice, after]

/-- The Go type of a vector is the slice of the Go type of its elements: with the same rename, the same
qualifier and the same imports. -/
theorem goType_vector (x : Context) (apart : ∀ r ∈ x.config.renames, GoType.Apart r) {t : String}
    (plain : AllChars (fun c => isBlank c = false ∧ c ∉ ['<', '>', '[', ']']) t) {name : String}
    (h : name ∈ GoType.vectorNames) :
    x.goType (name ++ "<" ++ t ++ ">") = ("[]" ++ ·) <$> x.goType t := by
  have clear {c : Char} (hc : c ∈ ['<', '>', '[', ']']) : c ∉ t.toList := fun mem => (plain c mem).2 hc
  have vector := GoType.ofNative_vector apart (plain.mono fun _ hc => hc.1)
    ⟨clear (by decide), clear (by decide)⟩ h
  have unmarked : '[' ∉ (GoType.ofNative x.config.renames t).toList := by
    rw [GoType.ofNative_of_not_mem (clear (by decide))]
    have free : AllChars (· ≠ '[') (GoType.renamed x.config.renames (GoType.common t)) :=
      GoType.allChars_renamed (fun r hr c hc same => (apart r hr).new (same ▸ hc))
        (GoType.allChars_common (fun c hc same => clear (by decide) (same ▸ hc)) (by decide +kernel))
    exact fun mem => free '[' mem rfl
  have noted : Text.contains ("[]" ++ GoType.ofNative x.config.renames t) "bt." =
      Text.contains (GoType.ofNative x.config.renames t) "bt." := contains_slice (by decide) (by decide) _
  rw [goType, goType, vector, splitSlice_slice, splitSlice_of_not_mem unmarked, notePackages,
    notePackages, noted]
  dsimp only
  split <;> split <;> simp [String.append_assoc]

theorem goType_vector_squad :
    let x : Context := {
      catalog := { structs := [{ name := "Vec2" }], agents := [{ name := "Guard" }] },
      config := { renames := [{ old := "Actor", new := "Guard" }, { old := "r", new := "ignored" }] } }
    (∀ r ∈ x.config.renames, GoType.Apart r) ∧
    x.goType "std::vector<Actor*>" = ("[]" ++ ·) <$> x.goType "Actor*" ∧
    (x.goType "std::vector<Actor*>").value = "[]types.Guard" := by
  intro x
  have apart : ∀ r ∈ x.config.renames, GoType.Apart r := by
    simp only [x, forall_mem_cons]
    exact ⟨⟨by decide, by decide, by decide⟩, ⟨by decide, by decide, by decide⟩, by rintro _ ⟨⟩⟩
  have vector : x.goType ("std::vector" ++ "<" ++ "Actor*" ++ ">") = ("[]" ++ ·) <$> x.goType "Actor*" :=
    x.goType_vector apart (by decide) (by decide)
  exact ⟨apart, vector, by decide +kernel⟩

end Context

end GoTrees
