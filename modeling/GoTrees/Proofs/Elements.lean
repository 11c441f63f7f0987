import GoTrees.Proofs.FieldTypes
import GoTrees.Proofs.Occurrences

/-!
# Element types

The element type of a vector is cut out of its spelling between the first angle bracket and the last one.
The grammar reads the same characters as the argument: the words before the argument have no bracket, and
only marks and blanks come after it. So the element is read alone as it was read in its place.
-/

namespace GoTrees.Spelling

open Text List
open Literal (isSpace_of_isBlank)

variable {text : List Char} {s arg : Spelling}

/-- A spelling with one argument is the argument in brackets, between a part with no bracket and marks and
spaces. -/
theorem parse?_single {native rest : String} (h : parse? native = some (s, rest)) (single : s.args = [arg]) :
    ∃ front inner back, native.toList = front ++ '<' :: (inner ++ '>' :: (back ++ rest.toList)) ∧
      '<' ∉ front ∧ (∀ c ∈ back, isSpace c = true ∨ isMark c = true) ∧ Holds inner arg := by
  rw [parse?, Option.map_eq_some_iff] at h
  obtain ⟨⟨_, after⟩, read, eq⟩ := h
  obtain ⟨rfl, rfl⟩ := Prod.mk.inj eq
  obtain ⟨-, parts⟩ := parts_of_parseChars read
  generalize native.toList = cs at parts ⊢
  cases parts with
  | @plain lead w used m gap ms words =>
    obtain ⟨isConst, sign, eq, -⟩ := ofParts_eq (w :: words) [] ms
    simp [eq] at single
  | @template lead w used space text m gap ms words args before path row between inside marked behind =>
    obtain ⟨isConst, sign, eq, -⟩ := ofParts_eq (w :: words) args ms
    rw [eq] at single
    obtain rfl : args = [arg] := single
    obtain ⟨-, inner, rfl, encloses⟩ := parseArgs_local _ _ _ _ inside
    refine ⟨lead ++ (w ++ used ++ space), inner, m ++ gap, by simp, ?_, ?_, encloses.single arg rfl⟩
    · have free {l : List Char} (spaces : ∀ c ∈ l, isSpace c = true) : '<' ∉ l :=
        fun mem => absurd (spaces _ mem) (by decide)
      simp only [mem_append, not_or]
      exact ⟨free before, by simpa using (row.spells path).clear, free between⟩
    · exact forall_mem_append.mpr ⟨marked.loose, fun c hc => .inl (behind c hc)⟩

theorem Holds.trimmed (h : Holds text s) :
    parse? (.ofList (trimBy isBlank text)) = some (s, "") := by
  have blank {l : List Char} (spaces : ∀ c ∈ l, isSpace c = true) : ∀ c ∈ l, isBlank c = true := by
    intro c hc
    by_contra shown
    exact absurd (spaces c hc) (by simp [isSpace_of_isBlank (Bool.of_not_eq_true shown)])
  obtain ⟨lead, core, gap, rfl, spaces, spaces', framed, read⟩ := h
  have alone := read (core.length + 1) [] (by omega) (by rintro _ ⟨⟩)
  rw [List.append_nil] at alone
  rw [trimBy_around framed.head framed.last (blank spaces) (blank spaces'), parse?, String.length_ofList,
    String.toList_ofList, alone]
  rfl

end GoTrees.Spelling

namespace GoTrees.Catalog

open Text List

theorem classifyPlain_ne_array (c : Catalog) (name : String) (sign : Option Sign) (pointer : Nat)
    (e : ValueType) : c.classifyPlain name sign pointer ≠ .array e := by
  unfold classifyPlain builtin? classifyName
  split <;> grind

/-- A spelling with an argument denotes an array if its name is that of the vectors, and no array otherwise. -/
theorem classifySpelling_single (c : Catalog) {s arg : Spelling} (single : s.args = [arg]) :
    (basicName s.name = "vector" → c.classifySpelling s = .array (c.classifySpelling arg)) ∧
      ∀ e, c.classifySpelling s = .array e → c.classifySpelling arg = e := by
  obtain ⟨isConst, sign, name, args, pointer, reference⟩ := s
  obtain rfl : args = [arg] := single
  rw [classifySpelling]
  by_cases vector : basicName name = "vector"
  · simp [vector]
  · simp [vector, classifyPlain_ne_array]

/-- The text between the brackets of a spelling with one argument is that argument: the expressions take
the same text for the element, it is read alone as it was read inside, and it denotes the elements of the
array. -/
theorem classify_element (c : Catalog) {native rest : String} {s arg : Spelling}
    (read : Spelling.parse? native = some (s, rest)) (blank : isBlankText rest = true)
    (single : s.args = [arg]) :
    ∃ element, GoType.vectorElement? native = some element ∧ GoType.elementOrSelf native = element ∧
      Spelling.parse? element = some (arg, "") ∧
      (basicName s.name = "vector" → c.classify native = .array (c.classify element)) ∧
      ∀ e, c.classify native = .array e → c.classify element = e := by
  obtain ⟨front, inner, back, chars, clear, loose, holds⟩ := Spelling.parse?_single read single
  have alone := holds.trimmed
  -- Only marks and blanks come after the bracket that closes the argument.
  have none : splitLastChars ['>'] (back ++ rest.toList) = none := by
    refine splitLastChars_eq_none (containsChars_of_not_mem mem_cons_self ?_)
    rw [mem_append]
    rintro (mem | mem)
    · rcases loose _ mem with space | mark
      · exact absurd space (by decide)
      · exact absurd mark (by decide)
    · exact absurd (all_eq_true.mp blank _ mem) (by decide)
  have last : splitLastChars ['>'] ('>' :: (back ++ rest.toList)) = some ([], back ++ rest.toList) := by
    rw [splitLastChars, none]
    rfl
  have element : GoType.vectorElement? native = some (.ofList (trimBy isBlank inner)) := by
    rw [GoType.vectorElement?, chars, splitFirstChar_append clear]
    simp only [splitLastChars_append last inner, List.append_nil, Option.map_some]
  have outer : c.classify native = c.classifySpelling s := by
    rw [classify, read]
    exact if_pos blank
  have inside : c.classify (.ofList (trimBy isBlank inner)) = c.classifySpelling arg := by
    rw [classify, alone]
    exact if_pos rfl
  refine ⟨_, element, by rw [GoType.elementOrSelf, element, Option.getD_some], alone, ?_⟩
  rw [outer, inside]
  exact c.classifySpelling_single single

theorem classify_element_nested :
    GoType.elementOrSelf " const std::vector < vector<Vec2> * >& \n" = "vector<Vec2> *" ∧
    ∀ c : Catalog, c.classify " const std::vector < vector<Vec2> * >& \n" =
      .array (c.classify "vector<Vec2> *") := by
  have read : Spelling.parse? " const std::vector < vector<Vec2> * >& \n" =
      some (⟨true, none, "std::vector",
        [⟨false, none, "vector", [⟨false, none, "Vec2", [], 0, false⟩], 1, false⟩], 0, true⟩, "\n") := by
    cbv
  have found : GoType.vectorElement? " const std::vector < vector<Vec2> * >& \n" = some "vector<Vec2> *" := by
    decide +kernel
  refine ⟨by rw [GoType.elementOrSelf, found, Option.getD_some], fun c => ?_⟩
  obtain ⟨element, cut, -, -, array, -⟩ := c.classify_element read (by decide) rfl
  obtain rfl := Option.some.inj (found.symm.trans cut)
  exact array (by decide +kernel)

end GoTrees.Catalog
