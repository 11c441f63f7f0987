import GoTrees.Go.Name
import GoTrees.Tree.Basic
import Mathlib

/-!
# Names of nodes and attachments

The variable of a node is `node` and the id, that of an attachment is `attach` and the id. A number is
written in one way only and by characters that nothing in front of it has, so the id can be read back from
the name, and also from the end of a longer name. Pascal case keeps the end of a name.
-/

namespace GoTrees

open List

variable {c s : Char} {a b : List Char}

/-- A character of a written number. -/
def isNumeral (c : Char) : Bool := c.isDigit || c == '-'

theorem toString_int_injective {a b : Int} (h : toString a = toString b) : a = b :=
  Int.repr_injective h

theorem isDigit_of_mem_toString {n : Nat} (h : c ∈ (toString n).toList) :
    c.isDigit = true := by
  have h : c ∈ n.repr.toList := h
  rw [Nat.toList_repr] at h
  exact Nat.isDigit_of_mem_toDigits (by decide) (by decide) h

theorem isNumeral_of_mem_toString {a : Int} (h : c ∈ (toString a).toList) :
    isNumeral c = true := by
  cases a with
  | ofNat n => simp [isNumeral, isDigit_of_mem_toString (n := n) h]
  | negSucc n =>
    have h : c ∈ ("-" ++ (n + 1).repr).toList := h
    rw [String.toList_append, mem_append] at h
    rcases h with h | h
    · simp [isNumeral, show c = '-' by simpa using h]
    · simp [isNumeral, isDigit_of_mem_toString (n := n + 1) h]

theorem span_number (hc : isNumeral c = false) (front : List Char) (i : Int) :
    (front ++ c :: (toString i).toList).reverse.span isNumeral =
      ((toString i).toList.reverse, c :: front.reverse) := by
  have digits : ∀ x ∈ (toString i).toList.reverse, isNumeral x = true := fun x hx =>
    isNumeral_of_mem_toString (mem_reverse.mp hx)
  rw [span_eq_takeWhile_dropWhile, reverse_append, reverse_cons, List.append_assoc,
    takeWhile_append_of_pos digits, dropWhile_append_of_pos digits]
  simp [hc]

/-- A number at the end of a text can be read back, and so can the character in front of it. -/
theorem append_number_inj {d : Char} {i j : Int} (hc : isNumeral c = false)
    (hd : isNumeral d = false)
    (h : a ++ c :: (toString i).toList = b ++ d :: (toString j).toList) : c = d ∧ i = j := by
  have spans := congrArg (·.reverse.span isNumeral) h
  simp only [span_number hc, span_number hd, Prod.mk.injEq, List.cons.injEq,
    reverse_inj] at spans
  exact ⟨spans.2.1, toString_int_injective (String.toList_inj.mp spans.1)⟩

/-- What stands in front of the first separator of a text can be read back, and so can what follows it. -/
theorem append_first_inj {as bs : List Char} (ha : s ∉ a) (hb : s ∉ b)
    (h : a ++ s :: as = b ++ s :: bs) : a = b ∧ as = bs := by
  rcases append_eq_append_iff.mp h with ⟨u, rfl, hu⟩ | ⟨u, rfl, hu⟩
  · cases u with
    | nil => simpa using hu
    | cons c u => exact absurd (by simp [(List.cons.inj hu).1]) hb
  · cases u with
    | nil => simpa [eq_comm] using hu
    | cons c u => exact absurd (by simp [(List.cons.inj hu).1]) ha

/-- What follows the last separator of a text can be read back, and so can what stands in front of it. -/
theorem append_last_inj {as bs : List Char} (ha : s ∉ as) (hb : s ∉ bs)
    (h : a ++ s :: as = b ++ s :: bs) : a = b ∧ as = bs := by
  have turned : as.reverse ++ s :: a.reverse = bs.reverse ++ s :: b.reverse := by
    simpa using congrArg List.reverse h
  have parts := append_first_inj (by simpa using ha) (by simpa using hb) turned
  exact ⟨reverse_inj.mp parts.2, reverse_inj.mp parts.1⟩

namespace Node

theorem toList_name (n : Node) :
    n.name.toList = 'n' :: 'o' :: 'd' :: 'e' :: (toString n.id).toList := by
  rw [name, String.toList_append]; rfl

theorem name_inj {n m : Node} : n.name = m.name ↔ n.id = m.id := by
  refine ⟨fun h => ?_, fun h => by rw [name, name, h]⟩
  have hl : n.name.toList = m.name.toList := by rw [h]
  rw [toList_name, toList_name] at hl
  exact toString_int_injective (String.toList_inj.mp (by simpa using hl))

theorem name_ne_of_head {s : String} (n : Node) (h : s.toList.head? ≠ some 'n') : s ≠ n.name := by
  rintro rfl
  rw [toList_name] at h
  exact h rfl

end Node

namespace Attachment

theorem toList_name (a : Attachment) :
    a.name.toList = 'a' :: 't' :: 't' :: 'a' :: 'c' :: 'h' :: (toString a.id).toList := by
  rw [name, String.toList_append]; rfl

theorem name_ne_of_head {s : String} (a : Attachment) (h : s.toList.head? ≠ some 'a') :
    s ≠ a.name := by
  rintro rfl
  rw [toList_name] at h
  exact h rfl

end Attachment

/-! ### Pascal case -/

namespace Text

theorem splitChars_ne_nil (p : Char → Bool) : ∀ cs, splitChars p cs ≠ []
  | [] => by simp [splitChars]
  | c :: cs => by
      rw [splitChars]
      split
      · simp
      · split <;> simp

theorem splitChars_append {p : Char → Bool} (hs : p s = true) (bs : List Char) :
    ∀ as, splitChars p (as ++ s :: bs) = splitChars p as ++ splitChars p bs
  | [] => by simp [splitChars, hs]
  | a :: as => by
      rw [cons_append, splitChars, splitChars, splitChars_append hs bs as]
      by_cases ha : p a = true
      · simp [ha]
      · obtain ⟨part, parts, h⟩ := exists_cons_of_ne_nil (splitChars_ne_nil p as)
        simp [ha, h]

theorem splitChars_eq_singleton {p : Char → Bool} : ∀ cs, (∀ c ∈ cs, p c = false) →
    splitChars p cs = [cs]
  | [], _ => rfl
  | c :: cs, h => by
      rw [splitChars, splitChars_eq_singleton cs fun d hd => h d (mem_cons_of_mem _ hd)]
      simp [h c mem_cons_self]

end Text

namespace Go

theorem toList_pascalCase_append (s t : String) : (pascalCase (s ++ "_" ++ t)).toList =
    (pascalCase s).toList ++ (pascalCase t).toList := by
  have parts : (s ++ "_" ++ t).toList = s.toList ++ '_' :: t.toList := by simp
  simp only [pascalCase, String.toList_ofList, parts]
  rw [Text.splitChars_append (by rfl), flatMap_append]

theorem toList_pascalCase_name (a : Attachment) : (pascalCase a.name).toList =
    'A' :: 't' :: 't' :: 'a' :: 'c' :: 'h' :: (toString a.id).toList := by
  have plain : ∀ c ∈ a.name.toList, (c == '_') = false := by
    intro c hc
    rw [Attachment.toList_name] at hc
    simp only [mem_cons] at hc
    rcases hc with rfl | rfl | rfl | rfl | rfl | rfl | hc
    iterate 6 decide
    exact beq_false_of_ne fun h => absurd (isNumeral_of_mem_toString (h ▸ hc)) (by decide)
  have upper : Text.upperChar 'a' = ['A'] := by decide
  rw [pascalCase, String.toList_ofList, Text.splitChars_eq_singleton _ plain, Attachment.toList_name]
  simp [Text.upperFirst, upper]

end Go

end GoTrees
