import GoTrees.Text.Blank
import GoTrees.Text.Search
import Mathlib

/-!
# Texts without their ends

Trimming takes off what the predicate holds of, and no more, so a text is its trimmed form between two
parts that consist of such characters, and one that has none at its ends is trimmed to itself. In the same
way a run of characters at the front of a text ends at the first that does not belong to it.
-/

namespace GoTrees.Text

open List

variable {p : Char → Bool} {c : Char} {cs rest front : List Char}

/-! ### Runs at the front -/

theorem head_dropWhile (h : c ∈ (cs.dropWhile p).head?) : p c = false := by
  have := head?_dropWhile_not p cs
  rw [Option.mem_def.mp h] at this
  simpa using this

/-- What stands behind a value is not dropped along with the end of the value. -/
theorem dropWhile_append_stop (h : ∀ c ∈ rest.head?, p c = false) (cs : List Char) :
    (cs ++ rest).dropWhile p = cs.dropWhile p ++ rest := by
  have kept : rest.dropWhile p = rest := by
    cases rest with
    | nil => rfl
    | cons c rest => exact dropWhile_cons_of_neg (by simp [h c rfl])
  rw [dropWhile_append]
  split
  · next none => rw [List.isEmpty_iff.mp none, kept, List.nil_append]
  · rfl

theorem takeWhile_append_stop (all : ∀ c ∈ cs, p c = true) (h : ∀ c ∈ rest.head?, p c = false) :
    (cs ++ rest).takeWhile p = cs := by
  rw [takeWhile_append_of_pos all]
  cases rest with
  | nil => simp
  | cons c rest => rw [takeWhile_cons_of_neg (by simp [h c rfl]), List.append_nil]

/-! ### Ends -/

theorem trimEndBy_leads (p : Char → Bool) (cs : List Char) : trimEndBy p cs <+: cs := by
  have tail := reverse_prefix.mpr (dropWhile_suffix (l := cs.reverse) p)
  rwa [reverse_reverse] at tail

/-- What is trimmed off the end satisfies the predicate. -/
theorem trimEndBy_split (p : Char → Bool) (cs : List Char) :
    ∃ tail, cs = trimEndBy p cs ++ tail ∧ ∀ c ∈ tail, p c = true := by
  refine ⟨(cs.reverse.takeWhile p).reverse, ?_, fun c hc => ?_⟩
  · rw [trimEndBy, ← reverse_append, takeWhile_append_dropWhile, reverse_reverse]
  · exact mem_takeWhile_imp (mem_reverse.mp hc)

/-- Trimming does not go back behind a character that stays. -/
theorem trimEndBy_append (h : ∀ c ∈ front.getLast?, p c = false) (cs : List Char) :
    trimEndBy p (front ++ cs) = front ++ trimEndBy p cs := by
  have stays : ∀ c ∈ front.reverse.head?, p c = false := by rwa [head?_reverse]
  rw [trimEndBy, reverse_append, dropWhile_append_stop stays, reverse_append, reverse_reverse, trimEndBy]

theorem trimEndBy_eq_self (h : ∀ c ∈ cs.getLast?, p c = false) : trimEndBy p cs = cs := by
  simpa [trimEndBy] using trimEndBy_append h []

theorem trimEndBy_append_blank {blanks : List Char} (h : ∀ c ∈ blanks, p c = true) :
    trimEndBy p (cs ++ blanks) = trimEndBy p cs := by
  rw [trimEndBy, reverse_append, dropWhile_append_of_pos fun c hc => h c (mem_reverse.mp hc), trimEndBy]

theorem trimEndBy_ne_nil (h : ∃ c ∈ cs, p c = false) : trimEndBy p cs ≠ [] := by
  obtain ⟨c, hc, shown⟩ := h
  rw [trimEndBy, ne_eq, reverse_eq_nil_iff, dropWhile_eq_nil_iff]
  exact fun all => Bool.false_ne_true (shown.symm.trans (all c (mem_reverse.mpr hc)))

theorem trimEndBy_append_shown (h : ∃ c ∈ cs, p c = false) (front : List Char) :
    trimEndBy p (front ++ cs) = front ++ trimEndBy p cs := by
  have kept : cs.reverse.dropWhile p ≠ [] := fun none => trimEndBy_ne_nil h (congrArg List.reverse none)
  rw [trimEndBy, reverse_append, dropWhile_append, if_neg (by simpa using kept), reverse_append,
    reverse_reverse, trimEndBy]

/-! ### Both ends -/

theorem trimBy_subset (p : Char → Bool) (cs : List Char) : trimBy p cs ⊆ cs :=
  List.Subset.trans (trimEndBy_leads p _).subset (dropWhile_suffix p).subset

theorem trimBy_split (p : Char → Bool) (cs : List Char) : ∃ lead tail, cs = lead ++ trimBy p cs ++ tail ∧
    (∀ c ∈ lead, p c = true) ∧ ∀ c ∈ tail, p c = true := by
  obtain ⟨tail, split, rest⟩ := trimEndBy_split p (cs.dropWhile p)
  refine ⟨cs.takeWhile p, tail, ?_, fun c hc => mem_takeWhile_imp hc, rest⟩
  rw [List.append_assoc, trimBy, ← split, takeWhile_append_dropWhile]

/-- What has no such characters at its ends is what is left of it between them. -/
theorem trimBy_around {lead tail : List Char} (head : ∀ c ∈ cs.head?, p c = false)
    (last : ∀ c ∈ cs.getLast?, p c = false) (front : ∀ c ∈ lead, p c = true) (rest : ∀ c ∈ tail, p c = true) :
    trimBy p (lead ++ cs ++ tail) = cs := by
  rw [trimBy, List.append_assoc, dropWhile_append_of_pos front]
  cases cs with
  | nil => rw [List.nil_append, dropWhile_eq_nil_iff.mpr rest]; rfl
  | cons c cs =>
    rw [cons_append, dropWhile_cons_of_neg (by simp [head c rfl]), ← cons_append, trimEndBy_append_blank rest,
      trimEndBy_eq_self last]

theorem trimBy_trimBy (p : Char → Bool) (cs : List Char) : trimBy p (trimBy p cs) = trimBy p cs := by
  have head : ∀ c ∈ (trimBy p cs).head?, p c = false := by
    intro c hc
    obtain ⟨tail, whole⟩ := trimEndBy_leads p (cs.dropWhile p)
    have kept : c ∈ (cs.dropWhile p).head? := by
      rw [← whole, head?_append_of_ne_nil _ (by rintro none; rw [trimBy, none] at hc; cases hc)]
      exact hc
    exact head_dropWhile kept
  have last : ∀ c ∈ (trimBy p cs).getLast?, p c = false := by
    rw [trimBy, trimEndBy, getLast?_reverse]
    exact fun c => head_dropWhile
  have none : ∀ c ∈ ([] : List Char), p c = true := by simp
  simpa using trimBy_around head last none none

theorem trim_trim (s : String) : trim (trim s) = trim s := by
  rw [trim, trim, String.toList_ofList, trimBy_trimBy]

/-! ### Cuts -/

theorem splitFirstChar_append : ∀ {front : List Char}, c ∉ front →
    splitFirstChar c (front ++ c :: rest) = some (front, rest)
  | [], _ => by simp [splitFirstChar]
  | d :: front, h => by
      rw [cons_append, splitFirstChar, if_neg (Ne.symm (ne_of_not_mem_cons h)),
        splitFirstChar_append (not_mem_of_not_mem_cons h)]
      rfl

theorem notMem_replaceFrom (c : Char) (cs : List Char) : c ∉ replaceFrom [c] [] 0 cs := by
  induction cs with
  | nil => simp [replaceFrom]
  | cons d cs ih =>
    by_cases same : c = d
    · simpa [replaceFrom, same] using same ▸ ih
    · simpa [replaceFrom, same] using ih

end GoTrees.Text
