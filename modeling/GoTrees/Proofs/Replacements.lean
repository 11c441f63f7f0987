import GoTrees.Proofs.Occurrences

/-!
# Replacements in parts of a text

An occurrence of a pattern cannot reach over a character that the pattern does not have. So a text can be
cut there, and what is replaced in it is worked out on the parts.
-/

namespace GoTrees.Text

open List

variable {pat new : List Char}

theorem replaceFrom_eq_drop (pat new : List Char) : ∀ (skip : Nat) (cs : List Char),
    replaceFrom pat new skip cs = replaceFrom pat new 0 (cs.drop skip)
  | 0, _ => rfl
  | skip + 1, [] => by simp [replaceFrom]
  | skip + 1, c :: cs => by rw [replaceFrom, replaceFrom_eq_drop pat new skip cs, drop_succ_cons]

/-- An occurrence at the front is replaced. -/
theorem replaceFrom_hit (filled : pat ≠ []) (rest : List Char) :
    replaceFrom pat new 0 (pat ++ rest) = new ++ replaceFrom pat new 0 rest := by
  obtain ⟨c, cs, rfl⟩ := exists_cons_of_ne_nil filled
  have lead : (c :: cs).isPrefixOf (c :: (cs ++ rest)) = true :=
    isPrefixOf_iff_prefix.mpr (prefix_append (c :: cs) rest)
  rw [cons_append, replaceFrom, if_pos lead, replaceFrom_eq_drop]
  simp

/-- A character where no occurrence starts stays. -/
theorem replaceFrom_pass {c : Char} {cs : List Char} (h : ¬ pat <+: c :: cs) :
    replaceFrom pat new 0 (c :: cs) = c :: replaceFrom pat new 0 cs := by
  rw [replaceFrom, if_neg (mt isPrefixOf_iff_prefix.mp h)]

theorem replaceFrom_pass_append {rest : List Char} : ∀ {cs : List Char},
    (∀ tail, tail <:+ cs → tail ≠ [] → ¬ pat <+: tail ++ rest) →
    replaceFrom pat new 0 (cs ++ rest) = cs ++ replaceFrom pat new 0 rest
  | [], _ => rfl
  | c :: cs, h => by
      have here : ¬ pat <+: c :: (cs ++ rest) := h (c :: cs) suffix_rfl (cons_ne_nil c cs)
      have later : replaceFrom pat new 0 (cs ++ rest) = cs ++ replaceFrom pat new 0 rest :=
        replaceFrom_pass_append fun tail part => h tail (part.trans (suffix_cons c cs))
      rw [cons_append, replaceFrom_pass here, later, cons_append]

/-- Characters that the pattern does not start with stay. -/
theorem replaceFrom_gap {gap : List Char} (h : ∀ c ∈ gap, c ∉ pat.head?) (filled : pat ≠ [])
    (rest : List Char) :
    replaceFrom pat new 0 (gap ++ rest) = gap ++ replaceFrom pat new 0 rest := by
  refine replaceFrom_pass_append fun tail part some lead => ?_
  obtain ⟨d, ds, rfl⟩ := exists_cons_of_ne_nil filled
  obtain ⟨c, cs, rfl⟩ := exists_cons_of_ne_nil some
  obtain ⟨rfl, _⟩ := cons_prefix_cons.mp lead
  exact h d (part.subset mem_cons_self) rfl

/-- Induction from one occurrence to the next. -/
theorem replaceFrom_induction {motive : List Char → Prop} (filled : pat ≠ []) (nil : motive [])
    (hit : ∀ rest, motive rest → motive (pat ++ rest))
    (pass : ∀ c cs, ¬ pat <+: c :: cs → motive cs → motive (c :: cs)) (cs : List Char) : motive cs := by
  induction len : cs.length using Nat.strong_induction_on generalizing cs with
  | _ n ih =>
    cases cs with
    | nil => exact nil
    | cons c cs =>
      by_cases lead : pat <+: c :: cs
      · obtain ⟨rest, whole⟩ := lead
        have size := length_pos_of_ne_nil filled
        rw [← whole, length_append] at len
        rw [← whole]
        exact hit rest (ih _ (by omega) rest rfl)
      · exact pass c cs lead (ih _ (by simp [← len]) cs rfl)

/-- A text can be cut where no occurrence reaches over. -/
theorem replaceFrom_append (filled : pat ≠ []) (rest cs : List Char)
    (apart : ∀ tail, tail <:+ cs → tail ≠ [] → pat <+: tail ++ rest → pat <+: tail) :
    replaceFrom pat new 0 (cs ++ rest) = replaceFrom pat new 0 cs ++ replaceFrom pat new 0 rest := by
  induction cs using replaceFrom_induction filled with
  | nil => rfl
  | hit tail ih =>
    have later := ih fun t part => apart t (part.trans (suffix_append pat tail))
    rw [List.append_assoc, replaceFrom_hit filled, later, replaceFrom_hit filled, List.append_assoc]
  | pass c cs inner ih =>
    have outer : ¬ pat <+: c :: (cs ++ rest) := fun lead =>
      inner (apart (c :: cs) suffix_rfl (cons_ne_nil c cs) lead)
    have later := ih fun t part => apart t (part.trans (suffix_cons c cs))
    rw [cons_append, replaceFrom_pass outer, replaceFrom_pass inner, later, cons_append]

theorem lead_of_absent {c : Char} {cs rest : List Char} (absent : c ∉ pat) (lead : pat <+: cs ++ c :: rest) :
    pat <+: cs := by
  rcases prefix_or_prefix_of_prefix lead (prefix_append cs (c :: rest)) with within | ⟨more, rfl⟩
  · exact within
  · cases more with
    | nil => rw [List.append_nil]
    | cons d ds =>
      obtain ⟨rfl, _⟩ := cons_prefix_cons.mp ((prefix_append_right_inj cs).mp lead)
      exact absurd (mem_append_right cs mem_cons_self) absent

/-- It can be cut at a character that the pattern does not have. -/
theorem replaceFrom_append_cons {c : Char} (absent : c ∉ pat) (filled : pat ≠ []) (rest cs : List Char) :
    replaceFrom pat new 0 (cs ++ c :: rest) = replaceFrom pat new 0 cs ++ c :: replaceFrom pat new 0 rest := by
  have pass : ¬ pat <+: [] ++ c :: rest := fun lead => filled (prefix_nil.mp (lead_of_absent absent lead))
  rw [replaceFrom_append filled (c :: rest) cs fun tail _ _ lead => lead_of_absent absent lead,
    replaceFrom_pass pass]

theorem replaceFrom_single (m : Char) : ∀ cs : List Char, replaceFrom [m] [] 0 cs = cs.filter (· != m)
  | [] => rfl
  | c :: cs => by
      by_cases same : c = m
      · subst same
        have hit : replaceFrom [c] [] 0 (c :: cs) = replaceFrom [c] [] 0 cs :=
          replaceFrom_hit (cons_ne_nil c []) cs
        rw [hit, replaceFrom_single c cs]
        simp
      · have pass : ¬ [m] <+: c :: cs := fun lead => same (cons_prefix_cons.mp lead).1.symm
        rw [replaceFrom_pass pass, replaceFrom_single m cs]
        simp [same]

end GoTrees.Text
