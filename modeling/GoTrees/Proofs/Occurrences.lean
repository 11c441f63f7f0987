import GoTrees.GoType
import GoTrees.NamePath
import Mathlib

/-!
# Texts in which a pattern does not occur

Replacing what does not occur changes nothing, and a name without `::` is its own basic name. A name with
namespaces is taken apart at its last `::`; written with dots, it is its namespace, a dot and its basic name.
-/

namespace GoTrees

open List hiding contains replace

variable {c : Char} {name : String}

namespace Text

variable {pat : List Char}

theorem replaceFrom_of_not_contains {new : List Char} : ∀ {cs : List Char}, containsChars pat cs = false →
    replaceFrom pat new 0 cs = cs
  | [], _ => rfl
  | c :: cs, h => by
      rw [containsChars, Bool.or_eq_false_iff] at h
      rw [replaceFrom, if_neg (by simp [h.1]), replaceFrom_of_not_contains h.2]

theorem replace_of_not_contains {s pat : String} (new : String) (filled : pat ≠ "")
    (h : contains s pat = false) : replace s pat new = s := by
  have filled : pat.toList.isEmpty = false := by simpa using filled
  rw [replace, replaceChars, if_neg (by simp [filled]), replaceFrom_of_not_contains h, String.ofList_toList]

theorem containsChars_of_lead : ∀ {cs : List Char}, pat.isPrefixOf cs = true → containsChars pat cs = true
  | [], h => by simpa [containsChars] using h
  | _ :: _, h => by rw [containsChars, h, Bool.true_or]

/-- What occurs in a later part occurs in the whole. -/
theorem containsChars_append {after : List Char} (h : containsChars pat after = true) :
    ∀ before : List Char, containsChars pat (before ++ after) = true
  | [] => h
  | _ :: before => by rw [cons_append, containsChars, containsChars_append h before, Bool.or_true]

/-- A pattern does not occur where one of its characters does not. -/
theorem containsChars_of_not_mem (h : c ∈ pat) : ∀ {cs : List Char}, c ∉ cs →
    containsChars pat cs = false
  | [], _ => by simpa [containsChars] using ne_nil_of_mem h
  | d :: cs, absent => by
      have lead : pat.isPrefixOf (d :: cs) = false := by
        refine Bool.of_not_eq_true fun lead => absent ?_
        exact (List.isPrefixOf_iff_prefix.mp lead).subset h
      rw [containsChars, lead, Bool.false_or]
      exact containsChars_of_not_mem h fun mem => absent (mem_cons_of_mem d mem)

theorem not_mem_of_not_contains {cs : List Char} (h : containsChars [c] cs = false) : c ∉ cs := by
  intro mem
  obtain ⟨before, after, rfl⟩ := append_of_mem mem
  rw [containsChars_append (containsChars_of_lead (by simp))] at h
  exact Bool.noConfusion h

theorem splitLastChars_eq_none :
    ∀ {cs : List Char}, containsChars pat cs = false → splitLastChars pat cs = none
  | [], _ => rfl
  | c :: cs, h => by
      rw [containsChars, Bool.or_eq_false_iff] at h
      rw [splitLastChars, splitLastChars_eq_none h.2]
      simp [h.1]

theorem not_contains_of_splitLastChars (filled : pat ≠ []) : ∀ {cs : List Char},
    splitLastChars pat cs = none → containsChars pat cs = false
  | [], _ => by simpa [containsChars] using filled
  | c :: cs, h => by
      rw [splitLastChars] at h
      split at h
      · simp at h
      · rename_i last
        split at h
        · simp at h
        · rename_i lead
          rw [containsChars, not_contains_of_splitLastChars filled last, Bool.or_false]
          exact Bool.of_not_eq_true lead

/-- The parts around the last occurrence make up the whole, and there is no occurrence in the part
after it. -/
theorem splitLastChars_spec (filled : pat ≠ []) : ∀ {cs before after : List Char},
    splitLastChars pat cs = some (before, after) → cs = before ++ pat ++ after ∧
    containsChars pat after = false
  | [], _, _, h => by simp [splitLastChars] at h
  | c :: cs, before, after, h => by
      rw [splitLastChars] at h
      split at h
      · rename_i parts last
        obtain ⟨rfl, rfl⟩ := Prod.mk.inj (Option.some.inj h)
        obtain ⟨whole, rest⟩ := splitLastChars_spec filled last
        exact ⟨by rw [whole]; rfl, rest⟩
      · rename_i last
        split at h
        · rename_i lead
          obtain ⟨rfl, rfl⟩ := Prod.mk.inj (Option.some.inj h)
          obtain ⟨p, ps, rfl⟩ := exists_cons_of_ne_nil filled
          have whole := prefix_iff_eq_append.mp (List.isPrefixOf_iff_prefix.mp lead)
          refine ⟨whole.symm, ?_⟩
          -- the rest stands in `cs`, in which the pattern does not occur
          have inside : cs = ps ++ (c :: cs).drop (p :: ps).length := (List.cons.inj whole.symm).2
          by_contra occurs
          have all := containsChars_append (Bool.of_not_eq_false occurs) ps
          rw [← inside, not_contains_of_splitLastChars filled last] at all
          exact Bool.noConfusion all
        · simp at h

theorem splitLastChars_append {before after rest : List Char}
    (h : splitLastChars pat rest = some (before, after)) :
    ∀ front : List Char, splitLastChars pat (front ++ rest) = some (front ++ before, after)
  | [] => h
  | c :: front => by
      rw [cons_append, splitLastChars, splitLastChars_append h front]
      rfl

/-! ### Namespaces written with dots -/

/-- A name with dots for its `::`. -/
def dotted (name : String) : String := replace name "::" "."

theorem replaceFrom_colons (cs : List Char) :
    replaceFrom [':', ':'] ['.'] 0 (':' :: ':' :: cs) = '.' :: replaceFrom [':', ':'] ['.'] 0 cs := rfl

theorem replaceFrom_cons {cs : List Char} (h : c ≠ ':' ∨ cs.head? ≠ some ':') :
    replaceFrom [':', ':'] ['.'] 0 (c :: cs) = c :: replaceFrom [':', ':'] ['.'] 0 cs := by
  have lead : ¬ [':', ':'].isPrefixOf (c :: cs) = true := by
    rw [List.isPrefixOf_iff_prefix, cons_prefix_cons]
    rintro ⟨rfl, rest, rfl⟩
    simp at h
  rw [replaceFrom, if_neg lead]

/-- Characters that do not end with a colon are replaced on their own in front of `::`. -/
theorem replaceFrom_append_colons (after : List Char) : ∀ {before : List Char},
    before.getLast? ≠ some ':' →
    replaceFrom [':', ':'] ['.'] 0 (before ++ ':' :: ':' :: after) =
      replaceFrom [':', ':'] ['.'] 0 before ++ '.' :: replaceFrom [':', ':'] ['.'] 0 after
  | [], _ => replaceFrom_colons after
  | [c], h => by
      have other : c ≠ ':' := by simpa using h
      rw [singleton_append, replaceFrom_cons (.inl other), replaceFrom_cons (.inl other), replaceFrom_colons]
      rfl
  | c :: d :: before, h => by
      by_cases colons : c = ':' ∧ d = ':'
      · obtain ⟨rfl, rfl⟩ := colons
        have rest : before.getLast? ≠ some ':' := by
          cases before with
          | nil => simp at h
          | cons _ _ => simpa using h
        rw [cons_append, cons_append, replaceFrom_colons, replaceFrom_colons,
          replaceFrom_append_colons after rest, cons_append]
      · have other : c ≠ ':' ∨ d ≠ ':' := by simpa [imp_iff_not_or] using colons
        have rest : (d :: before).getLast? ≠ some ':' := by simpa using h
        have first : replaceFrom [':', ':'] ['.'] 0 (c :: d :: before) =
            c :: replaceFrom [':', ':'] ['.'] 0 (d :: before) := replaceFrom_cons (by simpa using other)
        rw [cons_append, replaceFrom_cons (by simpa using other), replaceFrom_append_colons after rest,
          first, cons_append]

end Text

open Text

theorem basicName_of_not_contains (h : contains name "::" = false) : basicName name = name := by
  rw [basicName, splitLast, splitLastChars_eq_none h]
  rfl

/-- A name with namespaces is its namespace, `::` and its basic name, which has no namespace. -/
theorem namespaceOf_append_basicName (h : contains name "::" = true) :
    name = namespaceOf name ++ "::" ++ basicName name ∧ contains (basicName name) "::" = false := by
  cases last : splitLastChars "::".toList name.toList with
  | none =>
    have absent := not_contains_of_splitLastChars (by decide) last
    rw [contains, absent] at h
    exact Bool.noConfusion h
  | some parts =>
    obtain ⟨whole, rest⟩ := splitLastChars_spec (by decide) last
    have space : namespaceOf name = .ofList parts.1 := by rw [namespaceOf, splitLast, last]; rfl
    have basic : basicName name = .ofList parts.2 := by rw [basicName, splitLast, last]; rfl
    rw [space, basic]
    exact ⟨String.toList_inj.mp (by simpa using whole), by simpa [contains] using rest⟩

/-- The basic name stands behind the last dot. -/
theorem dotted_eq (h : contains name "::" = true) (clear : contains name ":::" = false) :
    dotted name = dotted (namespaceOf name) ++ "." ++ basicName name := by
  obtain ⟨whole, rest⟩ := namespaceOf_append_basicName h
  have chars : name.toList = (namespaceOf name).toList ++ ':' :: ':' :: (basicName name).toList := by
    have := congrArg String.toList whole
    simpa using this
  have ends : (namespaceOf name).toList.getLast? ≠ some ':' := by
    intro colon
    obtain ⟨front, hfront⟩ := getLast?_eq_some_iff.mp colon
    have occurs : containsChars ":::".toList (front ++ ':' :: ':' :: ':' :: (basicName name).toList) = true :=
      containsChars_append (containsChars_of_lead (by simp)) front
    rw [contains, chars, hfront, List.append_assoc, singleton_append, occurs] at clear
    exact Bool.noConfusion clear
  have kept : replaceFrom [':', ':'] ['.'] 0 (basicName name).toList = (basicName name).toList :=
    replaceFrom_of_not_contains rest
  have replaced := replaceFrom_append_colons (basicName name).toList ends
  rw [kept, ← chars] at replaced
  exact String.toList_inj.mp (by simpa [dotted, replace, replaceChars] using replaced)

/-! ### Paths -/

theorem contains_colons_of_not_mem {w : String} (h : ':' ∉ w.toList) : contains w "::" = false :=
  containsChars_of_not_mem mem_cons_self h

theorem splitLastChars_colons {w : List Char} (h : ':' ∉ w) :
    splitLastChars "::".toList (':' :: ':' :: w) = some ([], w) := by
  have none : splitLastChars "::".toList (':' :: w) = none := by
    have absent : containsChars "::".toList w = false := containsChars_of_not_mem mem_cons_self h
    refine splitLastChars_eq_none ?_
    rw [containsChars, absent, Bool.or_false]
    refine Bool.of_not_eq_true fun lead => h ?_
    obtain ⟨rest, same⟩ := List.isPrefixOf_iff_prefix.mp lead
    rw [← (List.cons.inj same).2]
    exact mem_cons_self
  rw [splitLastChars, none]
  rfl

theorem splitLastChars_join : ∀ {v w : String} {ws : List String}, (∀ u ∈ v :: w :: ws, ':' ∉ u.toList) →
    ∃ before after, splitLastChars "::".toList (join "::" (v :: w :: ws)).toList = some (before, after) ∧
      String.ofList after ∈ w :: ws
  | v, w, [], h => by
      have chars : (join "::" [v, w]).toList = v.toList ++ ':' :: ':' :: w.toList := by simp [join]
      refine ⟨v.toList, w.toList, ?_, by simp⟩
      rw [chars, splitLastChars_append (splitLastChars_colons (h w (by simp)))]
      simp
  | v, w, u :: ws, h => by
      obtain ⟨before, after, split, mem⟩ := splitLastChars_join fun x hx => h x (mem_cons_of_mem v hx)
      have chars : (join "::" (v :: w :: u :: ws)).toList =
          (v.toList ++ [':', ':']) ++ (join "::" (w :: u :: ws)).toList := by simp [join]
      refine ⟨_, after, by rw [chars, splitLastChars_append split], mem_cons_of_mem w mem⟩

theorem basicName_join {words : List String} (filled : words ≠ []) (h : ∀ w ∈ words, ':' ∉ w.toList) :
    basicName (join "::" words) ∈ words := by
  match words with
  | [w] =>
    rw [join, basicName_of_not_contains (contains_colons_of_not_mem (h w mem_cons_self))]
    exact mem_cons_self
  | v :: w :: ws =>
    obtain ⟨before, after, split, mem⟩ := splitLastChars_join h
    rw [basicName, splitLast, split]
    exact mem_cons_of_mem v mem

/-- Written with dots, a path has its words between dots. -/
theorem dotted_join : ∀ {words : List String}, (∀ w ∈ words, ':' ∉ w.toList) →
    dotted (join "::" words) = join "." words
  | [], _ => rfl
  | [w], h => replace_of_not_contains "." (by decide) (contains_colons_of_not_mem (h w mem_cons_self))
  | v :: w :: ws, h => by
      rw [forall_mem_cons] at h
      have rest := dotted_join h.2
      have chars : (join "::" (v :: w :: ws)).toList = v.toList ++
          ':' :: ':' :: (join "::" (w :: ws)).toList := by
        simp [join]
      have ends : v.toList.getLast? ≠ some ':' := fun last => h.1 (mem_of_getLast? last)
      have first : replaceFrom [':', ':'] ['.'] 0 v.toList = v.toList :=
        replaceFrom_of_not_contains (contains_colons_of_not_mem h.1)
      have replaced := replaceFrom_append_colons (join "::" (w :: ws)).toList ends
      rw [first, ← chars] at replaced
      have tail : replaceFrom [':', ':'] ['.'] 0 (join "::" (w :: ws)).toList =
          (join "." (w :: ws)).toList := by
        rw [← rest]
        simp [dotted, replace, replaceChars]
      rw [tail] at replaced
      exact String.toList_inj.mp (by simpa [dotted, replace, replaceChars, join] using replaced)

end GoTrees
