import GoTrees.Emit.Literal
import GoTrees.Go.Name
import GoTrees.Proofs.Texts

/-!
# Characters of derived texts

Trimming, cutting and splitting keep to the characters of a text, and replacing adds only those of the new
text. So a condition on characters passes from a text to what is made of it: the Go spelling of a type, the
scalars of an encoded literal, the parts of a qualified name. Upper case turns no character into a blank.
-/

namespace GoTrees.Text

open List

variable {c : Char} {tail : String}

/-- Every character of the text satisfies the condition. -/
def AllChars (P : Char → Prop) (s : String) : Prop := ∀ c ∈ s.toList, P c

instance (P : Char → Prop) [DecidablePred P] (s : String) : Decidable (AllChars P s) :=
  List.decidableBAll P s.toList

/-- Not a character of a line end. -/
def IsFlat (c : Char) : Prop := c ≠ '\n' ∧ c ≠ '\r'

instance (c : Char) : Decidable (IsFlat c) := inferInstanceAs (Decidable (c ≠ '\n' ∧ c ≠ '\r'))

/-- The text holds no line break. -/
abbrev Unbroken (s : String) : Prop := AllChars IsFlat s

theorem char_le_iff {d : Char} : c ≤ d ↔ c.toNat ≤ d.toNat := Iff.rfl

section Closure

variable {P : Char → Prop} {s t : String}

theorem allChars_ofList {cs : List Char} : AllChars P (.ofList cs) ↔ ∀ c ∈ cs, P c := by
  rw [AllChars, String.toList_ofList]

theorem AllChars.of_subset (h : AllChars P s) (sub : t.toList ⊆ s.toList) : AllChars P t :=
  fun c hc => h c (sub hc)

theorem AllChars.append (hs : AllChars P s) (ht : AllChars P t) : AllChars P (s ++ t) := by
  intro c hc
  rw [String.toList_append, mem_append] at hc
  exact hc.elim (hs c) (ht c)

theorem AllChars.mono {Q : Char → Prop} (imp : ∀ c, P c → Q c) (h : AllChars P s) : AllChars Q s :=
  fun c hc => imp c (h c hc)

theorem AllChars.join {sep : String} (hsep : AllChars P sep) : ∀ {parts : List String},
    (∀ part ∈ parts, AllChars P part) → AllChars P (Text.join sep parts)
  | [], _ => by simp [Text.join, AllChars]
  | [part], h => h part mem_cons_self
  | part :: next :: rest, h => by
      rw [forall_mem_cons] at h
      rw [Text.join]
      · exact (h.1.append hsep).append (AllChars.join hsep h.2)
      · simp

/-! ### Trimming and cutting -/

theorem AllChars.trim (h : AllChars P s) : AllChars P (Text.trim s) :=
  allChars_ofList.mpr fun c hc => h c (trimBy_subset isBlank _ hc)

theorem AllChars.trimEnd (h : AllChars P s) : AllChars P (Text.trimEnd s) :=
  allChars_ofList.mpr fun c hc => h c ((trimEndBy_leads isBlank _).subset hc)

theorem AllChars.trimChar (h : AllChars P s) (d : Char) : AllChars P (Text.trimChar s d) :=
  allChars_ofList.mpr fun c hc => h c (trimBy_subset _ _ hc)

theorem dropLead?_suffix {lead cs rest : List Char} (h : dropLead? lead cs = some rest) :
    rest <:+ cs := by
  rw [dropLead?] at h
  split at h
  · obtain rfl := Option.some.inj h
    exact drop_suffix _ _
  · cases h

theorem AllChars.afterLead? {lead : String} (h : AllChars P s) :
    ∀ t ∈ Text.afterLead? s lead, AllChars P t := by
  intro t ht
  obtain ⟨rest, hrest, rfl⟩ := Option.map_eq_some_iff.mp ht
  exact allChars_ofList.mpr fun c hc => h c ((dropLead?_suffix hrest).subset hc)

theorem AllChars.beforeTail? (h : AllChars P s) :
    ∀ t ∈ Text.beforeTail? s tail, AllChars P t := by
  intro t ht
  obtain ⟨rest, hrest, rfl⟩ := Option.map_eq_some_iff.mp ht
  refine allChars_ofList.mpr fun c hc => h c ?_
  have back := (dropLead?_suffix hrest).subset (mem_reverse.mp hc)
  exact mem_reverse.mp back

/-! ### Replacing -/

theorem mem_replaceFrom {pat new : List Char} (skip : Nat) (cs : List Char)
    (h : c ∈ replaceFrom pat new skip cs) : c ∈ new ∨ c ∈ cs := by
  fun_induction replaceFrom pat new skip cs with
  | case1 => simp at h
  | case2 skip d cs ih => exact (ih h).imp id (mem_cons_of_mem _)
  | case3 d cs hit ih =>
    rcases mem_append.mp h with h | h
    · exact .inl h
    · exact (ih h).imp id (mem_cons_of_mem _)
  | case4 d cs miss ih =>
    rcases mem_cons.mp h with rfl | h
    · exact .inr mem_cons_self
    · exact (ih h).imp id (mem_cons_of_mem _)

theorem AllChars.replace {new : String} (hs : AllChars P s) (hnew : AllChars P new) (pat : String) :
    AllChars P (Text.replace s pat new) := by
  refine allChars_ofList.mpr fun c hc => ?_
  rw [replaceChars] at hc
  split at hc
  · rcases mem_append.mp hc with hc | hc
    · exact hnew c hc
    · obtain ⟨d, hd, hc⟩ := mem_flatMap.mp hc
      rcases mem_cons.mp hc with rfl | hc
      · exact hs c hd
      · exact hnew c hc
  · exact (mem_replaceFrom 0 _ hc).elim (hnew c) (hs c)

/-! ### Splitting -/

theorem mem_splitLastChars {pat : List Char} : ∀ {cs before after : List Char},
    splitLastChars pat cs = some (before, after) → c ∈ before ∨ c ∈ after → c ∈ cs
  | [], _, _, h, _ => by cases h
  | d :: cs, before, after, h, hc => by
      rw [splitLastChars] at h
      split at h
      · next front back hcs =>
        obtain ⟨rfl, rfl⟩ : d :: front = before ∧ back = after := by simpa using h
        rcases hc with hc | hc
        · rcases mem_cons.mp hc with rfl | hc
          · exact mem_cons_self
          · exact mem_cons_of_mem _ (mem_splitLastChars hcs (.inl hc))
        · exact mem_cons_of_mem _ (mem_splitLastChars hcs (.inr hc))
      · split at h
        · obtain ⟨rfl, rfl⟩ : [] = before ∧ (d :: cs).drop pat.length = after := by simpa using h
          rcases hc with hc | hc
          · cases hc
          · exact mem_of_mem_drop hc
        · cases h

theorem AllChars.splitLast {pat before after : String} (h : AllChars P s)
    (found : Text.splitLast s pat = some (before, after)) : AllChars P before ∧ AllChars P after := by
  obtain ⟨⟨front, back⟩, hcs, heq⟩ := Option.map_eq_some_iff.mp found
  obtain ⟨rfl, rfl⟩ : .ofList front = before ∧ .ofList back = after := by simpa using heq
  exact ⟨allChars_ofList.mpr fun c hc => h c (mem_splitLastChars hcs (.inl hc)),
    allChars_ofList.mpr fun c hc => h c (mem_splitLastChars hcs (.inr hc))⟩

theorem mem_of_mem_splitChars {p : Char → Bool} : ∀ {cs part : List Char},
    part ∈ splitChars p cs → c ∈ part → c ∈ cs
  | [], part, h, hc => by
      obtain rfl : part = [] := by simpa [splitChars] using h
      cases hc
  | d :: cs, part, h, hc => by
      rw [splitChars] at h
      split at h
      · rcases mem_cons.mp h with rfl | h
        · cases hc
        · exact mem_cons_of_mem _ (mem_of_mem_splitChars h hc)
      · split at h
        · obtain rfl : part = [d] := by simpa using h
          exact mem_cons.mpr (.inl (mem_singleton.mp hc))
        · next first rest hcs =>
          rcases mem_cons.mp h with rfl | h
          · rcases mem_cons.mp hc with rfl | hc
            · exact mem_cons_self
            · have inner : _ ∈ splitChars p cs := hcs ▸ mem_cons_self
              exact mem_cons_of_mem _ (mem_of_mem_splitChars inner hc)
          · have inner : part ∈ splitChars p cs := hcs ▸ mem_cons_of_mem _ h
            exact mem_cons_of_mem _ (mem_of_mem_splitChars inner hc)

theorem exists_mem_splitChars {p : Char → Bool} (hc : p c = false) : ∀ {cs : List Char},
    c ∈ cs → ∃ part ∈ splitChars p cs, c ∈ part
  | d :: cs, h => by
      rw [splitChars]
      rcases mem_cons.mp h with rfl | h
      · rw [if_neg (by simp [hc])]
        split
        · exact ⟨[c], by simp⟩
        · exact ⟨_, mem_cons_self, mem_cons_self⟩
      · obtain ⟨part, hpart, hmem⟩ := exists_mem_splitChars hc h
        split
        · exact ⟨part, mem_cons_of_mem _ hpart, hmem⟩
        · split
          · next empty => simp [empty] at hpart
          · next first rest hcs =>
            rw [hcs] at hpart
            rcases mem_cons.mp hpart with rfl | hpart
            · exact ⟨_, mem_cons_self, mem_cons_of_mem _ hmem⟩
            · exact ⟨part, mem_cons_of_mem _ hpart, hmem⟩

theorem mem_splitFirstChar {d : Char} : ∀ {cs before after : List Char},
    splitFirstChar d cs = some (before, after) → c ∈ after → c ∈ cs
  | [], _, _, h, _ => by cases h
  | e :: cs, before, after, h, hc => by
      rw [splitFirstChar] at h
      split at h
      · obtain ⟨-, rfl⟩ : [] = before ∧ cs = after := by simpa using h
        exact mem_cons_of_mem _ hc
      · obtain ⟨⟨front, back⟩, hcs, heq⟩ := Option.map_eq_some_iff.mp h
        obtain ⟨-, rfl⟩ : e :: front = before ∧ back = after := by simpa using heq
        exact mem_cons_of_mem _ (mem_splitFirstChar hcs hc)

/-- A text that does not end in `tail` loses nothing. -/
theorem dropTails_eq_self (h : ¬ tail.toList.reverse <+: s.toList.reverse) :
    dropTails s tail = s := by
  have none : ∀ fuel, dropLeads tail.toList.reverse fuel s.toList.reverse = s.toList.reverse
    | 0 => rfl
    | fuel + 1 => by
        have miss : dropLead? tail.toList.reverse s.toList.reverse = none := by
          rw [dropLead?, if_neg (by simpa [ isPrefixOf_iff_prefix] using h)]
        simp [dropLeads, miss]
  rw [dropTails, none, reverse_reverse, String.ofList_toList]

/-- The base is what is left of the text without the tails at its end. -/
def Stripped (tail s base : String) : Prop :=
  (∃ n, s.toList = base.toList ++ (List.replicate n tail.toList).flatten) ∧ ¬ tail.toList <:+ base.toList

/-- All copies of the lead are dropped, and no more. -/
theorem dropLeads_spec {lead : List Char} (some : lead ≠ []) : ∀ (fuel : Nat) (cs : List Char),
    cs.length ≤ fuel → (∃ n, cs = (List.replicate n lead).flatten ++ dropLeads lead fuel cs) ∧
      ¬ lead <+: dropLeads lead fuel cs
  | 0, cs, h => by
      obtain rfl : cs = [] := eq_nil_of_length_eq_zero (Nat.le_zero.mp h)
      exact ⟨⟨0, rfl⟩, by simpa [dropLeads] using some⟩
  | fuel + 1, cs, h => by
      by_cases starts : lead <+: cs
      · obtain ⟨rest, rfl⟩ := starts
        have shorter : rest.length ≤ fuel := by
          have := length_pos_iff.mpr some
          rw [length_append] at h
          omega
        obtain ⟨⟨n, eq⟩, last⟩ := dropLeads_spec some fuel rest shorter
        have dropped : dropLeads lead (fuel + 1) (lead ++ rest) = dropLeads lead fuel rest := by
          simp [dropLeads, dropLead?]
        rw [dropped]
        refine ⟨⟨n + 1, ?_⟩, last⟩
        rw [replicate_succ, flatten_cons, List.append_assoc, ← eq]
      · have dropped : dropLeads lead (fuel + 1) cs = cs := by
          simp [dropLeads, dropLead?, starts]
        rw [dropped]
        exact ⟨⟨0, rfl⟩, starts⟩

/-- All copies of the tail are dropped, and no more. -/
theorem stripped_dropTails (s : String) (some : tail ≠ "") :
    Stripped tail s (dropTails s tail) := by
  have reversed : tail.toList.reverse ≠ [] := by simpa using some
  obtain ⟨⟨n, eq⟩, last⟩ := dropLeads_spec reversed s.length s.toList.reverse
    (by rw [length_reverse, String.length_toList])
  rw [Stripped, dropTails, String.toList_ofList]
  refine ⟨⟨n, ?_⟩, ?_⟩
  · simpa [reverse_flatten] using congrArg List.reverse eq
  · simpa [← reverse_prefix] using last

end Closure

/-! ### Case -/

/-- The upper-case forms of a run of letters lie apart from the range. -/
def ClearOf (range : Nat × Nat) (run : Nat × Nat × Nat × Nat) : Prop :=
  run.2.2.2 + (run.2.1 - run.1) < range.1 ∨ range.2 < run.2.2.2

instance (range : Nat × Nat) (run : Nat × Nat × Nat × Nat) : Decidable (ClearOf range run) :=
  inferInstanceAs (Decidable (_ ∨ _))

/-- An upper-case form stands in one of the tables, or is the character itself. -/
theorem mem_upperChar {d : Char} (hd : d ∈ upperChar c) :
    (∃ e ∈ upperTexts, ∃ n ∈ e.2, d = .ofNat n) ∨
    (∃ run ∈ upperRuns, ∃ k ≤ run.2.1 - run.1, d = .ofNat (run.2.2.2 + k)) ∨ d = c := by
  rw [upperChar] at hd
  split at hd
  · next e codes found =>
    obtain ⟨n, hn, rfl⟩ := mem_map.mp hd
    exact .inl ⟨_, mem_of_find?_eq_some found, n, hn, rfl⟩
  · split at hd
    · next lo hi step target found =>
      have inside := find?_some found
      simp only [Bool.and_eq_true, decide_eq_true_eq] at inside
      exact .inr (.inl ⟨_, mem_of_find?_eq_some found, c.toNat - lo, Nat.sub_le_sub_right inside.1.2 lo,
        mem_singleton.mp hd⟩)
    · exact .inr (.inr (mem_singleton.mp hd))

/-- Upper case does not lead into a range that the tables avoid. -/
theorem upperChar_clear {range : Nat × Nat} (zero : 0 < range.1)
    (texts : ∀ e ∈ upperTexts, ∀ n ∈ e.2, (Char.ofNat n).toNat < range.1 ∨ range.2 < (Char.ofNat n).toNat)
    (runs : ∀ run ∈ upperRuns, ClearOf range run) (hc : c.toNat < range.1 ∨ range.2 < c.toNat) :
    ∀ d ∈ upperChar c, d.toNat < range.1 ∨ range.2 < d.toNat := by
  intro d hd
  rcases mem_upperChar hd with ⟨e, mem, n, hn, rfl⟩ | ⟨run, mem, k, short, rfl⟩ | rfl
  · exact texts e mem n hn
  · have clear := runs run mem
    rw [ClearOf] at clear
    rw [Char.toNat_ofNat]
    split <;> omega
  · exact hc

/-- No upper-case form is a character of one of the ranges. -/
def Caseless (ranges : List (Nat × Nat)) : Prop :=
  ∀ r ∈ ranges, 0 < r.1 ∧
    (∀ e ∈ upperTexts, ∀ n ∈ e.2, (Char.ofNat n).toNat < r.1 ∨ r.2 < (Char.ofNat n).toNat) ∧
    ∀ run ∈ upperRuns, ClearOf r run

instance (ranges : List (Nat × Nat)) : Decidable (Caseless ranges) :=
  inferInstanceAs (Decidable (∀ r ∈ ranges, _ ∧ _))

theorem Caseless.upperChar {ranges : List (Nat × Nat)} (h : Caseless ranges)
    (hc : ∀ r ∈ ranges, c.toNat < r.1 ∨ r.2 < c.toNat) :
    ∀ d ∈ upperChar c, ∀ r ∈ ranges, d.toNat < r.1 ∨ r.2 < d.toNat := by
  intro d hd r hr
  obtain ⟨zero, texts, runs⟩ := h r hr
  exact upperChar_clear zero texts runs (hc r hr) d hd

theorem upperChar_ne_nil (c : Char) : upperChar c ≠ [] := by
  rw [upperChar]
  split
  · next e codes found =>
    have filled : ∀ e ∈ upperTexts, e.2 ≠ [] := by decide +kernel
    simpa using filled _ (mem_of_find?_eq_some found)
  · split <;> simp

/-- Neither a blank nor a slash, so that no comment starts with it. -/
def IsInk (c : Char) : Prop := isBlank c = false ∧ c ≠ '/'

instance : DecidablePred IsInk := fun _ => inferInstanceAs (Decidable (_ ∧ _))

def inklessRanges : List (Nat × Nat) := ('/'.toNat, '/'.toNat) :: blankRanges

theorem IsInk.flat (h : IsInk c) : IsFlat c := by
  constructor <;> rintro rfl <;> exact absurd h (by decide)

theorem isInk_iff : IsInk c ↔ ∀ r ∈ inklessRanges, c.toNat < r.1 ∨ r.2 < c.toNat := by
  have slash : c ≠ '/' ↔ c.toNat < '/'.toNat ∨ '/'.toNat < c.toNat := by
    rw [← Nat.ne_iff_lt_or_gt, ne_eq, ne_eq, Char.toNat_inj]
  have blank : isBlank c = false ↔ ∀ r ∈ blankRanges, c.toNat < r.1 ∨ r.2 < c.toNat := by
    simp only [isBlank, any_eq_false, Bool.and_eq_true, decide_eq_true_eq, not_and_or, not_le]
  rw [IsInk, slash, blank, inklessRanges, forall_mem_cons]
  exact and_comm

theorem upperChar_isInk (hc : IsInk c) : ∀ d ∈ upperChar c, IsInk d := by
  have caseless : Caseless inklessRanges := by decide +kernel
  intro d hd
  rw [isInk_iff] at hc ⊢
  exact caseless.upperChar hc d hd

end GoTrees.Text

namespace GoTrees.Go

open Text List

theorem allChars_pascalCase {P : Char → Prop} (upper : ∀ c, P c → ∀ d ∈ upperChar c, P d) {name : String}
    (h : AllChars P name) : AllChars P (pascalCase name) := by
  refine allChars_ofList.mpr fun d hd => ?_
  obtain ⟨part, hpart, hd⟩ := mem_flatMap.mp hd
  have inPart : ∀ c ∈ part, P c := fun c hc => h c (mem_of_mem_splitChars hpart hc)
  cases part with
  | nil => cases hd
  | cons c cs =>
    rw [upperFirst, mem_append] at hd
    rw [forall_mem_cons] at inPart
    exact hd.elim (upper c inPart.1 d) (inPart.2 d)

theorem pascalCase_isInk {name : String} (h : AllChars IsInk name) : AllChars IsInk (pascalCase name) :=
  allChars_pascalCase (fun _ => upperChar_isInk) h

theorem pascalCase_ne_empty {name : String} (h : ∃ c ∈ name.toList, c ≠ '_') : pascalCase name ≠ "" := by
  obtain ⟨c, hc, ne⟩ := h
  obtain ⟨part, hpart, hmem⟩ := exists_mem_splitChars (p := (· == '_')) (by simpa using ne) hc
  intro empty
  have none : ∀ d, d ∉ (pascalCase name).toList := by simp [empty]
  rw [pascalCase, String.toList_ofList] at none
  cases part with
  | nil => cases hmem
  | cons d ds =>
    obtain ⟨u, us, hu⟩ := exists_cons_of_ne_nil (upperChar_ne_nil d)
    exact none u (mem_flatMap.mpr ⟨_, hpart, by simp [upperFirst, hu]⟩)

theorem quoteChar_flat (c : Char) : ∀ d ∈ quoteChar c, IsFlat d := by
  fun_cases quoteChar c with
  | case6 _ _ _ feed ret _ => simpa [IsFlat] using ⟨feed, ret⟩
  | _ => simp [IsFlat]

/-- A quoted text stands on one line. -/
theorem unbroken_quote (s : String) : Unbroken (quote s) := by
  have inside : ∀ d ∈ s.toList.flatMap quoteChar, IsFlat d := by
    intro d hd
    obtain ⟨c, -, hd⟩ := mem_flatMap.mp hd
    exact quoteChar_flat c d hd
  refine allChars_ofList.mpr ?_
  rw [cons_append, forall_mem_cons, forall_mem_append]
  exact ⟨by decide, inside, by simp [IsFlat]⟩

end GoTrees.Go

namespace GoTrees

open Text List

variable {renames : List Rename} {cs rest : List Char} {text : Option String}

variable {P : Char → Prop} {s : String}

/-! ### Names and types -/

theorem allChars_basicName (h : AllChars P s) : AllChars P (basicName s) := by
  rw [basicName]
  split
  · next found => exact (h.splitLast found).2
  · exact h

theorem allChars_namespaceOf (h : AllChars P s) : AllChars P (namespaceOf s) := by
  rw [namespaceOf]
  split
  · next found => exact (h.splitLast found).1
  · simp [AllChars]

namespace GoType

theorem allChars_replaceAll {table : List (String × String)} (new : ∀ e ∈ table, AllChars P e.2)
    (h : AllChars P s) : AllChars P (replaceAll table s) := by
  refine AllChars.trim ?_
  induction table generalizing s with
  | nil => exact h
  | cons e table ih =>
    rw [forall_mem_cons] at new
    exact ih new.2 (h.replace new.1 e.1)

theorem allChars_sliced (bracket : AllChars P "[]") (h : AllChars P s) : AllChars P (sliced s) := by
  rw [sliced]
  split
  · next element found =>
    obtain ⟨lead, -, hlead⟩ := exists_of_findSome?_eq_some found
    exact (bracket.append (h.afterLead? element hlead)).replace (by simp [AllChars]) ">"
  · exact h

theorem allChars_renamed (new : ∀ r ∈ renames, AllChars P r.new)
    (h : AllChars P s) : AllChars P (renamed renames s) := by
  rw [renamed]
  split
  · next r found => exact h.replace (new r (mem_of_find?_eq_some found)) r.old
  · exact h

theorem unbroken_ofNative (new : ∀ r ∈ renames, Unbroken r.new)
    (h : Unbroken s) : Unbroken (ofNative renames s) := by
  have native : ∀ e ∈ nativeReplacements, Unbroken e.2 := by decide
  have go : ∀ e ∈ goReplacements, Unbroken e.2 := by decide
  exact allChars_renamed new (allChars_sliced (by decide)
    (allChars_replaceAll go (allChars_replaceAll native h)))

theorem allChars_elementOrSelf (h : AllChars P s) : AllChars P (elementOrSelf s) := by
  rw [elementOrSelf, vectorElement?]
  cases first : splitFirstChar '<' s.toList with
  | none => exact h
  | some cut =>
    cases last : splitLastChars ['>'] cut.2 with
    | none => simpa [last] using h
    | some element =>
      simp only [last, Option.map_some, Option.getD_some]
      refine allChars_ofList.mpr fun c hc => h c ?_
      have inner := trimBy_subset isBlank _ hc
      exact mem_splitFirstChar first (mem_splitLastChars last (.inl inner))

end GoType

/-! ### Encoded literals -/

namespace Literal

theorem scalarUntil_suffix (stop cs : List Char) : (scalarUntil stop cs).2 <:+ cs :=
  dropWhile_suffix _

theorem scalarUntil_subset {stop : List Char} {s : String} (h : (scalarUntil stop cs).1 = .scalar s) :
    s.toList ⊆ cs := by
  obtain rfl := Literal.scalar.inj h
  rw [String.toList_ofList]
  exact List.Subset.trans (trimBy_subset _ _) (takeWhile_sublist _).subset

theorem count?_suffix {n : Nat} (h : count? cs = some (n, rest)) : rest <:+ cs := by
  simp only [count?] at h
  split at h
  · cases h
  · split at h
    · next rest' colon =>
      obtain ⟨-, rfl⟩ : _ ∧ rest' = rest := by simpa using h
      have behind := (suffix_cons ':' rest').trans (colon ▸ dropWhile_suffix _)
      exact behind.trans ((dropWhile_suffix _).trans (dropWhile_suffix _))
    · cases h

theorem identifier?_suffix {name : List Char} (h : identifier? cs = some (name, rest)) :
    rest <:+ cs := by
  cases cs with
  | nil => cases h
  | cons c cs =>
    rw [identifier?] at h
    split at h
    · obtain ⟨-, rfl⟩ : _ ∧ cs.dropWhile isWordChar = rest := by simpa using h
      exact (dropWhile_suffix _).trans (suffix_cons c cs)
    · cases h

theorem fieldName?_suffix {name : String}
    (h : fieldName? cs = some (name, rest)) : rest <:+ cs := by
  rw [fieldName?] at h
  split at h
  · cases h
  · next word after found =>
    split at h
    · next rest' equals =>
      obtain ⟨-, rfl⟩ : _ ∧ rest'.dropWhile isSpace = rest := by simpa using h
      have behind := (suffix_cons '=' rest').trans (equals ▸ dropWhile_suffix _)
      exact (dropWhile_suffix _).trans
        (behind.trans ((identifier?_suffix found).trans (dropWhile_suffix _)))
    · cases h

theorem dropSemicolon_suffix (cs : List Char) : dropSemicolon cs <:+ cs := by
  fun_cases dropSemicolon cs with
  | case1 cs => exact suffix_cons ';' cs
  | case2 => exact suffix_refl _

mutual

theorem parseStruct_suffix : ∀ (fuel : Nat) {cs rest : List Char} {l : Literal},
    parseStruct fuel cs = some (l, rest) → rest <:+ cs
  | 0, _, _, _, h => by simp [parseStruct] at h
  | fuel + 1, cs, rest, l, h => by
      rw [parseStruct] at h
      split at h
      · next after brace =>
        simp only at h
        split at h
        · next rest' close =>
          obtain ⟨-, rfl⟩ : _ ∧ rest' = rest := by simpa using h
          have fields := parseFields_suffix fuel after
          have behind := (suffix_cons '\x7d' rest').trans (close ▸ dropWhile_suffix _)
          exact behind.trans (fields.trans ((suffix_cons '\x7b' after).trans
            (brace ▸ dropWhile_suffix _)))
        · cases h
      · cases h

theorem parseFields_suffix : ∀ (fuel : Nat) (cs : List Char), (parseFields fuel cs).2 <:+ cs
  | 0, cs => by simp [parseFields]
  | fuel + 1, cs => by
      rw [parseFields]
      split
      · exact suffix_refl _
      · next name rest found =>
        exact (parseFields_suffix fuel _).trans ((dropSemicolon_suffix _).trans
          ((parseFieldValue_suffix fuel rest).trans (fieldName?_suffix found)))

theorem parseFieldValue_suffix : ∀ (fuel : Nat) (cs : List Char), (parseFieldValue fuel cs).2 <:+ cs
  | 0, cs => by
      rw [parseFieldValue]
      exact scalarUntil_suffix _ _
  | fuel + 1, cs => by
      rw [parseFieldValue]
      split
      · next found => exact parseStruct_suffix fuel found
      · split
        · next n rest found =>
          exact (parseItems_suffix fuel fieldItemStop rest).trans (count?_suffix found)
        · exact scalarUntil_suffix _ _

theorem parseItems_suffix : ∀ (fuel : Nat) (stop cs : List Char), (parseItems fuel stop cs).2 <:+ cs
  | 0, _, cs => by simp [parseItems]
  | fuel + 1, stop, cs => by
      have item : ((parseStruct fuel cs).getD (scalarUntil stop cs)).2 <:+ cs := by
        cases found : parseStruct fuel cs with
        | none => exact scalarUntil_suffix _ _
        | some r => exact parseStruct_suffix fuel found
      rw [parseItems]
      simp only
      split
      · next rest bar =>
        have behind := (suffix_cons '|' rest).trans (bar ▸ item)
        exact (parseItems_suffix fuel stop rest).trans behind
      · exact item

end

theorem parseStruct_ne_scalar {fuel : Nat} {l : Literal}
    (h : parseStruct fuel cs = some (l, rest)) (s : String) : l ≠ .scalar s := by
  rintro rfl
  cases fuel with
  | zero => simp [parseStruct] at h
  | succ fuel =>
    rw [parseStruct] at h
    split at h
    · simp only at h
      split at h <;> simp at h
    · cases h

/-- The scalars among parsed items are made of characters of the text. -/
theorem scalar_mem_parseItems {s : String} : ∀ (fuel : Nat) (stop cs : List Char),
    .scalar s ∈ (parseItems fuel stop cs).1 → s.toList ⊆ cs
  | 0, _, _, h => by simp [parseItems] at h
  | fuel + 1, stop, cs, h => by
      have item : ∀ l rest, (parseStruct fuel cs).getD (scalarUntil stop cs) = (l, rest) →
          rest <:+ cs ∧ (l = .scalar s → s.toList ⊆ cs) := by
        intro l rest found
        cases struct : parseStruct fuel cs with
        | none =>
          rw [struct, Option.getD_none] at found
          have behind := scalarUntil_suffix stop cs
          have inside {t : String} (h : (scalarUntil stop cs).1 = .scalar t) : t.toList ⊆ cs :=
            scalarUntil_subset h
          rw [found] at behind inside
          exact ⟨behind, inside⟩
        | some r =>
          obtain rfl : r = (l, rest) := by simpa [struct] using found
          exact ⟨parseStruct_suffix fuel struct, fun scalar => absurd scalar (parseStruct_ne_scalar struct s)⟩
      rw [parseItems] at h
      cases found : (parseStruct fuel cs).getD (scalarUntil stop cs) with
      | mk l rest =>
        obtain ⟨behind, first⟩ := item l rest found
        simp only [found] at h
        split at h
        · next after =>
          rcases mem_cons.mp h with h | h
          · exact first h.symm
          · have inner := scalar_mem_parseItems fuel stop after h
            exact List.Subset.trans inner ((suffix_cons '|' after).trans behind).subset
        · exact first (mem_singleton.mp h).symm

theorem mem_of_mem_bounded {n : Nat} {items : List Literal} {l : Literal} (h : l ∈ bounded n items) :
    l ∈ items := by
  rw [bounded] at h
  split at h
  · exact mem_of_mem_take h
  · exact h

/-- What holds of all characters of a text holds of the scalars it encodes. -/
theorem allChars_parse {items : List Literal} {t : String} (h : AllChars P s)
    (array : (parse s).1 = .array items) (scalar : .scalar t ∈ items) : AllChars P t := by
  have front : (parseChars s.toList).1 = .array items := array
  rw [parseChars] at front
  simp only at front
  split at front
  · next r struct =>
    obtain ⟨fuel, hfuel⟩ : ∃ fuel, fuel + 1 = s.toList.length + 3 := ⟨_, rfl⟩
    rw [← hfuel, parseStruct] at struct
    split at struct
    · simp only at struct
      split at struct <;> simp at struct
      simp [← struct] at front
    · cases struct
  · split at front
    · next n rest counted =>
      obtain rfl := Literal.array.inj front
      have inner := scalar_mem_parseItems _ _ _ (mem_of_mem_bounded scalar)
      exact h.of_subset (List.Subset.trans inner (count?_suffix counted).subset)
    · cases front

end Literal

/-! ### Literals of a type -/

theorem lower_flat {c : Char} (h : IsFlat c) : IsFlat (Numeral.lower c) := by
  rw [Numeral.lower]
  split
  · next upper =>
    have big : 97 ≤ c.toNat + 32 ∧ c.toNat + 32 ≤ 122 := by
      simp only [Bool.and_eq_true, decide_eq_true_eq, char_le_iff] at upper
      have lo : 'A'.toNat = 65 := rfl
      have hi : 'Z'.toNat = 90 := rfl
      omega
    have code : (Char.ofNat (c.toNat + 32)).toNat = c.toNat + 32 := by
      rw [Char.toNat_ofNat, if_pos (.inl (by omega))]
    constructor
    · intro feed
      rw [feed] at code
      exact absurd (code ▸ big.1) (by decide)
    · intro ret
      rw [ret] at code
      exact absurd (code ▸ big.1) (by decide)
  · exact h

theorem unbroken_lowerText (h : Unbroken s) : Unbroken (Numeral.lowerText s) := by
  refine allChars_ofList.mpr fun c hc => ?_
  obtain ⟨d, hd, rfl⟩ := mem_map.mp hc
  exact lower_flat (h d hd)

theorem allChars_givenText (h : ∀ t ∈ text, AllChars P t) {default : String}
    (hd : AllChars P default) : AllChars P ((givenText text).getD default) := by
  rw [givenText]
  cases text with
  | none => exact hd
  | some t =>
    rw [Option.map_some, Option.filter_some]
    split
    · exact (h t rfl).trim
    · exact hd

/-- A literal stays on its line if its type and text do. -/
theorem unbroken_literalFor {ty : ValueType} {goType : String} {e : Go.Expr}
    (hg : Unbroken goType) (ht : ∀ t ∈ text, Unbroken t) (he : e ∈ literalFor ty goType text) :
    Unbroken e.text := by
  have given {default : String} (hd : Unbroken default) := allChars_givenText ht hd
  cases ty with
  | void => cases he
  | char => cases he; decide
  | bool => cases he; exact unbroken_lowerText (given (by decide))
  | integer => cases he; exact given (by decide)
  | double => cases he; exact given (by decide)
  | float =>
    cases he
    have whole : Unbroken ((givenText text).getD "0") := given (by decide)
    cases tail : beforeTail? ((givenText text).getD "0") "f" with
    | none => simpa [Go.Expr.text, tail] using whole
    | some t => simpa [Go.Expr.text, tail] using whole.beforeTail? t tail
  | string => cases he; exact Go.unbroken_quote _
  | status =>
    cases he
    cases Status.ofMember ((givenText text).getD "") <;> decide
  | enum name =>
    have member : Unbroken ((givenText text).getD "") := given (by decide)
    simp only [literalFor] at he
    split at he
    · next m hm =>
      cases he
      rw [hm, Option.getD_some] at member
      exact (hg.append (by decide)).append (allChars_basicName member)
    · cases he
      rw [Go.Expr.text, Go.Expr.text]
      exact ((hg.append (by decide)).append (by decide)).append (by decide)
  | array element => cases he; decide
  | agent name => cases he; decide
  | struct name isRef =>
    cases isRef with
    | true => cases he; decide
    | false =>
      cases he
      rw [Go.Expr.text]
      exact (AllChars.append (by decide) hg).append (by decide)
  | unknown name => cases he; exact given (by decide)

theorem texts_eq_map : ∀ es : List Go.Expr, Go.Expr.texts es = es.map Go.Expr.text
  | [] => rfl
  | e :: es => by rw [Go.Expr.texts, texts_eq_map es, map_cons]

/-- The default of a property stays on its line if its type and text do. -/
theorem unbroken_propertyLiteral {ty : ValueType} {native : String}
    {e : Go.Expr} (new : ∀ r ∈ renames, Unbroken r.new) (hn : Unbroken native)
    (ht : ∀ t ∈ text, Unbroken t) (he : e ∈ propertyLiteral renames ty native text) :
    Unbroken e.text := by
  have type := GoType.unbroken_ofNative new hn
  have single : e ∈ nativeLiteral renames ty native text → Unbroken e.text := unbroken_literalFor type ht
  unfold propertyLiteral at he
  split at he
  · next element encoded =>
    split at he
    · next items array =>
      obtain rfl := Option.some.inj he
      have items' : ∀ e' ∈ itemLiterals renames element (GoType.elementOrSelf native) items,
          Unbroken e'.text := by
        intro e' he'
        obtain ⟨item, hitem, he'⟩ := mem_filterMap.mp he'
        split at he'
        · next t =>
          have scalar := Literal.allChars_parse (ht encoded rfl) array hitem
          refine unbroken_literalFor (GoType.unbroken_ofNative new (GoType.allChars_elementOrSelf hn))
            ?_ he'
          rintro t' ⟨rfl⟩
          exact scalar
        · cases he'
      rw [Go.Expr.text, texts_eq_map]
      refine ((type.append (by decide)).append (AllChars.join (by decide) ?_)).append (by decide)
      intro t ht'
      obtain ⟨e', he', rfl⟩ := mem_map.mp ht'
      exact items' e' he'
    · exact single he
  · exact single he

end GoTrees
