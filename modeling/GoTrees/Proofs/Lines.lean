import GoTrees.Proofs.Characters
import GoTrees.Text.Lines

/-!
# Lines that are read back

A text of lines is split into the same lines again, provided that no line holds a line feed and none ends
in a carriage return, which would become part of the line end. The lines of any text hold no line feed.
-/

namespace GoTrees.Text

open List

/-- A text that is read back when it stands on a line of its own. -/
structure IsLine (l : String) : Prop where
  noFeed : '\n' ∉ l.toList
  noReturn : l.toList.getLast? ≠ some '\r'

theorem Unbroken.isLine {s : String} (h : Unbroken s) : IsLine s :=
  ⟨fun feed => (h _ feed).1 rfl, fun ret => (h _ (mem_of_getLast? ret)).2 rfl⟩

/-! ### Splitting -/

theorem lineChars_cons {c : Char} {cs : List Char} (feed : c ≠ '\n')
    (ret : c = '\r' → cs.head? ≠ some '\n') : lineChars (c :: cs) = consLine c (lineChars cs) := by
  rw [lineChars]
  · exact feed
  · rintro rest rfl rfl
    exact ret rfl rfl

/-- A line that does not end with a return is the first of the lines. -/
theorem lineChars_append_feed (rest : List Char) : ∀ l : List Char, '\n' ∉ l →
    l.getLast? ≠ some '\r' → lineChars (l ++ '\n' :: rest) = l :: lineChars rest
  | [], _, _ => rfl
  | [c], feed, ret => by
      have hc : c ≠ '\r' := by rintro rfl; exact ret rfl
      rw [cons_append, List.nil_append, lineChars_cons (by rintro rfl; simp at feed) (absurd · hc)]
      rfl
  | c :: d :: l, feed, ret => by
      rw [mem_cons, not_or] at feed
      have rest' := lineChars_append_feed rest (d :: l) feed.2 (by rwa [getLast?_cons_cons] at ret)
      have next : c = '\r' → (d :: l ++ '\n' :: rest).head? ≠ some '\n' := by
        rintro - h
        obtain rfl : d = '\n' := by simpa using h
        exact feed.2 mem_cons_self
      rw [cons_append, lineChars_cons (Ne.symm feed.1) next, rest']
      rfl

theorem mem_consLine {c : Char} {l : List Char} : ∀ {ls : List (List Char)}, l ∈ consLine c ls →
    l ∈ ls ∨ l = [c] ∨ ∃ l' ∈ ls, l = c :: l'
  | [], h => .inr (.inl (by simpa [consLine] using h))
  | l' :: ls, h => by
      rcases mem_cons.mp h with rfl | h
      · exact .inr (.inr ⟨l', mem_cons_self, rfl⟩)
      · exact .inl (mem_cons_of_mem _ h)

theorem feed_notMem_lineChars (cs : List Char) : ∀ l ∈ lineChars cs, '\n' ∉ l := by
  fun_induction lineChars cs with
  | case1 => simp
  | case2 cs ih => simpa using ih
  | case3 cs ih => simpa using ih
  | case4 c cs feed _ ih =>
    intro l hl
    rcases mem_consLine hl with hl | rfl | ⟨l', hl', rfl⟩
    · exact ih l hl
    · simpa using Ne.symm feed
    · simpa [Ne.symm feed] using ih l' hl'

theorem feed_notMem_lines {s l : String} (h : l ∈ lines s) : '\n' ∉ l.toList := by
  obtain ⟨cs, hcs, rfl⟩ := mem_map.mp h
  rw [String.toList_ofList]
  exact feed_notMem_lineChars _ cs hcs

/-! ### Joining -/

@[simp] theorem unlines_nil : unlines [] = "" := rfl

@[simp] theorem toList_unlines_cons (l : String) (ls : List String) :
    (unlines (l :: ls)).toList = l.toList ++ '\n' :: (unlines ls).toList := by
  simp [unlines, String.toList_join]

theorem unlines_append (as bs : List String) : unlines (as ++ bs) = unlines as ++ unlines bs := by
  apply String.toList_inj.mp
  simp [unlines, String.toList_join]

/-- Lines that can be read back are read back. -/
theorem lines_unlines : ∀ ls : List String, (∀ l ∈ ls, IsLine l) → lines (unlines ls) = ls
  | [], _ => rfl
  | l :: ls, h => by
      have first := h l mem_cons_self
      have rest := lines_unlines ls fun l' hl' => h l' (mem_cons_of_mem _ hl')
      rw [lines, toList_unlines_cons, lineChars_append_feed _ _ first.noFeed first.noReturn,
        map_cons, String.ofList_toList]
      rw [lines] at rest
      rw [rest]

end GoTrees.Text
