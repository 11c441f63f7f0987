import GoTrees.Proofs.Merging

/-!
# Merging a second time

What a merge writes for a block depends only on the body that the block has after the merge: its own, or that
of the first kept block of its key. If the keys of the regenerated text are all different, each block of the
merged text is found again under its key, with the body that was written for it. So merging the merged text
once more with the regenerated one changes nothing.

    existing ──┐
               ├─merge─▶ merged ──┐
    generated ─┘                  ├─merge─▶ merged
    generated ────────────────────┘
-/

namespace GoTrees.Merge

open Text List

/-! ### One block at a time -/

/-- The lines up to the next end marker. -/
def bodyLines (ls : List String) : List String := ls.takeWhile (!isEnd ·)

/-- The lines after the next end marker. -/
def afterEnd (ls : List String) : List String := (ls.dropWhile (!isEnd ·)).tail

theorem length_afterEnd_le (ls : List String) : (afterEnd ls).length ≤ ls.length := by
  have := (dropWhile_suffix (l := ls) (!isEnd ·)).length_le
  rw [afterEnd, length_tail]
  omega

section Lines

variable {line : String} {rest : List String}

theorem bodyLines_cons_end (h : isEnd line = true) : bodyLines (line :: rest) = [] :=
  takeWhile_cons_of_neg (by simp [h])

theorem bodyLines_cons (h : isEnd line = false) : bodyLines (line :: rest) = line :: bodyLines rest :=
  takeWhile_cons_of_pos (by simp [h])

theorem afterEnd_cons_end (h : isEnd line = true) : afterEnd (line :: rest) = rest := by
  rw [afterEnd, dropWhile_cons_of_neg (by simp [h]), List.tail_cons]

theorem afterEnd_cons (h : isEnd line = false) : afterEnd (line :: rest) = afterEnd rest := by
  rw [afterEnd, dropWhile_cons_of_pos (by simp [h]), afterEnd]

end Lines

theorem blocksFrom_some (ls : List String) (b : Block) : blocksFrom (some b) ls =
    { b with body := b.body ++ bodyLines ls } :: blocksFrom none (afterEnd ls) := by
  induction ls generalizing b with
  | nil => simp [blocksFrom, bodyLines, afterEnd]
  | cons line rest ih =>
    rw [blocksFrom]
    cases hend : isEnd line with
    | true => simp [bodyLines_cons_end hend, afterEnd_cons_end hend]
    | false => simp [ih, bodyLines_cons hend, afterEnd_cons hend]

theorem mergeFrom_some (kept : List Block) (s : Inside) (ls : List String) :
    mergeFrom kept (some s) ls = (if s.keepsBody then bodyLines ls else []) ++
      s.close :: mergeFrom kept none (afterEnd ls) := by
  induction ls with
  | nil => simp [mergeFrom, bodyLines, afterEnd]
  | cons line rest ih =>
    rw [mergeFrom]
    cases hend : isEnd line with
    | true => simp [bodyLines_cons_end hend, afterEnd_cons_end hend]
    | false =>
      rw [afterEnd_cons hend, ih]
      cases s.keepsBody <;> simp [bodyLines_cons hend]

theorem mergeFrom_begin (kept : List Block) {line key : String} (h : beginKey? line = some key)
    (rest : List String) : mergeFrom kept none (line :: rest) =
      line :: (Block.revised kept ⟨key, bodyLines rest⟩).body ++
        closing (leadingBlanks line) :: mergeFrom kept none (afterEnd rest) := by
  cases found : kept.find? (·.key == key) with
  | none =>
    rw [mergeFrom_own rest h found, mergeFrom_some, Block.revised_of_none found]
    rfl
  | some hand =>
    rw [mergeFrom_kept rest h found, mergeFrom_some, Block.revised_of_some found]
    simp [Inside.close, closing]

theorem blocksFrom_begin_end {line key : String} (h : beginKey? line = some key) (rest : List String) :
    blocksFrom none (line :: rest) = ⟨key, bodyLines rest⟩ :: blocksFrom none (afterEnd rest) := by
  rw [blocksFrom_begin rest h, blocksFrom_some]
  rfl

/-- Blocks that give the same bodies give the same merged lines. -/
theorem mergeFrom_congr {kept kept' : List Block} (n : Nat) (ls : List String) (short : ls.length ≤ n)
    (same : ∀ b ∈ blocksFrom none ls, b.revised kept' = b.revised kept) :
    mergeFrom kept' none ls = mergeFrom kept none ls := by
  -- the lines after a block are no tail that the recursion of `mergeFrom` reaches, hence the bound
  induction n generalizing ls with
  | zero =>
    rw [length_eq_zero_iff.mp (Nat.le_zero.mp short), mergeFrom, mergeFrom]
  | succ n ih =>
    cases ls with
    | nil => rw [mergeFrom, mergeFrom]
    | cons line rest =>
      rw [length_cons, Nat.succ_le_succ_iff] at short
      cases key : beginKey? line with
      | none =>
        rw [blocksFrom_plain rest key] at same
        rw [mergeFrom_plain rest key, mergeFrom_plain rest key, ih rest short same]
      | some k =>
        rw [blocksFrom_begin_end key, forall_mem_cons] at same
        have after := ih (afterEnd rest) ((length_afterEnd_le rest).trans short) same.2
        rw [mergeFrom_begin kept' key, mergeFrom_begin kept key, same.1, after]

/-! ### Texts -/

/-- With different keys, a block that has got its body gets it again. -/
theorem revised_map_revised {kept bs : List Block} (distinct : (bs.map Block.key).Nodup) {b : Block}
    (hb : b ∈ bs) : b.revised (bs.map (·.revised kept)) = b.revised kept := by
  have keys : (bs.map (·.revised kept)).map Block.key = bs.map Block.key := by
    rw [map_map]
    rfl
  have found : (bs.map (·.revised kept)).find? (·.key == b.key) = some (b.revised kept) :=
    find?_key (keys ▸ distinct) (b.revised kept) (mem_map_of_mem hb)
  rw [Block.revised_of_some found]
  rfl

/-- A merged text is not changed by a second merge with the same regenerated text. -/
theorem merge_again {existing generated : String} (hand : NoReturns existing) (own : NoReturns generated)
    (distinct : ((blocks generated).map Block.key).Nodup) :
    merge (merge existing generated) generated = merge existing generated := by
  have merged : blocks (merge existing generated) = (blocks generated).map (·.revised (blocks existing)) := by
    rw [blocks, lines_merge hand own, blocksFrom_mergeFrom fun b => sound_of_mem_blocks b]
    rfl
  have same : mergeFrom (blocks (merge existing generated)) none (lines generated) =
      mergeFrom (blocks existing) none (lines generated) := by
    refine mergeFrom_congr _ _ le_rfl fun b hb => ?_
    rw [merged]
    exact revised_map_revised distinct hb
  rw [merge, same, merge]

/-! ### Texts without hand-written code -/

/-- A line without the carriage return that would become part of its line end. -/
def dropReturn (l : String) : String :=
  if l.toList.getLast? = some '\r' then .ofList l.toList.dropLast else l

theorem noReturn_of_dropReturn {l : String} (h : l = dropReturn l) : l.toList.getLast? ≠ some '\r' := by
  intro last
  have shorter := congrArg (·.toList.length) h
  simp only [dropReturn, last, if_true, String.toList_ofList, length_dropLast] at shorter
  have nonempty : l.toList ≠ [] := by
    intro empty
    simp [empty] at last
  have := length_pos_iff.mpr nonempty
  omega

theorem lineChars_append_return (rest : List Char) : ∀ l : List Char, '\n' ∉ l →
    lineChars (l ++ '\r' :: '\n' :: rest) = l :: lineChars rest
  | [], _ => by rw [List.nil_append, lineChars]
  | c :: l, feed => by
      rw [mem_cons, not_or] at feed
      have next : c = '\r' → (l ++ '\r' :: '\n' :: rest).head? ≠ some '\n' := by
        rintro -
        cases l with
        | nil => simp
        | cons d l =>
          have other : '\n' ≠ d := fun same => feed.2 (same ▸ mem_cons_self)
          simpa using Ne.symm other
      rw [cons_append, lineChars_cons (Ne.symm feed.1) next, lineChars_append_return rest l feed.2]
      rfl

/-- A line comes back from a text without one carriage return at its end. -/
theorem lines_unlines_cons {l : String} (feed : '\n' ∉ l.toList) (ls : List String) :
    lines (unlines (l :: ls)) = dropReturn l :: lines (unlines ls) := by
  rw [lines, toList_unlines_cons, dropReturn]
  split
  · next last =>
    have front : l.toList = l.toList.dropLast ++ ['\r'] := (dropLast_append_getLast? _ last).symm
    have flat : '\n' ∉ l.toList.dropLast := fun h => feed (dropLast_subset _ h)
    rw [front, List.append_assoc, singleton_append, lineChars_append_return _ _ flat, ← front]
    simp [lines]
  · next last =>
    rw [lineChars_append_feed _ _ feed last]
    simp [lines]

/-- Lines that come back after a merge without hand-written blocks end in no carriage return. -/
theorem noReturn_of_lines_merge (ls : List String) : ∀ state : Option Inside,
    (∀ s ∈ state, s.keepsBody = true ∧ IsLine s.close) → (∀ l ∈ ls, '\n' ∉ l.toList) →
    lines (unlines (mergeFrom [] state ls)) = ls → ∀ l ∈ ls, l.toList.getLast? ≠ some '\r' := by
  induction ls with
  | nil => simp
  | cons line rest ih =>
    intro state inside feed same
    rw [forall_mem_cons] at feed ⊢
    -- A line that is copied comes back as it is; then the lines behind it do, too.
    have copied (state' : Option Inside) (h : mergeFrom [] state (line :: rest) =
      line :: mergeFrom [] state' rest)
        (inside' : IsLine line → ∀ s ∈ state', s.keepsBody = true ∧ IsLine s.close) :
        line.toList.getLast? ≠ some '\r' ∧ ∀ l ∈ rest, l.toList.getLast? ≠ some '\r' := by
      rw [h, lines_unlines_cons feed.1, List.cons.injEq] at same
      have first := noReturn_of_dropReturn same.1.symm
      exact ⟨first, ih state' (inside' ⟨feed.1, first⟩) feed.2 same.2⟩
    cases state with
    | none =>
      cases key : beginKey? line with
      | none => exact copied none (mergeFrom_plain rest key) fun _ => by simp
      | some k =>
        refine copied _ (mergeFrom_own rest key rfl) fun isLine => ?_
        rintro s ⟨rfl⟩
        exact ⟨rfl, isLine_close isLine true⟩
    | some s =>
      obtain ⟨keeps, close⟩ := inside s rfl
      cases hend : isEnd line with
      | true =>
        rw [mergeFrom, if_pos hend, lines_unlines_cons close.noFeed, List.cons.injEq, dropReturn,
          if_neg close.noReturn] at same
        exact ⟨same.1 ▸ close.noReturn, ih none (by simp) feed.2 same.2⟩
      | false =>
        refine copied (some s) ?_ fun _ => inside
        rw [mergeFrom, if_neg (by simp [hend]), if_pos keeps]

/-- A text that a merge without hand-written blocks keeps has no line that ends in a carriage return. -/
theorem noReturns_of_merge_empty {generated : String} (h : merge "" generated = generated) :
    NoReturns generated := by
  have nothing : blocks "" = [] := by simp [blocks, lines, lineChars, blocksFrom]
  have same := congrArg lines h
  rw [merge, nothing] at same
  exact noReturn_of_lines_merge _ none (by simp) (fun _ => feed_notMem_lines) same

theorem merge_self {generated : String} (h : merge "" generated = generated)
    (distinct : ((blocks generated).map Block.key).Nodup) : merge generated generated = generated := by
  have none : NoReturns "" := by decide
  have again := merge_again none (noReturns_of_merge_empty h) distinct
  rwa [h] at again

end GoTrees.Merge
