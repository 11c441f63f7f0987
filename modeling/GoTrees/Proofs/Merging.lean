import GoTrees.Proofs.Lines
import GoTrees.Workspace.Merge

/-!
# Merging keeps hand-written code

The body of a block holds no end marker, whichever text it comes from, and the end marker that is written
for a block is one. So the merged lines are cut into blocks at the same places as the regenerated ones:
each scan of the merged lines runs in step with the scan of the regenerated ones, and the block that it is
in is the regenerated one with the kept body in place of its own.
-/

namespace GoTrees.Merge

open Text List

variable {s indent key k : String} {c : Char} {kept : List Block}

/-- The text holds no blanks. -/
abbrev Solid (s : String) : Prop := AllChars (isBlank · = false) s

/-- The text holds nothing but blanks. -/
abbrev Blank (s : String) : Prop := AllChars (isBlank · = true) s

theorem trim_append {front : String} (blank : Blank front) (s : String) : trim (front ++ s) = trim s := by
  rw [trim, trim, String.toList_append, trimBy, trimBy, dropWhile_append_of_pos blank]

theorem trim_eq_self (solid : Solid s) : trim s = s := by
  have front : s.toList.dropWhile isBlank = s.toList := by
    cases hs : s.toList with
    | nil => rfl
    | cons c cs => exact dropWhile_cons_of_neg (by simp [solid c (by simp [hs])])
  rw [trim, trimBy, front, trimEndBy_eq_self fun c hc => solid c (mem_of_getLast? hc),
    String.ofList_toList]

/-! ### Markers -/

def opening (indent key : String) : String := indent ++ (beginMarker ++ (" " ++ key))

/-- The line that ends a block. -/
def closing (indent : String) : String := indent ++ endMarker

theorem isEnd_closing (blank : Blank indent) : isEnd (closing indent) = true := by
  have marker : trim endMarker = endMarker := by decide
  rw [isEnd, closing, trim_append blank, marker, beq_self_eq_true]

theorem blank_leadingBlanks (line : String) : Blank (leadingBlanks line) := by
  intro c hc
  rw [leadingBlanks, String.toList_ofList] at hc
  exact all_eq_true.mp all_takeWhile c hc

/-- The end marker that is written for a block ends it. -/
theorem isEnd_close (line : String) (keepsBody : Bool) :
    isEnd (Inside.close ⟨leadingBlanks line, keepsBody⟩) = true :=
  isEnd_closing (blank_leadingBlanks line)

theorem trim_of_head (head : s.toList.head? = some c)
    (solid : isBlank c = false) : trim s = trimEnd s := by
  obtain ⟨cs, hs⟩ := head?_eq_some_iff.mp head
  rw [trim, trimBy, hs, dropWhile_cons_of_neg (by simp [solid]), trimEnd, hs]

theorem toList_trimEnd_begin (s : String) :
    (trimEnd (beginMarker ++ s)).toList = beginMarker.toList ++ (trimEnd s).toList := by
  have last : beginMarker.toList.getLast? = some 'E' := by decide
  have ink : ∀ c ∈ beginMarker.toList.getLast?, isBlank c = false := by
    rw [last]
    rintro c ⟨rfl⟩
    decide
  rw [trimEnd, trimEnd, String.toList_ofList, String.toList_ofList, String.toList_append,
    trimEndBy_append ink]

/-- The key of a block is read back from the line that begins it. -/
theorem beginKey?_opening (blank : Blank indent) (solid : Solid key) :
    beginKey? (opening indent key) = some key := by
  have spaced : trim (trimEnd (" " ++ key)) = key := by
    cases hk : key.toList with
    | nil =>
      obtain rfl : key = "" := String.toList_eq_nil_iff.mp hk
      decide
    | cons c cs =>
      have last : ∀ d ∈ (" " ++ key).toList.getLast?, isBlank d = false := by
        intro d hd
        rw [String.toList_append, getLast?_append_of_ne_nil _ (by simp [hk])] at hd
        exact solid d (mem_of_getLast? hd)
      rw [trimEnd, trimEndBy_eq_self last, String.ofList_toList, trim_append (by decide),
        trim_eq_self solid]
  have head : (beginMarker ++ (" " ++ key)).toList.head? = some '/' := by
    rw [String.toList_append]
    rfl
  rw [beginKey?, opening, trim_append blank, trim_of_head head (by decide), afterLead?, dropLead?,
    toList_trimEnd_begin, if_pos (by simp), drop_left]
  simp [spaced]

theorem leadingBlanks_opening (blank : Blank indent) (key : String) :
    leadingBlanks (opening indent key) = indent := by
  have marker : (beginMarker ++ (" " ++ key)).toList.takeWhile isBlank = [] := by
    rw [String.toList_append]
    exact takeWhile_cons_of_neg (by decide)
  rw [leadingBlanks, opening, String.toList_append, takeWhile_append_of_pos blank, marker,
    List.append_nil, String.ofList_toList]

theorem unbroken_opening (hi : Unbroken indent) (hk : Unbroken key) :
    Unbroken (opening indent key) :=
  hi.append (.append (by decide) (.append (by decide) hk))

theorem unbroken_closing (hi : Unbroken indent) : Unbroken (closing indent) :=
  hi.append (by decide)

theorem beginMarker_leads (blank : Blank indent) (head : s.toList.head? = some c) (solid : isBlank c = false)
    (h : beginKey? (indent ++ s) = some key) : beginMarker.toList <+: s.toList := by
  rw [beginKey?, trim_append blank, trim_of_head head solid, Option.map_eq_some_iff] at h
  obtain ⟨rest, hrest, -⟩ := h
  rw [afterLead?, dropLead?, trimEnd, String.toList_ofList] at hrest
  split at hrest
  · next lead => exact (List.isPrefixOf_iff_prefix.mp lead).trans (trimEndBy_leads isBlank _)
  · cases hrest

theorem beginKey?_code (blank : Blank indent) (head : s.toList.head? = some c) (solid : isBlank c = false)
    (slash : c ≠ '/') : beginKey? (indent ++ s) = none := by
  refine Option.eq_none_iff_forall_ne_some.mpr fun key h => slash ?_
  obtain ⟨rest, hs⟩ := beginMarker_leads blank head solid h
  rw [← hs] at head
  exact (Option.some.inj head).symm

/-- A comment that does not say what the marker says begins no block. -/
theorem beginKey?_comment {t : String} (other : ¬ "<<<".toList <+: t.toList) :
    beginKey? ("// " ++ t) = none := by
  refine Option.eq_none_iff_forall_ne_some.mpr fun key h => other ?_
  have head : ("// " ++ t).toList.head? = some '/' := by
    rw [String.toList_append]
    rfl
  have unindented : beginKey? ("" ++ ("// " ++ t)) = some key := by
    rw [String.empty_append]
    exact h
  have marker := beginMarker_leads (by decide) head (by decide) unindented
  have text : "// ".toList ++ beginText.toList <+: "// ".toList ++ t.toList := by
    simpa [beginMarker] using marker
  exact List.IsPrefix.trans (by decide) ((prefix_append_right_inj _).mp text)

/-- An end marker begins no block. -/
theorem beginKey?_closing (blank : Blank indent) : beginKey? (closing indent) = none := by
  refine Option.eq_none_iff_forall_ne_some.mpr fun key h => ?_
  exact absurd (beginMarker_leads blank (c := '/') (by decide) (by decide) h) (by decide)

/-- A begin marker ends no block. -/
theorem isEnd_opening (blank : Blank indent) (key : String) :
    isEnd (opening indent key) = false := by
  have head : (beginMarker ++ (" " ++ key)).toList.head? = some '/' := by
    rw [String.toList_append]
    rfl
  rw [isEnd, opening, trim_append blank, trim_of_head head (by decide), beq_eq_false_iff_ne]
  intro h
  have lead : beginMarker.toList <+: endMarker.toList := by
    rw [← h, toList_trimEnd_begin]
    exact prefix_append _ _
  exact absurd lead (by decide)

/-- A line of code ends no block. -/
theorem isEnd_code (blank : Blank indent) (head : s.toList.head? = some c) (solid : isBlank c = false)
    (slash : c ≠ '/') : isEnd (indent ++ s) = false := by
  obtain ⟨cs, hs⟩ := head?_eq_some_iff.mp head
  rw [isEnd, trim_append blank, trim_of_head head solid, beq_eq_false_iff_ne]
  intro h
  have first : (trimEnd s).toList.head? = some c := by
    rw [trimEnd, String.toList_ofList, hs, ← singleton_append,
      trimEndBy_append (by simpa using solid)]
    rfl
  rw [h] at first
  exact slash (Option.some.inj first).symm

/-! ### Blocks -/

def Block.Sound (b : Block) : Prop := ∀ l ∈ b.body, isEnd l = false

/-- The blocks of a text do not hold lines that end them. -/
theorem sound_of_mem_blocksFrom : ∀ (current : Option Block) (ls : List String),
    (∀ b ∈ current, b.Sound) → ∀ b ∈ blocksFrom current ls, b.Sound
  | none, [], _ => by simp [blocksFrom]
  | some block, [], h => by simpa [blocksFrom] using h
  | none, line :: rest, _ => by
      rw [blocksFrom]
      split
      · exact sound_of_mem_blocksFrom _ rest (by simp [Block.Sound])
      · exact sound_of_mem_blocksFrom none rest nofun
  | some block, line :: rest, h => by
      have sound : block.Sound := h block rfl
      rw [blocksFrom]
      split
      · rw [forall_mem_cons]
        exact ⟨sound, sound_of_mem_blocksFrom none rest nofun⟩
      · next more =>
        refine sound_of_mem_blocksFrom _ rest ?_
        rintro b ⟨rfl⟩
        simpa [Block.Sound, or_imp, forall_and] using ⟨sound, by simpa using more⟩

/-- The lines of the blocks are lines of the text. -/
theorem mem_of_mem_blocksFrom {l : String} : ∀ (current : Option Block) (ls : List String),
    ∀ b ∈ blocksFrom current ls, l ∈ b.body → l ∈ ls ∨ ∃ b' ∈ current, l ∈ b'.body
  | none, [], b, hb, _ => by simp [blocksFrom] at hb
  | some block, [], b, hb, hl => by
      obtain rfl : b = block := by simpa [blocksFrom] using hb
      exact .inr ⟨b, rfl, hl⟩
  | none, line :: rest, b, hb, hl => by
      rw [blocksFrom] at hb
      split at hb
      · rcases mem_of_mem_blocksFrom _ rest b hb hl with h | ⟨_, ⟨rfl⟩, h⟩
        · exact .inl (mem_cons_of_mem _ h)
        · simp at h
      · rcases mem_of_mem_blocksFrom none rest b hb hl with h | ⟨_, h, _⟩
        · exact .inl (mem_cons_of_mem _ h)
        · cases h
  | some block, line :: rest, b, hb, hl => by
      rw [blocksFrom] at hb
      split at hb
      · rcases mem_cons.mp hb with rfl | hb
        · exact .inr ⟨b, rfl, hl⟩
        · rcases mem_of_mem_blocksFrom none rest b hb hl with h | ⟨_, h, _⟩
          · exact .inl (mem_cons_of_mem _ h)
          · cases h
      · rcases mem_of_mem_blocksFrom _ rest b hb hl with h | ⟨_, ⟨rfl⟩, h⟩
        · exact .inl (mem_cons_of_mem _ h)
        · rcases mem_append.mp h with h | h
          · exact .inr ⟨block, rfl, h⟩
          · exact .inl (by simp [mem_singleton.mp h])

/-- Lines that hold no end marker belong to the block that they stand in. -/
theorem blocksFrom_append (rest : List String) : ∀ (body : List String) (b : Block),
    (∀ l ∈ body, isEnd l = false) → blocksFrom (some b) (body ++ rest) =
      blocksFrom (some { b with body := b.body ++ body }) rest
  | [], b, _ => by simp
  | l :: body, b, h => by
      rw [forall_mem_cons] at h
      rw [cons_append, blocksFrom, if_neg (by simp [h.1]), blocksFrom_append rest body _ h.2]
      simp

/-- The block with the body of the first kept block of its key, if there is one. -/
def Block.revised (kept : List Block) (b : Block) : Block :=
  { b with body := ((kept.find? (·.key == b.key)).getD b).body }

theorem Block.revised_of_none {b : Block}
    (h : kept.find? (·.key == b.key) = none) : b.revised kept = b := by
  simp [revised, h]

theorem Block.revised_of_some {b hand : Block}
    (h : kept.find? (·.key == b.key) = some hand) : b.revised kept = { b with body := hand.body } := by
  simp [revised, h]

/-- Among blocks of different keys, each is found under its key. -/
theorem find?_key : ∀ {bs : List Block}, (bs.map Block.key).Nodup → ∀ b ∈ bs,
    bs.find? (·.key == b.key) = some b
  | first :: bs, distinct, b, hb => by
      rw [map_cons, nodup_cons] at distinct
      rcases mem_cons.mp hb with rfl | hb
      · rw [find?_cons_of_pos (by simp)]
      · have other : first.key ≠ b.key := fun same => distinct.1 (same ▸ mem_map_of_mem hb)
        rw [find?_cons_of_neg (by simpa using other), find?_key distinct.2 b hb]

section InStep

variable {kept : List Block} {line : String} (rest : List String)

theorem mergeFrom_plain (h : beginKey? line = none) :
    mergeFrom kept none (line :: rest) = line :: mergeFrom kept none rest := by
  simp [mergeFrom, h]

theorem mergeFrom_own (h : beginKey? line = some k)
    (found : kept.find? (·.key == k) = none) : mergeFrom kept none (line :: rest) =
      line :: mergeFrom kept (some ⟨leadingBlanks line, true⟩) rest := by
  simp [mergeFrom, h, found]

theorem mergeFrom_kept {hand : Block} (h : beginKey? line = some k)
    (found : kept.find? (·.key == k) = some hand) : mergeFrom kept none (line :: rest) =
      line :: hand.body ++ mergeFrom kept (some ⟨leadingBlanks line, false⟩) rest := by
  simp [mergeFrom, h, found]

theorem blocksFrom_plain (h : beginKey? line = none) :
    blocksFrom none (line :: rest) = blocksFrom none rest := by
  simp [blocksFrom, h]

theorem blocksFrom_begin (h : beginKey? line = some k) :
    blocksFrom none (line :: rest) = blocksFrom (some ⟨k, []⟩) rest := by
  simp [blocksFrom, h]

mutual

/-- Outside a block, the blocks that follow are the regenerated ones with the kept bodies. -/
theorem blocksFrom_mergeFrom (sound : ∀ b ∈ kept, b.Sound) : ∀ ls : List String,
    blocksFrom none (mergeFrom kept none ls) = (blocksFrom none ls).map (·.revised kept)
  | [] => rfl
  | line :: rest => by
      cases key : beginKey? line with
      | none =>
        rw [mergeFrom_plain rest key, blocksFrom_plain _ key, blocksFrom_plain _ key]
        exact blocksFrom_mergeFrom sound rest
      | some k =>
        rw [blocksFrom_begin rest key]
        cases found : kept.find? (·.key == k) with
        | none =>
          have inside := blocksFrom_mergeFrom_inside sound (isEnd_close line true) ⟨k, []⟩ rest
            (by simp [found])
          rw [Block.revised_of_none found] at inside
          rw [mergeFrom_own rest key found, blocksFrom_begin _ key, inside]
        | some hand =>
          have inside := blocksFrom_mergeFrom_inside sound (isEnd_close line false) ⟨k, []⟩ rest
            (by simp [found])
          have body := sound hand (mem_of_find?_eq_some found)
          rw [Block.revised_of_some found] at inside
          rw [mergeFrom_kept rest key found, cons_append, blocksFrom_begin _ key,
            blocksFrom_append _ _ _ body]
          exact inside

/-- Inside a block merging keeps the body, or passes over it for the kept one. -/
theorem blocksFrom_mergeFrom_inside (sound : ∀ b ∈ kept, b.Sound) {s : Inside}
    (close : isEnd s.close = true) (b : Block) : ∀ ls : List String,
    s.keepsBody = (kept.find? (·.key == b.key)).isNone →
    blocksFrom (some (b.revised kept)) (mergeFrom kept (some s) ls) =
      (blocksFrom (some b) ls).map (·.revised kept)
  | [], _ => by simp [mergeFrom, blocksFrom, close]
  | line :: rest, keeps => by
      rw [mergeFrom, blocksFrom]
      by_cases hend : isEnd line = true
      · simp only [hend, if_true, blocksFrom, close, map_cons, blocksFrom_mergeFrom sound rest]
      · have longer := blocksFrom_mergeFrom_inside sound close { b with body := b.body ++ [line] } rest
          keeps
        rw [if_neg hend, if_neg hend, ← longer]
        cases found : kept.find? (·.key == b.key) with
        | none =>
          have own : s.keepsBody = true := by simp [keeps, found]
          rw [if_pos own, blocksFrom, if_neg hend, Block.revised_of_none found,
            Block.revised_of_none (b := ⟨b.key, b.body ++ [line]⟩) found]
        | some hand =>
          have kept' : ¬ s.keepsBody = true := by simp [keeps, found]
          rw [if_neg kept', Block.revised_of_some found,
            Block.revised_of_some (b := ⟨b.key, b.body ++ [line]⟩) found]

end

end InStep

/-! ### The frame around the blocks -/

/-- The lines that neither belong to the body of a block nor end one; `inside` tells whether the lines
start inside a block. -/
def frameFrom : Bool → List String → List String
  | _, [] => []
  | false, line :: rest => line :: frameFrom (beginKey? line).isSome rest
  | true, line :: rest => frameFrom (!isEnd line) rest

/-- The lines of a text that neither belong to the body of a block nor end one. -/
def frame (text : String) : List String := frameFrom false (lines text)

theorem frameFrom_append (rest : List String) : ∀ body : List String, (∀ l ∈ body, isEnd l = false) →
    frameFrom true (body ++ rest) = frameFrom true rest
  | [], _ => rfl
  | l :: body, h => by
      rw [forall_mem_cons] at h
      rw [cons_append, frameFrom, h.1]
      exact frameFrom_append rest body h.2

/-- Merging leaves the lines outside of blocks as they are. -/
theorem frameFrom_mergeFrom (sound : ∀ b ∈ kept, b.Sound) :
    ∀ (state : Option Inside) (ls : List String), (∀ s ∈ state, isEnd s.close = true) →
      frameFrom state.isSome (mergeFrom kept state ls) = frameFrom state.isSome ls
  | none, [], _ => rfl
  | some s, [], _ => by simp [mergeFrom, frameFrom]
  | none, line :: rest, _ => by
      cases key : beginKey? line with
      | none =>
        rw [mergeFrom_plain rest key]
        simpa [frameFrom, key] using frameFrom_mergeFrom sound none rest nofun
      | some k =>
        have inside (keeps : Bool) := frameFrom_mergeFrom sound (some ⟨leadingBlanks line, keeps⟩) rest
          (by rintro s ⟨rfl⟩; exact isEnd_close line keeps)
        cases found : kept.find? (·.key == k) with
        | none =>
          rw [mergeFrom_own rest key found]
          simpa [frameFrom, key] using inside true
        | some hand =>
          have body := sound hand (mem_of_find?_eq_some found)
          rw [mergeFrom_kept rest key found]
          simpa [frameFrom, key, frameFrom_append _ _ body] using inside false
  | some s, line :: rest, close => by
      rw [mergeFrom]
      by_cases hend : isEnd line = true
      · simpa [hend, frameFrom, close s rfl] using frameFrom_mergeFrom sound none rest nofun
      · have inside := frameFrom_mergeFrom sound (some s) rest close
        cases s.keepsBody <;> simpa [hend, frameFrom] using inside

/-! ### Texts -/

theorem isLine_close {line : String} (h : IsLine line) (keepsBody : Bool) :
    IsLine (Inside.close ⟨leadingBlanks line, keepsBody⟩) := by
  constructor
  · intro feed
    rw [Inside.close, String.toList_append, mem_append] at feed
    rcases feed with feed | feed
    · rw [leadingBlanks, String.toList_ofList] at feed
      exact h.noFeed ((takeWhile_sublist _).subset feed)
    · exact absurd feed (by decide)
  · rw [Inside.close, String.toList_append, getLast?_append_of_ne_nil _ (by decide)]
    decide

/-- Merging does not break lines. -/
theorem isLine_of_mem_mergeFrom (hand : ∀ b ∈ kept, ∀ l ∈ b.body, IsLine l) :
    ∀ (state : Option Inside) (ls : List String), (∀ l ∈ ls, IsLine l) →
      (∀ s ∈ state, IsLine s.close) → ∀ l ∈ mergeFrom kept state ls, IsLine l
  | none, [], _, _ => by simp [mergeFrom]
  | some s, [], _, close => by simpa [mergeFrom] using close s rfl
  | none, line :: rest, own, _ => by
      rw [forall_mem_cons] at own
      cases key : beginKey? line with
      | none =>
        rw [mergeFrom_plain rest key, forall_mem_cons]
        exact ⟨own.1, isLine_of_mem_mergeFrom hand none rest own.2 nofun⟩
      | some k =>
        have inside (keeps : Bool) := isLine_of_mem_mergeFrom hand (some ⟨leadingBlanks line, keeps⟩)
          rest own.2 (by rintro s ⟨rfl⟩; exact isLine_close own.1 keeps)
        cases found : kept.find? (·.key == k) with
        | none =>
          rw [mergeFrom_own rest key found, forall_mem_cons]
          exact ⟨own.1, inside true⟩
        | some b =>
          rw [mergeFrom_kept rest key found, cons_append, forall_mem_cons,
            forall_mem_append]
          exact ⟨own.1, hand b (mem_of_find?_eq_some found), inside false⟩
  | some s, line :: rest, own, close => by
      rw [forall_mem_cons] at own
      have inside := isLine_of_mem_mergeFrom hand (some s) rest own.2 close
      rw [mergeFrom]
      split_ifs
      · rw [forall_mem_cons]
        exact ⟨close s rfl, isLine_of_mem_mergeFrom hand none rest own.2 nofun⟩
      · rw [forall_mem_cons]
        exact ⟨own.1, inside⟩
      · exact inside

def NoReturns (text : String) : Prop := ∀ l ∈ lines text, l.toList.getLast? ≠ some '\r'

instance (text : String) : Decidable (NoReturns text) :=
  inferInstanceAs (Decidable (∀ l ∈ lines text, _))

theorem NoReturns.isLine {text : String} (h : NoReturns text) : ∀ l ∈ lines text, IsLine l :=
  fun l hl => ⟨feed_notMem_lines hl, h l hl⟩

/-- Blocks of a text are sound. -/
theorem sound_of_mem_blocks {text : String} : ∀ b ∈ blocks text, b.Sound :=
  sound_of_mem_blocksFrom none _ nofun

/-- The lines of merged texts are their lines merged. -/
theorem lines_merge {existing generated : String} (hand : NoReturns existing)
    (own : NoReturns generated) : lines (merge existing generated) =
      mergeFrom (blocks existing) none (lines generated) := by
  refine lines_unlines _ (isLine_of_mem_mergeFrom ?_ none _ own.isLine nofun)
  intro b hb l hl
  rcases mem_of_mem_blocksFrom none _ b hb hl with h | ⟨_, h, _⟩
  · exact hand.isLine l h
  · cases h

/-- The blocks of a merged text are those of the regenerated one, each with the body of the first existing
block of its key, if there is one, and its other lines are those of the regenerated text. -/
theorem merge_keeps_blocks (existing generated : String) (hand : NoReturns existing)
    (own : NoReturns generated) :
    blocks (merge existing generated) = (blocks generated).map (·.revised (blocks existing)) ∧
      frame (merge existing generated) = frame generated := by
  constructor
  · rw [blocks, lines_merge hand own, blocksFrom_mergeFrom fun b => sound_of_mem_blocks b]
    rfl
  · rw [frame, lines_merge hand own]
    exact frameFrom_mergeFrom (fun b => sound_of_mem_blocks b) none _ nofun

/-- A regenerated file with a stray end marker, a repeated key and a block without an end. -/
def duel : List String :=
  [closing "", opening "\t" "Attack", "\treturn nil", closing "\t", opening "" "Attack"]

/-- An existing copy with a begin marker inside the body of a block without an end. -/
def duelEdited : List String := [opening "" "Attack", opening "" "Rest", "\tstrike()"]

theorem merge_keeps_blocks_duel : NoReturns (unlines duelEdited) ∧ NoReturns (unlines duel) ∧
    blocks (merge (unlines duelEdited) (unlines duel)) =
      [⟨"Attack", [opening "" "Rest", "\tstrike()"]⟩, ⟨"Attack", [opening "" "Rest", "\tstrike()"]⟩] ∧
    frame (merge (unlines duelEdited) (unlines duel)) =
      [closing "", opening "\t" "Attack", opening "" "Attack"] := by
  have attack : beginKey? (opening "" "Attack") = some "Attack" := beginKey?_opening (by decide) (by decide)
  have attack' : beginKey? (opening "\t" "Attack") = some "Attack" :=
    beginKey?_opening (by decide) (by decide)
  have stray : beginKey? (closing "") = none := beginKey?_closing (by decide)
  have final : isEnd (closing "\t") = true := isEnd_closing (by decide)
  have inner : isEnd (opening "" "Rest") = false := isEnd_opening (by decide) _
  have strike : isEnd ("\t" ++ "strike()") = false :=
    isEnd_code (by decide) (c := 's') (by decide) (by decide) (by decide)
  have pass : isEnd ("\t" ++ "return nil") = false :=
    isEnd_code (by decide) (c := 'r') (by decide) (by decide) (by decide)
  replace strike : isEnd "\tstrike()" = false := by simpa using strike
  replace pass : isEnd "\treturn nil" = false := by simpa using pass
  have hand : ∀ l ∈ duelEdited, Unbroken l := by
    simp only [duelEdited, forall_mem_cons, not_mem_nil, false_imp_iff, implies_true, and_true]
    exact ⟨unbroken_opening (by decide) (by decide), unbroken_opening (by decide) (by decide), by decide⟩
  have own : ∀ l ∈ duel, Unbroken l := by
    simp only [duel, forall_mem_cons, not_mem_nil, false_imp_iff, implies_true, and_true]
    exact ⟨unbroken_closing (by decide), unbroken_opening (by decide) (by decide), by decide,
      unbroken_closing (by decide), unbroken_opening (by decide) (by decide)⟩
  have handLines := lines_unlines duelEdited fun l hl => (hand l hl).isLine
  have ownLines := lines_unlines duel fun l hl => (own l hl).isLine
  have handReturns : NoReturns (unlines duelEdited) := by
    rw [NoReturns, handLines]
    exact fun l hl => (hand l hl).isLine.noReturn
  have ownReturns : NoReturns (unlines duel) := by
    rw [NoReturns, ownLines]
    exact fun l hl => (own l hl).isLine.noReturn
  obtain ⟨inBlocks, around⟩ := merge_keeps_blocks _ _ handReturns ownReturns
  refine ⟨handReturns, ownReturns, inBlocks.trans ?_, around.trans ?_⟩
  · rw [blocks, blocks, handLines, ownLines]
    simp [duel, duelEdited, blocksFrom, attack, attack', stray, final, inner, strike, pass, Block.revised]
  · rw [frame, ownLines]
    simp [duel, frameFrom, attack', stray, final, pass]

end GoTrees.Merge
