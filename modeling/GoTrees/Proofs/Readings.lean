import GoTrees.Proofs.Encoding
import GoTrees.Spelling

/-!
# How spellings are read

A word of a spelling ends at a character that no word has, the words end where an angle bracket, a mark, a
comma or nothing follows, and an argument ends at the comma or bracket behind it. So each part is read up
to the part behind it, whatever that is, and what is read in its place is read alone in the same way.

    spelling  ──▶  word ( ␣ word )*  [ < spelling ( , spelling )* > ]  marks
-/

namespace GoTrees

open Text List

/-- A mark of a pointer or a reference. -/
def isMark (c : Char) : Bool := c == '*' || c == '&'

namespace Spelling

open Literal (IsIdentifier Stops stops_cons isSpace_of_isBlank)

variable {cs rest t text w : List Char} {words : List (List Char)} {path : String} {s arg : Spelling}
  {args : List Spelling}

/-- Identifiers with `::` between them. -/
inductive IsPath : String → Prop
  | one {name : String} (h : IsIdentifier name) : IsPath name
  | more {name path : String} (h : IsIdentifier name) (rest : IsPath path) :
      IsPath (name ++ "::" ++ path)

/-- The spellings that have a canonical text: at every depth the name is made of paths that are no qualifiers,
and it is empty only where a qualifier stands. -/
inductive Printable : Spelling → Prop
  | intro {isConst : Bool} {sign : Option Sign} {words : List String} {args : List Spelling}
      {pointer : Nat} {reference : Bool} (paths : ∀ w ∈ words, IsPath w)
      (plain : ∀ w ∈ words, isQualifier w = false)
      (named : words = [] → isConst = true ∨ sign.isSome = true) (inner : ∀ arg ∈ args, Printable arg) :
      Printable ⟨isConst, sign, join " " words, args, pointer, reference⟩

/-! ### Paths -/

theorem edge_of_isWordChar {c : Char} (h : isWordChar c = true) : isBlank c = false ∧ isMark c = false := by
  have underscore : c = '_' ↔ c.toNat = 95 := Char.toNat_inj.symm
  have star : c = '*' ↔ c.toNat = 42 := Char.toNat_inj.symm
  have ampersand : c = '&' ↔ c.toNat = 38 := Char.toNat_inj.symm
  simp only [isWordChar, isWordStart, isLetter, Bool.or_eq_true, Bool.and_eq_true,
    decide_eq_true_eq, beq_iff_eq, char_le_iff, underscore] at h
  simp [isBlank, blankRanges, isMark, star, ampersand] at h ⊢
  omega

theorem IsPath.chars (h : IsPath path) : AllChars (fun c => isWordChar c = true ∨ c = ':') path := by
  have identifier {name : String} (h : IsIdentifier name) :
      AllChars (fun c => isWordChar c = true ∨ c = ':') name := by
    obtain ⟨c, word, hname, start, more⟩ := h.cons
    rw [AllChars, hname]
    exact forall_mem_cons.mpr ⟨.inl (by rw [isWordChar, start, Bool.true_or]), fun d hd => .inl (more d hd)⟩
  induction h with
  | one h => exact identifier h
  | more h _ ih => exact ((identifier h).append (by decide)).append ih

theorem IsPath.edge (h : IsPath path) : AllChars (fun c => isBlank c = false ∧ isMark c = false) path := by
  intro c hc
  rcases h.chars c hc with word | rfl
  · exact edge_of_isWordChar word
  · decide

theorem IsPath.bracket_notMem (h : IsPath path) : '<' ∉ path.toList :=
  fun mem => absurd (h.chars _ mem) (by decide)

theorem IsPath.ne_empty (h : IsPath path) : path ≠ "" := by
  have ne {name : String} (h : IsIdentifier name) : name ≠ "" := by
    rintro rfl
    exact absurd h.1 (by decide)
  cases h with
  | one h => exact ne h
  | more h _ => simp [ne h]

theorem IsPath.head (h : IsPath path) (cs : List Char) :
    ∀ c ∈ (path.toList ++ cs).head?, isSpace c = false := by
  rw [head?_append_of_ne_nil _ (by simpa using h.ne_empty)]
  exact fun c hc => isSpace_of_isBlank (h.edge c (mem_of_head? hc)).1

/-- The characters that can stand behind the words of a spelling. -/
def wordStops : List Char := ['<', '*', '&', ',', '>']

/-- The characters that can stand behind a spelling. -/
def argStops : List Char := [',', '>']

/-- What follows is no part of a path. -/
def EndsPath (rest : List Char) : Prop := ∀ c ∈ rest.head?, isWordChar c = false ∧ c ≠ ':'

theorem endsPath_cons_space {c : Char} (space : isSpace c = true) : EndsPath (c :: t) := by
  rintro _ ⟨rfl⟩
  simp only [isSpace, Bool.or_eq_true, beq_iff_eq] at space
  rcases space with rfl | rfl <;> decide

theorem of_mem_wordStops {c : Char} (h : c ∈ wordStops) : isWordChar c = false ∧ c ≠ ':' := by
  simp only [wordStops, mem_cons, not_mem_nil, or_false] at h
  rcases h with rfl | rfl | rfl | rfl | rfl <;> decide

theorem endsPath_of_stops (h : Stops wordStops (t.dropWhile isSpace)) : EndsPath t := by
  cases t with
  | nil => rintro _ ⟨⟩
  | cons c t =>
    by_cases space : isSpace c = true
    · exact endsPath_cons_space space
    · rw [dropWhile_cons_of_neg space] at h
      exact fun d hd => of_mem_wordStops (h d hd)

theorem dropWhile_isSpace (h : ∀ c ∈ cs.head?, isSpace c = false) :
    cs.dropWhile isSpace = cs := by
  simpa using dropWhile_append_stop h []

theorem dropWhile_gap {gap : List Char} (spaces : ∀ c ∈ gap, isSpace c = true)
    (head : ∀ c ∈ cs.head?, isSpace c = false) : (gap ++ cs).dropWhile isSpace = cs := by
  rw [dropWhile_append_of_pos spaces, dropWhile_isSpace head]

theorem identifier?_append {name : String} (h : IsIdentifier name)
    (ends : ∀ c ∈ rest.head?, isWordChar c = false) :
    identifier? (name.toList ++ rest) = some (name.toList, rest) := by
  obtain ⟨c, word, hname, start, more⟩ := h.cons
  have nothing : word.dropWhile isWordChar = [] := dropWhile_eq_nil_iff.mpr more
  rw [hname, cons_append, identifier?, if_pos start, takeWhile_append_stop more ends,
    dropWhile_append_stop ends, nothing, List.nil_append]

theorem pathTail_end (ends : EndsPath rest) : ∀ fuel, pathTail fuel rest = ([], rest)
  | 0 => by rw [pathTail]; rintro _ _ ⟨⟩
  | fuel + 1 => by
      rw [pathTail]
      rintro _ cs ⟨⟩ rfl
      exact (ends ':' rfl).2 rfl

theorem toList_path (name path : String) :
    (name ++ "::" ++ path).toList = name.toList ++ ':' :: ':' :: path.toList := by
  simp

/-- The parts behind the first identifier of a path are read to their end. -/
theorem pathTail_append (h : IsPath path) (ends : EndsPath rest) :
    ∀ fuel, path.toList.length < fuel →
      pathTail fuel (':' :: ':' :: (path.toList ++ rest)) = (':' :: ':' :: path.toList, rest) := by
  induction h with
  | @one name h =>
    intro fuel long
    obtain ⟨fuel, rfl⟩ := Nat.exists_eq_succ_of_ne_zero (Nat.ne_zero_of_lt long)
    rw [pathTail, identifier?_append h fun c hc => (ends c hc).1]
    simp only [pathTail_end ends, List.append_nil]
  | @more name path h _ ih =>
    intro fuel long
    obtain ⟨fuel, rfl⟩ := Nat.exists_eq_succ_of_ne_zero (Nat.ne_zero_of_lt long)
    have size : path.toList.length < fuel := by
      rw [toList_path] at long
      simp only [length_append, length_cons] at long
      omega
    rw [toList_path, List.append_assoc, cons_append, cons_append, pathTail,
      identifier?_append h (by rintro c ⟨rfl⟩; decide)]
    simp only [ih fuel size, cons_append]

/-- A path is read to its end. -/
theorem path?_append (h : IsPath (.ofList w)) (ends : EndsPath rest) : path? (w ++ rest) = some (w, rest) := by
  suffices read : ∀ {path : String}, IsPath path → path? (path.toList ++ rest) = some (path.toList, rest) by
    simpa using read h
  rintro path (⟨h⟩ | @⟨name, path, h, tail⟩)
  · rw [path?, identifier?_append h fun c hc => (ends c hc).1]
    simp only [Option.map_some, pathTail_end ends, List.append_nil]
  · have read := pathTail_append tail ends (':' :: ':' :: (path.toList ++ rest)).length (by simp; omega)
    rw [toList_path, List.append_assoc, cons_append, cons_append, path?,
      identifier?_append h (by rintro c ⟨rfl⟩; decide)]
    simp only [Option.map_some, read]

theorem of_identifier? {name : List Char} (h : identifier? cs = some (name, rest)) :
    cs = name ++ rest ∧ IsIdentifier (.ofList name) := by
  cases cs with
  | nil => cases h
  | cons c cs =>
    rw [identifier?] at h
    split at h
    · next start =>
      obtain ⟨rfl, rfl⟩ := Prod.mk.inj (Option.some.inj h)
      exact ⟨by rw [cons_append, takeWhile_append_dropWhile], by simpa using start, by simp [all_takeWhile]⟩
    · cases h

theorem isPath_append {name tail : List Char} (h : IsIdentifier (.ofList name))
    (rest : tail = [] ∨ ∃ path, IsPath path ∧ tail = ':' :: ':' :: path.toList) :
    IsPath (.ofList (name ++ tail)) := by
  rcases rest with rfl | ⟨path, hp, rfl⟩
  · rw [List.append_nil]
    exact .one h
  · have shape : String.ofList (name ++ ':' :: ':' :: path.toList) = .ofList name ++ "::" ++ path := by
      rw [← String.toList_inj, toList_path, String.toList_ofList, String.toList_ofList]
    rw [shape]
    exact .more h hp

theorem of_pathTail (fuel : Nat) (cs : List Char) : (pathTail fuel cs).1 ++ (pathTail fuel cs).2 = cs ∧
    ((pathTail fuel cs).1 = [] ∨ ∃ path, IsPath path ∧ (pathTail fuel cs).1 = ':' :: ':' :: path.toList) := by
  fun_induction pathTail fuel cs with
  | case1 fuel cs name rest read more after next ih =>
    obtain ⟨split, name⟩ := of_identifier? read
    rw [next] at ih
    refine ⟨by simp only [cons_append, List.append_assoc, ih.1, ← split], ?_⟩
    exact .inr ⟨_, isPath_append name ih.2, by simp⟩
  | case2 => exact ⟨rfl, .inl rfl⟩
  | case3 => exact ⟨rfl, .inl rfl⟩

theorem of_path? (h : path? cs = some (w, rest)) : cs = w ++ rest ∧ IsPath (.ofList w) := by
  rw [path?, Option.map_eq_some_iff] at h
  obtain ⟨⟨name, after⟩, read, eq⟩ := h
  obtain ⟨rfl, rfl⟩ := Prod.mk.inj eq
  obtain ⟨split, name⟩ := of_identifier? read
  obtain ⟨tail, path⟩ := of_pathTail after.length after
  exact ⟨by rw [List.append_assoc, tail, split], isPath_append name path⟩

/-! ### Words -/

/-- Words, each after spaces. -/
inductive Row : List (List Char) → List Char → Prop
  | nil : Row [] []
  | more {gap word used : List Char} {words : List (List Char)} (some : gap ≠ [])
      (spaces : ∀ c ∈ gap, isSpace c = true) (path : IsPath (.ofList word)) (rest : Row words used) :
      Row (word :: words) (gap ++ (word ++ used))

/-- There is no blank at either end. -/
structure Framed (cs : List Char) : Prop where
  filled : cs ≠ []
  head : ∀ c ∈ cs.head?, isBlank c = false
  last : ∀ c ∈ cs.getLast?, isBlank c = false

theorem Framed.nonspace (h : Framed cs) (t : List Char) :
    ∀ c ∈ (cs ++ t).head?, isSpace c = false := by
  rw [head?_append_of_ne_nil _ h.filled]
  exact fun c hc => isSpace_of_isBlank (h.head c hc)

/-- What starts with no blank is framed up to where it ends with none. -/
theorem framed_append (filled : w ≠ []) (head : ∀ c ∈ w.head?, isBlank c = false)
    (last : ∀ c ∈ (w ++ t).getLast?, isBlank c = false) : Framed (w ++ t) where
  filled := by simp [filled]
  head := by rwa [head?_append_of_ne_nil _ filled]
  last := last

theorem row_of_moreWords (fuel : Nat) (cs : List Char) :
    ∃ used, cs = used ++ (moreWords fuel cs).2 ∧ Row (moreWords fuel cs).1 used := by
  fun_induction moreWords fuel cs with
  | case3 fuel cs some word rest read words after next ih =>
    rw [next] at ih
    obtain ⟨used, split, row⟩ := ih
    obtain ⟨front, path⟩ := of_path? read
    refine ⟨cs.takeWhile isSpace ++ (word ++ used), ?_, .more (by simpa using some)
      (fun c hc => mem_takeWhile_imp hc) path row⟩
    rw [List.append_assoc, List.append_assoc, ← split, ← front, takeWhile_append_dropWhile]
  | _ => exact ⟨[], rfl, .nil⟩

theorem moreWords_stop (h : Stops wordStops (t.dropWhile isSpace)) : ∀ fuel, moreWords fuel t = ([], t)
  | 0 => rfl
  | fuel + 1 => by
      have none : path? (t.dropWhile isSpace) = none := by
        cases after : t.dropWhile isSpace with
        | nil => rfl
        | cons c cs =>
          have stop := (of_mem_wordStops (h c (by rw [after]; rfl))).1
          rw [isWordChar, Bool.or_eq_false_iff] at stop
          rw [path?, identifier?, if_neg (by simp [stop.1]), Option.map_none]
      rw [moreWords, none]
      split <;> rfl

/-- The words are read off the text, up to what is no word. -/
structure Spells (w : List Char) (words : List (List Char)) : Prop where
  framed : Framed w
  clear : '<' ∉ w
  filled : words ≠ []
  paths : ∀ word ∈ words, IsPath (.ofList word)
  read : ∀ t, Stops wordStops (t.dropWhile isSpace) → words? (w ++ t) = some (words, t)

namespace Row

variable {used : List Char}

theorem endsPath (h : Row words used) (ends : EndsPath t) : EndsPath (used ++ t) := by
  cases h with
  | nil => exact ends
  | @more gap word used words some spaces path rest =>
    obtain ⟨c, cs, rfl⟩ := exists_cons_of_ne_nil some
    exact endsPath_cons_space (spaces c mem_cons_self)

/-- A row of words is read back, up to what stops it. -/
theorem moreWords (h : Row words used) (stops : Stops wordStops (t.dropWhile isSpace)) :
    ∀ fuel, used.length ≤ fuel → moreWords fuel (used ++ t) = (words, t) := by
  induction h with
  | nil => exact fun fuel _ => moreWords_stop stops fuel
  | @more gap word used words some spaces path rest ih =>
    intro fuel long
    simp only [length_append] at long
    have size := length_pos_of_ne_nil some
    obtain ⟨fuel, rfl⟩ := Nat.exists_eq_add_of_le' (show 1 ≤ fuel by omega)
    have next := path?_append path (rest.endsPath (endsPath_of_stops stops))
    have front : ∀ c ∈ (word ++ (used ++ t)).head?, isSpace c = false := by simpa using path.head (used ++ t)
    have blank : ((gap ++ (word ++ (used ++ t))).takeWhile isSpace).isEmpty = false := by
      obtain ⟨c, cs, rfl⟩ := exists_cons_of_ne_nil some
      simp [spaces c mem_cons_self]
    rw [List.append_assoc, List.append_assoc, Spelling.moreWords, blank, if_neg Bool.false_ne_true,
      dropWhile_gap spaces front, next]
    simp only [ih fuel (by omega)]

theorem clear (h : Row words used) : '<' ∉ used ∧ ∀ word ∈ words, IsPath (.ofList word) := by
  induction h with
  | nil => simp
  | more some spaces path rest ih =>
    simp only [mem_append, not_or, forall_mem_cons]
    exact ⟨⟨fun mem => absurd (spaces _ mem) (by decide), by simpa using path.bracket_notMem, ih.1⟩, path,
      ih.2⟩

theorem last (h : Row words used) {f : List Char} (edge : ∀ c ∈ f.getLast?, isBlank c = false) :
    ∀ c ∈ (f ++ used).getLast?, isBlank c = false := by
  induction h generalizing f with
  | nil => simpa using edge
  | @more gap word used words some spaces path rest ih =>
    have filled : word ≠ [] := by simpa using path.ne_empty
    have shown : ∀ c ∈ (f ++ gap ++ word).getLast?, isBlank c = false := by
      rw [getLast?_append_of_ne_nil _ filled]
      exact fun c hc => (path.edge c (by simpa using mem_of_getLast? hc)).1
    simpa using ih shown

theorem spells (h : Row words used) (path : IsPath (.ofList w)) : Spells (w ++ used) (w :: words) := by
  have filled : w ≠ [] := by simpa using path.ne_empty
  have edge {c : Char} (hc : c ∈ w) : isBlank c = false := (path.edge c (by simpa using hc)).1
  have framed : Framed (w ++ used) :=
    framed_append filled (fun c hc => edge (mem_of_head? hc)) (h.last fun c hc => edge (mem_of_getLast? hc))
  refine ⟨framed, ?_, by simp, forall_mem_cons.mpr ⟨path, h.clear.2⟩, fun t stops => ?_⟩
  · simpa [h.clear.1] using path.bracket_notMem
  · rw [List.append_assoc, words?, path?_append path (h.endsPath (endsPath_of_stops stops))]
    simp only [Option.map_some, h.moreWords stops (used ++ t).length (by simp)]

end Row

theorem row_of_words? (h : words? cs = some (words, rest)) :
    ∃ w more used, words = w :: more ∧ cs = w ++ used ++ rest ∧ IsPath (.ofList w) ∧ Row more used := by
  rw [words?, Option.map_eq_some_iff] at h
  obtain ⟨⟨word, after⟩, read, eq⟩ := h
  obtain ⟨rfl, rfl⟩ := Prod.mk.inj eq
  obtain ⟨used, split, row⟩ := row_of_moreWords after.length after
  obtain ⟨front, path⟩ := of_path? read
  exact ⟨word, _, used, rfl, by rw [List.append_assoc, ← split, front], path, row⟩

/-! ### Marks -/

/-- Marks, each after spaces or none. -/
inductive Marked : List Char → List Char → Prop
  | nil : Marked [] []
  | more {gap ms used : List Char} {c : Char} (spaces : ∀ d ∈ gap, isSpace d = true) (mark : isMark c = true)
      (rest : Marked ms used) : Marked (c :: ms) (gap ++ c :: used)

theorem isBlank_of_isMark {c : Char} (h : isMark c = true) : isBlank c = false := by
  simp only [isMark, Bool.or_eq_true, beq_iff_eq] at h
  rcases h with rfl | rfl <;> decide

theorem marked_of_marks (fuel : Nat) (cs : List Char) :
    ∃ used, cs = used ++ (marks fuel cs).2 ∧ Marked (marks fuel cs).1 used := by
  have step {cs rest after ms : List Char} {c : Char} (mark : isMark c = true)
      (split : cs.dropWhile isSpace = c :: rest) (ih : ∃ used, rest = used ++ after ∧ Marked ms used) :
      ∃ used, cs = used ++ after ∧ Marked (c :: ms) used := by
    obtain ⟨used, rfl, marked⟩ := ih
    refine ⟨cs.takeWhile isSpace ++ c :: used, ?_, .more (fun d hd => mem_takeWhile_imp hd) mark marked⟩
    rw [List.append_assoc, cons_append, ← split, takeWhile_append_dropWhile]
  fun_induction marks fuel cs with
  | case2 fuel cs rest split more after next ih =>
    rw [next] at ih
    exact step (by decide) split ih
  | case3 fuel cs rest split more after next ih =>
    rw [next] at ih
    exact step (by decide) split ih
  | _ => exact ⟨[], rfl, .nil⟩

namespace Marked

variable {ms used : List Char}

theorem loose (h : Marked ms used) : ∀ c ∈ used, isSpace c = true ∨ isMark c = true := by
  induction h with
  | nil => simp
  | more spaces mark rest ih =>
    simp only [forall_mem_append, forall_mem_cons]
    exact ⟨fun c hc => .inl (spaces c hc), .inr mark, ih⟩

theorem nonspace {c : Char} (mark : isMark c = true) : ∀ d ∈ (c :: cs).head?, isSpace d = false := by
  rintro _ ⟨rfl⟩
  exact isSpace_of_isBlank (isBlank_of_isMark mark)

/-- Behind words and marks stands another mark, or what ends the spelling. -/
theorem stops (h : Marked ms used) (ends : Stops argStops (t.dropWhile isSpace)) :
    Stops ['*', '&', ',', '>'] ((used ++ t).dropWhile isSpace) := by
  cases h with
  | nil => exact ends.mono (by decide)
  | @more gap ms used c spaces mark rest =>
    rw [List.append_assoc, cons_append, dropWhile_gap spaces (nonspace mark)]
    simp only [isMark, Bool.or_eq_true, beq_iff_eq] at mark
    exact stops_cons (by rcases mark with rfl | rfl <;> decide) _

/-- Marks are read back, up to what stops them. -/
theorem marks (h : Marked ms used) (ends : Stops argStops (t.dropWhile isSpace)) :
    ∀ fuel, used.length ≤ fuel → marks fuel (used ++ t) = (ms, t) := by
  induction h with
  | nil =>
    rintro (_ | fuel) _
    · rfl
    · rw [List.nil_append, Spelling.marks]
      split
      · next split => exact absurd (ends '*' (by rw [split]; rfl)) (by decide)
      · next split => exact absurd (ends '&' (by rw [split]; rfl)) (by decide)
      · rfl
  | @more gap ms used c spaces mark rest ih =>
    intro fuel long
    simp only [length_append, length_cons] at long
    obtain ⟨fuel, rfl⟩ := Nat.exists_eq_add_of_le' (show 1 ≤ fuel by omega)
    have again := ih fuel (by omega)
    rw [List.append_assoc, cons_append, Spelling.marks, dropWhile_gap spaces (nonspace mark)]
    simp only [isMark, Bool.or_eq_true, beq_iff_eq] at mark
    rcases mark with rfl | rfl <;> simp only [again]

theorem last (h : Marked ms used) {f : List Char} (edge : ∀ c ∈ f.getLast?, isBlank c = false) :
    ∀ c ∈ (f ++ used).getLast?, isBlank c = false := by
  induction h generalizing f with
  | nil => simpa using edge
  | @more gap ms used c spaces mark rest ih =>
    have edge' : ∀ d ∈ (f ++ gap ++ [c]).getLast?, isBlank d = false := by simp [isBlank_of_isMark mark]
    simpa using ih edge'

end Marked

theorem Framed.append {ms used : List Char} (h : Framed w) (marked : Marked ms used) : Framed (w ++ used) :=
  framed_append h.filled h.head (marked.last h.last)

theorem Framed.bracketed (h : Framed w) (inner : List Char) : Framed (w ++ (inner ++ ['>'])) := by
  refine framed_append h.filled h.head ?_
  rw [← List.append_assoc, getLast?_concat]
  rintro _ ⟨rfl⟩
  decide

/-! ### Parts -/

theorem addWord_plain {w : String} (h : isQualifier w = false) (s : Spelling) : addWord s w = s := by
  simp only [isQualifier, Bool.or_eq_false_iff, beq_eq_false_iff_ne] at h
  unfold addWord
  split
  · exact absurd rfl h.1.1
  · exact absurd rfl h.1.2
  · exact absurd rfl h.2
  · rfl

theorem addWord_eq (w : String) (isConst : Bool) (sign : Option Sign) (name : String) (args : List Spelling)
    (pointer : Nat) (reference : Bool) : ∃ isConst' sign',
      addWord ⟨isConst, sign, name, args, pointer, reference⟩ w =
        ⟨isConst', sign', name, args, pointer, reference⟩ ∧
      ((isConst = true ∨ sign.isSome = true) ∨ isQualifier w = true → isConst' = true ∨
        sign'.isSome = true) := by
  by_cases qualifier : isQualifier w = true
  · simp only [isQualifier, Bool.or_eq_true, beq_iff_eq] at qualifier
    rcases qualifier with (rfl | rfl) | rfl
    · exact ⟨true, sign, rfl, by simp⟩
    · exact ⟨isConst, some .signed, rfl, by simp⟩
    · exact ⟨isConst, some .unsigned, rfl, by simp⟩
  · exact ⟨isConst, sign, addWord_plain (Bool.of_not_eq_true qualifier) _, by simp [qualifier]⟩

/-- Every qualifier among the words is set apart, and nothing else changes. -/
theorem foldl_addWord (name : String) (args : List Spelling) (pointer : Nat) (reference : Bool) :
    ∀ (words : List String) (isConst : Bool) (sign : Option Sign), ∃ isConst' sign',
      words.foldl addWord ⟨isConst, sign, name, args, pointer, reference⟩ =
        ⟨isConst', sign', name, args, pointer, reference⟩ ∧
      ((isConst = true ∨ sign.isSome = true) ∨ (∃ w ∈ words, isQualifier w = true) →
        isConst' = true ∨ sign'.isSome = true)
  | [], isConst, sign => ⟨isConst, sign, rfl, by simp⟩
  | w :: words, isConst, sign => by
      obtain ⟨c, g, first, set⟩ := addWord_eq w isConst sign name args pointer reference
      obtain ⟨isConst', sign', eq, found⟩ := foldl_addWord name args pointer reference words c g
      refine ⟨isConst', sign', by rw [foldl_cons, first, eq], fun h => found ?_⟩
      rcases h with h | ⟨v, hv, qualifier⟩
      · exact Or.inl (set (Or.inl h))
      · rcases mem_cons.mp hv with rfl | hv
        · exact Or.inl (set (Or.inr qualifier))
        · exact Or.inr ⟨v, hv, qualifier⟩

theorem ofParts_eq (words : List (List Char)) (args : List Spelling) (ms : List Char) : ∃ isConst sign,
    ofParts words args ms =
      ⟨isConst, sign, join " " ((words.map String.ofList).filter fun w => !isQualifier w), args,
      ms.count '*', ms.contains '&'⟩ ∧
    ((∃ w ∈ words, isQualifier (.ofList w) = true) → isConst = true ∨ sign.isSome = true) := by
  obtain ⟨isConst, sign, eq, found⟩ := foldl_addWord
    (join " " ((words.map String.ofList).filter fun w => !isQualifier w)) args (ms.count '*') (ms.contains '&')
    (words.map String.ofList) false none
  exact ⟨isConst, sign, eq, fun h => found (.inr (by simpa using h))⟩

/-- What is made of words that are read can be printed. -/
theorem Spells.printable (h : Spells w words) (inner : ∀ arg ∈ args, Printable arg) (ms : List Char) :
    Printable (ofParts words args ms) := by
  obtain ⟨isConst, sign, eq, found⟩ := ofParts_eq words args ms
  rw [eq]
  refine .intro ?_ ?_ (fun none => found ?_) inner
  · intro w hw
    obtain ⟨cs, hcs, rfl⟩ := mem_map.mp (mem_of_mem_filter hw)
    exact h.paths cs hcs
  · intro w hw
    simpa using (mem_filter.mp hw).2
  · -- Without a plain word the first word is a qualifier.
    obtain ⟨w, words, rfl⟩ := exists_cons_of_ne_nil h.filled
    refine ⟨w, mem_cons_self, ?_⟩
    simpa using filter_eq_nil_iff.mp none (.ofList w) (by simp)

/-! ### Spellings -/

/-- The text is read as the spelling, with the spaces behind it, up to a comma or bracket. -/
def ReadsAs (text : List Char) (s : Spelling) : Prop :=
  ∀ fuel t, text.length < fuel → Stops argStops (t.dropWhile isSpace) →
    parseChars fuel (text ++ t) = some (s, t.dropWhile isSpace)

/-- The text is the spelling between spaces. -/
def Holds (text : List Char) (s : Spelling) : Prop :=
  ∃ lead core gap, text = lead ++ core ++ gap ∧ (∀ c ∈ lead, isSpace c = true) ∧
    (∀ c ∈ gap, isSpace c = true) ∧
    Framed core ∧ ReadsAs core s

theorem Holds.after_spaces {lead : List Char} (spaces : ∀ c ∈ lead, isSpace c = true) (h : Holds text s) :
    Holds (lead ++ text) s := by
  obtain ⟨lead', core, gap, rfl, spaces', behind, framed, read⟩ := h
  exact ⟨lead ++ lead', core, gap, by simp only [List.append_assoc],
    forall_mem_append.mpr ⟨spaces, spaces'⟩, behind, framed, read⟩

/-- Nothing that ends a spelling is a space. -/
theorem nonspace_of_stops (h : Stops argStops t) : ∀ c ∈ t.head?, isSpace c = false := by
  intro c hc
  have stop := h c hc
  simp only [argStops, mem_cons, not_mem_nil, or_false] at stop
  rcases stop with rfl | rfl <;> decide

theorem Holds.parseChars {n : Nat} (h : Holds text s) (long : text.length < n)
    (ends : Stops argStops t) : parseChars n ((text ++ t).dropWhile isSpace) = some (s, t) := by
  obtain ⟨lead, core, gap, rfl, spaces, spaces', framed, read⟩ := h
  have rest : (gap ++ t).dropWhile isSpace = t := dropWhile_gap spaces' (nonspace_of_stops ends)
  simp only [length_append] at long
  rw [List.append_assoc, List.append_assoc, dropWhile_gap spaces (framed.nonspace _),
    read _ _ (by omega) (by rwa [rest]), rest]

/-- There are no arguments where no angle bracket opens them. -/
theorem parseArgs_none (h : ∀ c ∈ cs.head?, c ≠ '<') : ∀ fuel, parseArgs fuel cs = none
  | 0 => by rw [parseArgs]; rintro _ _ ⟨⟩
  | fuel + 1 => by
      rw [parseArgs]
      rintro _ cs ⟨⟩ rfl
      exact h '<' rfl rfl

/-- What stands where in the characters of a spelling. -/
inductive Parts (fuel : Nat) (rest : List Char) : List Char → Spelling → Prop
  | plain {lead w used m gap ms : List Char} {words : List (List Char)} (before : ∀ c ∈ lead, isSpace c = true)
      (path : IsPath (.ofList w)) (row : Row words used) (marked : Marked ms m)
      (after : ∀ c ∈ gap, isSpace c = true) :
      Parts fuel rest (lead ++ (w ++ used ++ m) ++ gap ++ rest) (ofParts (w :: words) [] ms)
  | template {lead w used space text m gap ms : List Char} {words : List (List Char)} {args : List Spelling}
      (before : ∀ c ∈ lead, isSpace c = true) (path : IsPath (.ofList w)) (row : Row words used)
      (between : ∀ c ∈ space, isSpace c = true)
      (inside : parseArgs fuel text = some (args, m ++ (gap ++ rest))) (marked : Marked ms m)
      (after : ∀ c ∈ gap, isSpace c = true) :
      Parts fuel rest (lead ++ (w ++ used ++ (space ++ text))) (ofParts (w :: words) args ms)

/-- What is parsed is read from its words, its arguments and its marks. -/
theorem parts_of_parseChars {fuel : Nat} (h : parseChars (fuel + 1) cs = some (s, rest)) :
    (∀ c ∈ rest.head?, isSpace c = false) ∧ Parts fuel rest cs s := by
  have spaces {l : List Char} : ∀ c ∈ l.takeWhile isSpace, isSpace c = true := fun c hc => mem_takeWhile_imp hc
  rw [parseChars] at h
  cases read : words? (cs.dropWhile isSpace) with
  | none => rw [read] at h; cases h
  | some found =>
    obtain ⟨words, after⟩ := found
    rw [read] at h
    obtain ⟨w, more, used, rfl, split, path, row⟩ := row_of_words? read
    cases inside : parseArgs fuel (after.dropWhile isSpace) with
    | none =>
      simp only [inside, Option.getD_none] at h
      obtain ⟨rfl, rfl⟩ := Prod.mk.inj (Option.some.inj h)
      obtain ⟨m, cut, marked⟩ := marked_of_marks after.length after
      have parts : Parts fuel ((marks after.length after).2.dropWhile isSpace) _ _ :=
        .plain (spaces (l := cs)) path row marked (spaces (l := (marks after.length after).2))
      rw [List.append_assoc, takeWhile_append_dropWhile, List.append_assoc, List.append_assoc, ← cut, ← split,
        takeWhile_append_dropWhile] at parts
      exact ⟨fun c hc => head_dropWhile hc, parts⟩
    | some found =>
      obtain ⟨args, behind⟩ := found
      simp only [inside, Option.getD_some] at h
      obtain ⟨rfl, rfl⟩ := Prod.mk.inj (Option.some.inj h)
      obtain ⟨m, cut, marked⟩ := marked_of_marks behind.length behind
      rw [cut, ← takeWhile_append_dropWhile (p := isSpace) (l := (marks behind.length behind).2)] at inside
      have parts := Parts.template (spaces (l := cs)) path row (spaces (l := after)) inside marked spaces
      rw [takeWhile_append_dropWhile, ← split, takeWhile_append_dropWhile] at parts
      exact ⟨fun c hc => head_dropWhile hc, parts⟩

section Parts

variable {m ms : List Char} (spells : Spells w words) (marked : Marked ms m)
include spells marked

theorem readsAs_plain : ReadsAs (w ++ m) (ofParts words [] ms) := by
  intro fuel t long ends
  obtain ⟨fuel, rfl⟩ := Nat.exists_eq_add_of_le' (show 1 ≤ fuel by omega)
  have stops := marked.stops ends
  have none : parseArgs fuel ((m ++ t).dropWhile isSpace) = none :=
    parseArgs_none (fun c hc same => absurd (stops c hc) (by rw [same]; decide)) fuel
  rw [List.append_assoc, parseChars, dropWhile_isSpace (spells.framed.nonspace _),
    spells.read _ (stops.mono (by decide))]
  simp only [none, Option.getD_none, marked.marks ends (m ++ t).length (by simp)]

/-- A template is read from its words and its arguments. -/
theorem readsAs_template {space inner : List Char} (between : ∀ c ∈ space, isSpace c = true)
    (again : ∀ fuel t, inner.length + 2 ≤ fuel → parseArgs fuel ('<' :: (inner ++ '>' :: t)) =
      some (args, t)) :
    ReadsAs (w ++ (space ++ '<' :: (inner ++ '>' :: m))) (ofParts words args ms) := by
  intro fuel t long ends
  simp only [length_append, length_cons] at long
  have size := length_pos_of_ne_nil spells.framed.filled
  obtain ⟨fuel, rfl⟩ := Nat.exists_eq_add_of_le' (show 1 ≤ fuel by omega)
  have bracket : (space ++ '<' :: (inner ++ '>' :: (m ++ t))).dropWhile isSpace =
      '<' :: (inner ++ '>' :: (m ++ t)) :=
    dropWhile_gap between (by rintro _ ⟨rfl⟩; decide)
  have stops : Stops wordStops ((space ++ '<' :: (inner ++ '>' :: (m ++ t))).dropWhile isSpace) := by
    rw [bracket]
    exact stops_cons (by decide) _
  simp only [List.append_assoc, cons_append]
  rw [parseChars, dropWhile_isSpace (spells.framed.nonspace _), spells.read _ stops]
  simp only [bracket, again fuel (m ++ t) (by omega), Option.getD_some,
    marked.marks ends (m ++ t).length (by simp)]

theorem framed_template (inside : List Char) : Framed (w ++ (inside ++ '>' :: m)) := by
  simpa using (spells.framed.bracketed inside).append marked

end Parts

/-- The text is the arguments behind the first one. -/
structure Continues (text : List Char) (args : List Spelling) : Prop where
  comma : ∀ c ∈ text.head?, c = ','
  none : args = [] → text = []
  read : ∀ fuel t, text.length < fuel → parseMoreArgs fuel (text ++ '>' :: t) = (args, '>' :: t)

theorem continues_nil : Continues [] [] where
  comma := by simp
  none := fun _ => rfl
  read := by
    rintro (_ | fuel) t _
    · rfl
    · rw [List.nil_append, parseMoreArgs, dropWhile_isSpace (by rintro _ ⟨rfl⟩; decide)]
      rfl

theorem Continues.stops (h : Continues text args) (t : List Char) :
    Stops argStops (text ++ '>' :: t) := by
  cases text with
  | nil => exact stops_cons (by decide) _
  | cons c text =>
    rw [h.comma c rfl]
    exact stops_cons (by decide) _

theorem Holds.continues {more : List Char} (h : Holds text arg)
    (rest : Continues more args) : Continues (',' :: (text ++ more)) (arg :: args) where
  comma := by rintro _ ⟨rfl⟩; rfl
  none := by rintro ⟨⟩
  read := by
    intro fuel t long
    simp only [length_cons, length_append] at long
    obtain ⟨fuel, rfl⟩ := Nat.exists_eq_add_of_le' (show 1 ≤ fuel by omega)
    have first := h.parseChars (n := fuel) (by omega) (rest.stops t)
    rw [cons_append, List.append_assoc, parseMoreArgs, dropWhile_isSpace (by rintro _ ⟨rfl⟩; decide)]
    simp only [first, rest.read fuel t (by omega)]

/-- The text between two brackets is the arguments. -/
structure Encloses (inner : List Char) (args : List Spelling) : Prop where
  read : ∀ fuel t, inner.length + 2 ≤ fuel → parseArgs fuel ('<' :: (inner ++ '>' :: t)) = some (args, t)
  single : ∀ arg, args = [arg] → Holds inner arg

theorem Holds.encloses {more : List Char} (h : Holds text arg)
    (rest : Continues more args) : Encloses (text ++ more) (arg :: args) where
  read := by
    intro fuel t long
    simp only [length_append] at long
    obtain ⟨fuel, rfl⟩ := Nat.exists_eq_add_of_le' (show 1 ≤ fuel by omega)
    have first := h.parseChars (n := fuel) (by omega) (rest.stops t)
    have close : ('>' :: t).dropWhile isSpace = '>' :: t := dropWhile_isSpace (by rintro _ ⟨rfl⟩; decide)
    rw [List.append_assoc, parseArgs, first]
    simp only [rest.read fuel t (by omega), close]
  single := by
    rintro _ ⟨⟩
    rwa [rest.none rfl, List.append_nil]

mutual

/-- A spelling is read from a text of its own, whatever comes behind. -/
theorem parseChars_local :
    ∀ (fuel : Nat) (cs rest : List Char) (s : Spelling), parseChars fuel cs = some (s, rest) →
    (∀ c ∈ rest.head?, isSpace c = false) ∧ Printable s ∧ ∃ used, cs = used ++ rest ∧ Holds used s
  | 0, cs, rest, s, h => by rw [parseChars] at h; cases h
  | fuel + 1, cs, rest, s, h => by
      obtain ⟨stop, parts⟩ := parts_of_parseChars h
      refine ⟨stop, ?_⟩
      cases parts with
      | plain before path row marked after =>
        have spells := row.spells path
        exact ⟨spells.printable (by simp) _, _, rfl, _, _, _, rfl, before, after, spells.framed.append marked,
          readsAs_plain spells marked⟩
      | @template lead w used space text m gap ms words args before path row between inside marked after =>
        have spells := row.spells path
        obtain ⟨printable, inner, rfl, encloses⟩ := parseArgs_local fuel _ _ _ inside
        refine ⟨spells.printable printable _,
          lead ++ (w ++ used ++ (space ++ '<' :: (inner ++ '>' :: m))) ++ gap,
          by simp, _, _, _, rfl, before, after, ?_, readsAs_template spells marked between encloses.read⟩
        simpa using framed_template spells marked (space ++ '<' :: inner)

/-- Arguments are read from the text between their brackets. -/
theorem parseArgs_local : ∀ (fuel : Nat) (cs rest : List Char) (args : List Spelling),
    parseArgs fuel cs = some (args, rest) →
      (∀ arg ∈ args, Printable arg) ∧ ∃ inner, cs = '<' :: (inner ++ '>' :: rest) ∧ Encloses inner args
  | 0, cs, rest, args, h => by simp [parseArgs] at h
  | fuel + 1, [], rest, args, h => by simp [parseArgs] at h
  | fuel + 1, c :: cs, rest, args, h => by
      by_cases bracket : c = '<'
      · subst bracket
        rw [parseArgs] at h
        cases read : parseChars fuel (cs.dropWhile isSpace) with
        | none => rw [read] at h; cases h
        | some found =>
          obtain ⟨first, after⟩ := found
          obtain ⟨stop, printable, used, split, holds⟩ := parseChars_local fuel _ _ _ read
          obtain ⟨stop', inner, more, cut, continues⟩ := parseMoreArgs_local fuel after stop
          rw [read] at h
          simp only [dropWhile_isSpace stop'] at h
          split at h
          · next rest' close =>
            obtain ⟨rfl, rfl⟩ := Prod.mk.inj (Option.some.inj h)
            refine ⟨forall_mem_cons.mpr ⟨printable, inner⟩, cs.takeWhile isSpace ++ used ++ more, ?_,
              (holds.after_spaces fun c hc => mem_takeWhile_imp hc).encloses continues⟩
            rw [List.append_assoc, List.append_assoc, ← close, ← cut, ← split, takeWhile_append_dropWhile]
          · cases h
      · rw [parseArgs_none (by rintro _ ⟨rfl⟩; exact bracket)] at h
        cases h

theorem parseMoreArgs_local : ∀ (fuel : Nat) (cs : List Char), (∀ c ∈ cs.head?, isSpace c = false) →
    (∀ c ∈ (parseMoreArgs fuel cs).2.head?, isSpace c = false) ∧
    (∀ arg ∈ (parseMoreArgs fuel cs).1, Printable arg) ∧
      ∃ used, cs = used ++ (parseMoreArgs fuel cs).2 ∧ Continues used (parseMoreArgs fuel cs).1
  | 0, cs, head => by
      rw [parseMoreArgs]
      exact ⟨head, by simp, [], rfl, continues_nil⟩
  | fuel + 1, cs, head => by
      rw [parseMoreArgs, dropWhile_isSpace head]
      split
      · next rest =>
        cases read : parseChars fuel (rest.dropWhile isSpace) with
        | none => exact ⟨head, by simp, [], rfl, continues_nil⟩
        | some found =>
          obtain ⟨arg, after⟩ := found
          obtain ⟨stop, printable, used, split, holds⟩ := parseChars_local fuel _ _ _ read
          obtain ⟨stop', inner, more, cut, continues⟩ := parseMoreArgs_local fuel after stop
          refine ⟨stop', forall_mem_cons.mpr ⟨printable, inner⟩,
            ',' :: (rest.takeWhile isSpace ++ used ++ more), ?_,
            (holds.after_spaces fun c hc => mem_takeWhile_imp hc).continues continues⟩
          rw [cons_append, List.append_assoc, List.append_assoc, ← cut, ← split, takeWhile_append_dropWhile]
      · exact ⟨head, by simp, [], rfl, continues_nil⟩

end

/-- What is parsed can be printed. -/
theorem printable_of_parse? {native rest : String} (h : parse? native = some (s, rest)) : Printable s := by
  obtain ⟨⟨_, after⟩, read, same⟩ := Option.map_eq_some_iff.mp h
  cases same
  exact (parseChars_local _ _ _ _ read).2.1

end Spelling

end GoTrees
