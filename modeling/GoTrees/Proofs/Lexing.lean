import GoTrees.Proofs.Names
import GoTrees.Proofs.SkeletonLines

/-!
# Code outside strings and comments

Generated Go text has interpreted strings, character literals of one character and line comments, but no raw
strings and no block comments. A scan of the text blanks them out and leaves the code. In the code, identifiers
joined by dots make dotted names, and what stands before the first dot of one is a qualifier: a package, or a
variable from which something is selected.
-/

namespace GoTrees.Go

open Text List

variable {c : Char} {code name text : List Char} {line : String}

/-! ### Scanning -/

inductive Scan where
  | code
  | string
  /-- Behind a backslash in a string. -/
  | escape
  | comment
  /-- Before the character of a character literal. -/
  | rune
  /-- Before the end of a character literal. -/
  | runeEnd
  deriving DecidableEq, Repr

/-- The code of a text, with a blank for each string, character literal and comment. The end of a line ends a
string and a comment. -/
def scan : Scan → List Char → List Char
  | _, [] => []
  | .code, c :: cs =>
    if c = '"' then ' ' :: scan .string cs
    else if c = '/' ∧ cs.head? = some '/' then ' ' :: scan .comment cs
    else if c = '\'' ∧ cs.tail.head? = some '\'' then ' ' :: scan .rune cs
    else c :: scan .code cs
  | .string, c :: cs =>
    if c = '\n' then '\n' :: scan .code cs
    else if c = '"' then scan .code cs
    else if c = '\\' then scan .escape cs
    else scan .string cs
  | .escape, c :: cs => if c = '\n' then '\n' :: scan .code cs else scan .string cs
  | .comment, c :: cs => if c = '\n' then '\n' :: scan .code cs else scan .comment cs
  | .rune, _ :: cs => scan .runeEnd cs
  | .runeEnd, _ :: cs => scan .code cs

/-- A character that starts no string, character literal or comment. -/
def IsPlain (c : Char) : Prop := c ≠ '"' ∧ c ≠ '\'' ∧ c ≠ '/'

instance : DecidablePred IsPlain := fun _ => inferInstanceAs (Decidable (_ ∧ _))

theorem scan_plain {c : Char} (h : IsPlain c) (cs : List Char) :
    scan .code (c :: cs) = c :: scan .code cs := by
  rw [scan, if_neg h.1, if_neg (fun slash => h.2.2 slash.1), if_neg (fun mark => h.2.1 mark.1)]

/-- The text leaves this code, whatever follows it. -/
def Reads (text out : List Char) : Prop := ∀ rest, scan .code (text ++ rest) = out ++ scan .code rest

theorem Reads.append {s t out more : List Char} (hs : Reads s out) (ht : Reads t more) :
    Reads (s ++ t) (out ++ more) := by
  intro rest
  rw [List.append_assoc, hs, ht, List.append_assoc]

theorem reads_plain : ∀ {cs : List Char}, (∀ c ∈ cs, IsPlain c) → Reads cs cs
  | [], _, _ => rfl
  | c :: cs, h, rest => by
      have tail := reads_plain (fun d hd => h d (List.mem_cons_of_mem c hd)) rest
      rw [List.cons_append, scan_plain (h c List.mem_cons_self), tail, List.cons_append]

theorem scan_quoted (rest : List Char) : ∀ cs : List Char,
    scan .string (cs.flatMap quoteChar ++ '"' :: rest) = scan .code rest
  | [] => rfl
  | c :: cs => by
      rw [flatMap_cons, List.append_assoc]
      fun_cases quoteChar c with
      | case6 _ mark slash feed _ _ =>
        rw [singleton_append, scan, if_neg feed, if_neg mark, if_neg slash, scan_quoted rest cs]
      | _ => exact scan_quoted rest cs

/-- A string literal leaves a blank. -/
theorem reads_quote (s : String) : Reads (quote s).toList [' '] := by
  intro rest
  rw [quote, String.toList_ofList, cons_append, cons_append, List.append_assoc, scan, if_pos rfl,
    singleton_append, scan_quoted]
  rfl

/-- A character literal leaves a blank. -/
theorem reads_rune (c : Char) : Reads ['\'', c, '\''] [' '] := fun _ => rfl

theorem scan_comment (rest : List Char) : ∀ {cs : List Char}, '\n' ∉ cs →
    scan .comment (cs ++ '\n' :: rest) = '\n' :: scan .code rest
  | [], _ => rfl
  | c :: cs, h => by
      rw [mem_cons, not_or] at h
      rw [cons_append, scan, if_neg (Ne.symm h.1), scan_comment rest h.2]

/-! ### Dotted names -/

/-- A character that stands in no name. -/
def isGap (c : Char) : Bool := !(isIdentifierChar c || c == '.')

theorem isPlain_of_not_isGap (h : isGap c = false) : IsPlain c := by
  refine ⟨?_, ?_, ?_⟩ <;> rintro rfl <;> exact absurd h (by decide)

/-- The names of code, each with its dots; between two gaps there is an empty one. -/
def dottedNames (code : List Char) : List (List Char) := splitChars isGap code

/-- What stands before the first dot of a name. -/
def lead (name : List Char) : List Char := name.takeWhile (· != '.')

def qualifiers (text : String) : List String :=
  ((dottedNames (scan .code text.toList)).filter (·.contains '.')).map fun name => .ofList (lead name)

def Allows (A : List Char → Prop) (code : List Char) : Prop :=
  ∀ name ∈ dottedNames code, '.' ∈ name → A (lead name)

/-- All qualifiers are allowed, also when something is selected from the end of the code. -/
structure Stem (A : List Char → Prop) (code : List Char) : Prop where
  allows : Allows A code
  select : ∀ name, (∀ c ∈ name, isGap c = false) → Allows A (code ++ '.' :: name)

variable {A : List Char → Prop}

theorem mem_qualifiers {q text : String} : q ∈ qualifiers text ↔
    ∃ name ∈ dottedNames (scan .code text.toList), '.' ∈ name ∧ String.ofList (lead name) = q := by
  simp [qualifiers, and_assoc]

theorem allows_append_gap (gap : isGap c = true) {s t : List Char} :
    Allows A (s ++ c :: t) ↔ Allows A s ∧ Allows A t := by
  simp only [Allows, dottedNames, splitChars_append gap, forall_mem_append]

theorem allows_of_no_dot (h : '.' ∉ code) : Allows A code :=
  fun _ mem dot => absurd (mem_of_mem_splitChars mem dot) h

theorem allows_name (h : ∀ c ∈ name, isGap c = false) (allowed : A (lead name)) :
    Allows A name := by
  intro part mem _
  rw [dottedNames, splitChars_eq_singleton name h, mem_singleton] at mem
  rwa [mem]

theorem lead_append_dot (name rest : List Char) : lead (name ++ '.' :: rest) = lead name := by
  induction name with
  | nil => rfl
  | cons c name ih =>
    rw [lead, lead, cons_append, takeWhile_cons, takeWhile_cons]
    split
    · exact congrArg (c :: ·) ih
    · rfl

theorem lead_append_of_dot {front : List Char} (dot : '.' ∈ front) (rest : List Char) :
    lead (front ++ rest) = lead front := by
  obtain ⟨before, after, rfl⟩ := append_of_mem dot
  rw [List.append_assoc, cons_append, lead_append_dot, lead_append_dot]

theorem stem_name (h : ∀ c ∈ name, isGap c = false) (allowed : A (lead name)) : Stem A name where
  allows := allows_name h allowed
  select rest hr := by
    refine allows_name (forall_mem_append.mpr ⟨h, forall_mem_cons.mpr ⟨by decide, hr⟩⟩) ?_
    rwa [lead_append_dot]

theorem Stem.selected (h : Stem A code) (hn : ∀ c ∈ name, isGap c = false) :
    Stem A (code ++ '.' :: name) where
  allows := h.select name hn
  select rest hr := by
    rw [List.append_assoc, cons_append]
    exact h.select _ (forall_mem_append.mpr ⟨hn, forall_mem_cons.mpr ⟨by decide, hr⟩⟩)

theorem stem_append_gap (gap : isGap c = true) {s t : List Char} (hs : Allows A s) (ht : Stem A t) :
    Stem A (s ++ c :: t) where
  allows := (allows_append_gap gap).mpr ⟨hs, ht.allows⟩
  select name hn := by
    rw [List.append_assoc, cons_append]
    exact (allows_append_gap gap).mpr ⟨hs, ht.select name hn⟩

theorem noGap_or_last_gap : ∀ cs : List Char, (∀ c ∈ cs, isGap c = false) ∨
    ∃ front g name, cs = front ++ g :: name ∧ isGap g = true ∧ ∀ c ∈ name, isGap c = false
  | [] => .inl (by simp)
  | c :: cs => by
      rcases noGap_or_last_gap cs with none | ⟨front, g, name, rfl, gap, last⟩
      · cases gap : isGap c with
        | true => exact .inr ⟨[], c, cs, rfl, gap, none⟩
        | false => exact .inl (forall_mem_cons.mpr ⟨gap, none⟩)
      · exact .inr ⟨c :: front, g, name, rfl, gap, last⟩

theorem stem_of_names (h : ∀ name ∈ dottedNames code, A (lead name)) : Stem A code := by
  rcases noGap_or_last_gap code with none | ⟨front, g, name, rfl, gap, last⟩
  · exact stem_name none (h code (by rw [dottedNames, splitChars_eq_singleton code none]; exact mem_cons_self))
  · rw [dottedNames, splitChars_append gap, forall_mem_append, splitChars_eq_singleton name last,
      forall_mem_singleton] at h
    exact stem_append_gap gap (fun part mem _ => h.1 part mem) (stem_name last h.2)

theorem Stem.allows_dot {rest : List Char} (h : Stem A code) (bare : '.' ∉ rest) :
    Allows A (code ++ '.' :: rest) := by
  have cut := takeWhile_append_dropWhile (p := fun c => !isGap c) (l := rest)
  have name : ∀ c ∈ rest.takeWhile fun c => !isGap c, isGap c = false := fun c hc => by
    simpa using mem_takeWhile_imp hc
  cases tail : rest.dropWhile fun c => !isGap c with
  | nil =>
    rw [tail, List.append_nil] at cut
    exact h.select rest (cut ▸ name)
  | cons g more =>
    have gap : isGap g = true := by
      have head := head?_dropWhile_not (fun c => !isGap c) rest
      rw [tail] at head
      simpa using head
    rw [tail] at cut
    have undotted : '.' ∉ more := fun mem => bare (cut ▸ mem_append_right _ (mem_cons_of_mem g mem))
    rw [← cut, ← cons_append, ← List.append_assoc]
    exact (allows_append_gap gap).mpr ⟨h.select _ name, allows_of_no_dot undotted⟩

/-! ### Lines -/

/-- The code of the line ends with it and has no qualifiers but allowed ones. -/
def LineAllows (A : List Char → Prop) (line : String) : Prop :=
  ∀ rest, ∃ out, scan .code (line.toList ++ '\n' :: rest) = out ++ '\n' :: scan .code rest ∧ Allows A out

theorem Reads.lineAllows {out : List Char} (h : Reads line.toList out) (allows : Allows A out) :
    LineAllows A line :=
  fun rest => ⟨out, by rw [h, scan_plain (by decide)], allows⟩

theorem lineAllows_comment {text : String} (unbroken : '\n' ∉ text.toList) : LineAllows A ("// " ++ text) := by
  intro rest
  refine ⟨[' '], ?_, allows_of_no_dot (by decide)⟩
  have inner : '\n' ∉ '/' :: ' ' :: text.toList := by simpa using unbroken
  have whole : ("// " ++ text).toList = '/' :: '/' :: ' ' :: text.toList := by simp
  rw [whole, cons_append, scan, if_neg (by decide), if_pos ⟨rfl, rfl⟩, scan_comment rest inner]
  rfl

theorem LineAllows.indented (h : LineAllows A line) (depth : Nat) :
    LineAllows A (Sheet.indented depth line) := by
  rw [Sheet.indented]
  split
  · have empty : Reads "".toList [] := fun _ => rfl
    exact empty.lineAllows (allows_of_no_dot (by simp))
  · intro rest
    obtain ⟨out, read, allows⟩ := h rest
    refine ⟨List.replicate depth '\t' ++ out, ?_, ?_⟩
    · have tabs : Reads (List.replicate depth '\t') (List.replicate depth '\t') :=
        reads_plain fun c hc => by rw [(mem_replicate.mp hc).2]; decide
      rw [String.toList_append, Sheet.tabs, String.toList_ofList, List.append_assoc, tabs, read,
        List.append_assoc]
    · clear read
      induction depth with
      | zero => exact allows
      | succ depth ih => exact (allows_append_gap (s := []) (by decide)).mpr ⟨allows_of_no_dot (by simp), ih⟩

/-! ### Lines with stray quotes

A name that a file path goes into can hold quotes. What they open ends with the line, and what they hide is
only hidden: between two gaps of what is left stands a name of the line itself. -/

theorem dottedNames_eq (code : List Char) :
    dottedNames code = (dottedNames code).headD [] :: (dottedNames code).tail := by
  obtain ⟨name, names, h⟩ := exists_cons_of_ne_nil (splitChars_ne_nil isGap code)
  rw [dottedNames, h]
  rfl

/-- The names with a dot are among those of the text. -/
def Shows (names : List (List Char)) (code : List Char) : Prop :=
  ∀ name ∈ dottedNames code, '.' ∈ name → name ∈ names

/-- What is left of a text in code: its first name is that of the text, the others are shown by it. -/
structure Leaves (text code : List Char) : Prop where
  first : (dottedNames code).headD [] = (dottedNames text).headD []
  others : ∀ name ∈ (dottedNames code).tail, '.' ∈ name → name ∈ (dottedNames text).tail

theorem dottedNames_cons_gap (gap : isGap c = true) (cs : List Char) :
    dottedNames (c :: cs) = [] :: dottedNames cs := by
  rw [dottedNames, splitChars, if_pos gap, dottedNames]

theorem dottedNames_cons_name (part : isGap c = false) (cs : List Char) :
    dottedNames (c :: cs) = (c :: (dottedNames cs).headD []) :: (dottedNames cs).tail := by
  rw [dottedNames, splitChars, if_neg (by simp [part])]
  obtain ⟨name, names, h⟩ := exists_cons_of_ne_nil (splitChars_ne_nil isGap cs)
  rw [dottedNames, h]
  rfl

theorem tail_dottedNames_cons (c : Char) (cs : List Char) :
    (dottedNames cs).tail ⊆ (dottedNames (c :: cs)).tail := by
  cases gap : isGap c with
  | true =>
    rw [dottedNames_cons_gap gap]
    exact tail_subset _
  | false =>
    rw [dottedNames_cons_name gap]
    exact List.Subset.refl _

theorem Leaves.shows (h : Leaves text code) : Shows (dottedNames text) code := by
  intro name mem dot
  rw [dottedNames_eq] at mem ⊢
  rcases mem_cons.mp mem with rfl | mem
  · rw [h.first]
    exact mem_cons_self
  · exact mem_cons_of_mem _ (h.others name mem dot)

theorem Leaves.cons (h : Leaves text code) (c : Char) : Leaves (c :: text) (c :: code) := by
  cases gap : isGap c with
  | true =>
    constructor <;> rw [dottedNames_cons_gap gap, dottedNames_cons_gap gap]
    · rfl
    · exact h.shows
  | false =>
    constructor <;> rw [dottedNames_cons_name gap, dottedNames_cons_name gap]
    · exact congrArg (c :: ·) h.first
    · exact h.others

theorem leaves_blank (gap : isGap c = true) (h : Shows (dottedNames text) code) :
    Leaves (c :: text) (' ' :: code) := by
  constructor <;> rw [dottedNames_cons_gap gap, dottedNames_cons_gap (by decide)]
  · rfl
  · exact h

theorem Shows.tail_cons (h : Shows (dottedNames text).tail code) (c : Char) :
    Shows (dottedNames (c :: text)).tail code :=
  fun name mem dot => tail_dottedNames_cons c text (h name mem dot)

theorem Shows.of_gap (h : Shows (dottedNames text) code) (gap : isGap c = true) :
    Shows (dottedNames (c :: text)).tail code := by
  rwa [dottedNames_cons_gap gap]

theorem Shows.of_tail (h : Shows (dottedNames text).tail code) :
    Shows (dottedNames text) code := fun name mem dot => mem_of_mem_tail (h name mem dot)

/-- What the scan makes of a line, by what it is in at its start. -/
def Kept (text code : List Char) : Scan → Prop
  | .code => Leaves text code
  | _ => Shows (dottedNames text).tail code

/-- The line holds what is left of a character literal. -/
def Closes (text : List Char) : Scan → Prop
  | .rune => ∃ c rest, text = c :: '\'' :: rest
  | .runeEnd => ∃ rest, text = '\'' :: rest
  | _ => True

theorem closes_rune (h : text.tail.head? = some '\'') : Closes text .rune := by
  rcases text with _ | ⟨c, _ | ⟨d, text⟩⟩
  · simp at h
  · simp at h
  · exact ⟨c, text, by simpa using h⟩

/-- The end of a line ends what the scan is in, unless it is itself in a character literal. -/
theorem scan_feed {rest : List Char} (mode : Scan)
    (mark : text.getLast? = some '\'' → rest.head? ≠ some '\'') (closes : Closes text mode) :
    scan mode (text ++ '\n' :: rest) = scan mode text ++ '\n' :: scan .code rest := by
  induction text generalizing mode with
  | nil =>
    cases mode with
    | code | string | escape | comment => rfl
    | rune => obtain ⟨_, _, ⟨⟩⟩ := closes
    | runeEnd => obtain ⟨_, ⟨⟩⟩ := closes
  | cons c text ih =>
    have later : text.getLast? = some '\'' → rest.head? ≠ some '\'' := fun last =>
      mark (by rw [getLast?_cons, last]; rfl)
    rw [cons_append]
    cases mode with
    | code =>
      have slash : (text ++ '\n' :: rest).head? = some '/' ↔ text.head? = some '/' := by
        cases text <;> simp
      have literal : c = '\'' ∧ (text ++ '\n' :: rest).tail.head? = some '\'' ↔
          c = '\'' ∧ text.tail.head? = some '\'' := by
        refine and_congr_right fun quote => ?_
        rcases text with _ | ⟨_, _ | ⟨_, _⟩⟩
        · simpa using mark (by rw [quote]; rfl)
        · simp
        · simp
      simp only [scan, slash, literal]
      split
      · rw [ih .string later trivial, cons_append]
      · split
        · rw [ih .comment later trivial, cons_append]
        · split
          · next both => rw [ih .rune later (closes_rune both.2), cons_append]
          · rw [ih .code later trivial, cons_append]
    | string =>
      rw [scan, scan]
      split
      · rw [ih .code later trivial, cons_append]
      · split
        · rw [ih .code later trivial]
        · split
          · rw [ih .escape later trivial]
          · rw [ih .string later trivial]
    | escape =>
      rw [scan, scan]
      split
      · rw [ih .code later trivial, cons_append]
      · rw [ih .string later trivial]
    | comment =>
      rw [scan, scan]
      split
      · rw [ih .code later trivial, cons_append]
      · rw [ih .comment later trivial]
    | rune =>
      obtain ⟨_, more, same⟩ := closes
      rw [scan, scan, ih .runeEnd later ⟨more, (List.cons.inj same).2⟩]
    | runeEnd => rw [scan, scan, ih .code later trivial]

/-- The scan of a line shows its names with dots, but for one that it starts within. -/
theorem kept_scan (mode : Scan) (feed : '\n' ∉ text) (closes : Closes text mode) :
    Kept text (scan mode text) mode := by
  induction text generalizing mode with
  | nil =>
    have nothing : Shows (dottedNames []).tail [] := by rintro _ _ dot; simp_all [dottedNames, splitChars]
    cases mode with
    | code => exact ⟨rfl, by rintro _ ⟨⟩⟩
    | string | escape | comment => exact nothing
    | rune => obtain ⟨_, _, ⟨⟩⟩ := closes
    | runeEnd => obtain ⟨_, ⟨⟩⟩ := closes
  | cons c text ih =>
    rw [mem_cons, not_or] at feed
    have kept := fun mode => ih mode feed.2
    cases mode with
    | code =>
      rw [scan]
      split
      · next string =>
        rw [string]
        exact leaves_blank (by decide) (kept .string trivial).of_tail
      · split
        · next comment =>
          rw [comment.1]
          exact leaves_blank (by decide) (kept .comment trivial).of_tail
        · split
          · next literal =>
            rw [literal.1]
            exact leaves_blank (by decide) (kept .rune (closes_rune literal.2)).of_tail
          · exact (kept .code trivial).cons c
    | string =>
      rw [scan, if_neg (Ne.symm feed.1)]
      split
      · next close =>
        rw [close]
        exact (kept .code trivial).shows.of_gap (by decide)
      · split
        · exact (kept .escape trivial).tail_cons c
        · exact (kept .string trivial).tail_cons c
    | escape =>
      rw [scan, if_neg (Ne.symm feed.1)]
      exact (kept .string trivial).tail_cons c
    | comment =>
      rw [scan, if_neg (Ne.symm feed.1)]
      exact (kept .comment trivial).tail_cons c
    | rune =>
      obtain ⟨_, more, same⟩ := closes
      exact (kept .runeEnd ⟨more, (List.cons.inj same).2⟩).tail_cons c
    | runeEnd =>
      obtain ⟨_, same⟩ := closes
      rw [(List.cons.inj same).1]
      exact (kept .code trivial).shows.of_gap (by decide)

/-- A line that does not end with a single quote allows what its names allow as they stand. -/
theorem lineAllows_raw (feed : '\n' ∉ line.toList) (mark : line.toList.getLast? ≠ some '\'')
    (h : Allows A line.toList) : LineAllows A line := by
  intro rest
  have kept : Leaves line.toList (scan .code line.toList) := kept_scan .code feed trivial
  exact ⟨_, scan_feed .code (fun last => absurd last mark) trivial,
    fun name mem dot => h name (kept.shows name mem dot) dot⟩

theorem toList_unlines_cons (l : String) (lines : List String) :
    (unlines (l :: lines)).toList = l.toList ++ '\n' :: (unlines lines).toList := by
  simp [unlines]

/-- Lines that allow their qualifiers one by one do so together. -/
theorem allows_unlines : ∀ {lines : List String}, (∀ l ∈ lines, LineAllows A l) →
    Allows A (scan .code (unlines lines).toList)
  | [], _ => allows_of_no_dot (by simp [unlines, scan])
  | l :: lines, h => by
      rw [forall_mem_cons] at h
      obtain ⟨out, read, allows⟩ := h.1 (unlines lines).toList
      rw [toList_unlines_cons, read]
      exact (allows_append_gap (by decide)).mpr ⟨allows, allows_unlines h.2⟩

/-- A line without single quotes at its ends has its qualifiers wherever it stands. -/
theorem qualifiers_subset_unlines {lines : List String} {l : String} (mem : l ∈ lines)
    (first : l.toList.head? ≠ some '\'') (last : l.toList.getLast? ≠ some '\'') :
    qualifiers l ⊆ qualifiers (unlines lines) := by
  obtain ⟨before, behind, rfl⟩ := append_of_mem mem
  have start : (l.toList ++ '\n' :: (unlines behind).toList).head? ≠ some '\'' := by
    cases same : l.toList with
    | nil => simp
    | cons c cs => rwa [same] at first
  have line : scan .code (l.toList ++ '\n' :: (unlines behind).toList) =
      scan .code l.toList ++ '\n' :: scan .code (unlines behind).toList :=
    scan_feed .code (fun mark => absurd mark last) trivial
  intro q found
  obtain ⟨name, named, dot, rfl⟩ := mem_qualifiers.mp found
  refine mem_qualifiers.mpr ⟨name, ?_, dot, rfl⟩
  rcases eq_nil_or_concat before with rfl | ⟨front, k, rfl⟩
  · rw [List.nil_append, toList_unlines_cons, line, dottedNames, splitChars_append (by decide)]
    exact mem_append_left _ named
  · have whole : (unlines (front.concat k ++ l :: behind)).toList =
        (unlines front).toList ++ k.toList ++ '\n' :: (l.toList ++ '\n' :: (unlines behind).toList) := by
      simp [unlines]
    rw [whole, scan_feed .code (fun _ => start) trivial, line, dottedNames, splitChars_append (by decide),
      splitChars_append (by decide)]
    exact mem_append_right _ (mem_append_left _ named)

end GoTrees.Go
