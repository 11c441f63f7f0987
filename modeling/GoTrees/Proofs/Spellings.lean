import GoTrees.Proofs.Readings

/-!
# Type spellings are read back

The canonical text of a spelling has its qualifiers and its name with single spaces between them, the arguments
between angle brackets with commas between them, and the pointer and reference marks at the end. Each part
is read up to the part behind it, so the whole is read back. What the reader makes of any text is such a
spelling.

    spelling  ──▶  word ( ␣ word )*  [ < spelling ( , ␣ spelling )* > ]  ** … [ & ]
-/

namespace GoTrees.Spelling

open Text List

variable {words : List String} {isConst : Bool} {sign : Option Sign}
open Literal (IsIdentifier Stops)

/-! ### The canonical text -/

/-- The qualifiers in front of a name. -/
def qualifiers (isConst : Bool) (sign : Option Sign) : List String :=
  (if isConst then ["const"] else []) ++
    match sign with
    | none => []
    | some .signed => ["signed"]
    | some .unsigned => ["unsigned"]

def markChars (pointer : Nat) (reference : Bool) : List Char :=
  List.replicate pointer '*' ++ if reference then ['&'] else []

mutual

/-- The characters of the canonical text of a spelling. -/
def chars : Spelling → List Char
  | ⟨isConst, sign, name, args, pointer, reference⟩ =>
    (join " " (qualifiers isConst sign ++ if name.isEmpty then [] else [name])).toList
      ++ argChars args ++ markChars pointer reference

/-- The arguments between angle brackets, if there are any. -/
def argChars : List Spelling → List Char
  | [] => []
  | arg :: args => '<' :: arg.chars ++ moreArgChars args ++ ['>']

/-- Further arguments, each after a comma and a space. -/
def moreArgChars : List Spelling → List Char
  | [] => []
  | arg :: args => ',' :: ' ' :: arg.chars ++ moreArgChars args

end

/-- The canonical text of a spelling. -/
def render (t : Spelling) : String := .ofList t.chars

/-! ### Words and marks -/

def spaced (words : List String) : List Char := words.flatMap fun w => ' ' :: w.toList

theorem toList_join_cons (w : String) (words : List String) :
    (join " " (w :: words)).toList = w.toList ++ spaced words := by
  induction words generalizing w with
  | nil => simp [join, spaced]
  | cons v words rest => simp [join, rest, spaced]

theorem row_spaced (paths : ∀ w ∈ words, IsPath w) : Row (words.map String.toList) (spaced words) := by
  induction words with
  | nil => exact .nil
  | cons w words ih =>
    rw [forall_mem_cons] at paths
    have row : Row (w.toList :: words.map String.toList) ([' '] ++ (w.toList ++ spaced words)) :=
      .more (by simp) (by simp [isSpace]) (by simpa using paths.1) (ih paths.2)
    simpa [spaced] using row

/-- Words with single spaces between them are read. -/
theorem spells_join (paths : ∀ w ∈ words, IsPath w) (some : words ≠ []) :
    Spells (join " " words).toList (words.map String.toList) := by
  obtain ⟨w, words, rfl⟩ := exists_cons_of_ne_nil some
  rw [forall_mem_cons] at paths
  rw [toList_join_cons]
  exact (row_spaced paths.2).spells (by simpa using paths.1)

theorem isMark_markChars (pointer : Nat) (reference : Bool) :
    ∀ c ∈ markChars pointer reference, isMark c = true := by
  cases reference <;> simp +contextual [markChars, isMark, mem_replicate, or_imp]

theorem marked_markChars (pointer : Nat) (reference : Bool) :
    Marked (markChars pointer reference) (markChars pointer reference) := by
  have all := isMark_markChars pointer reference
  generalize markChars pointer reference = ms at all
  induction ms with
  | nil => exact .nil
  | cons c ms ih =>
    rw [forall_mem_cons] at all
    show Marked (c :: ms) ([] ++ c :: ms)
    exact .more (forall_mem_nil _) all.1 (ih all.2)

theorem count_markChars (pointer : Nat) (reference : Bool) :
    (markChars pointer reference).count '*' = pointer := by
  cases reference <;> simp [markChars]

theorem contains_markChars (pointer : Nat) (reference : Bool) :
    (markChars pointer reference).contains '&' = reference := by
  cases reference <;> simp [markChars, mem_replicate]

theorem foldl_addWord_plain (s : Spelling) : ∀ {words : List String},
    (∀ w ∈ words, isQualifier w = false) → words.foldl addWord s = s
  | [], _ => rfl
  | w :: words, h => by
      rw [forall_mem_cons] at h
      rw [foldl_cons, addWord_plain h.1, foldl_addWord_plain s h.2]

/-- The parts of a spelling give it back. -/
theorem ofParts_chars (isConst : Bool) (sign : Option Sign) (plain : ∀ w ∈ words, isQualifier w = false)
    (args : List Spelling) (pointer : Nat) (reference : Bool) :
    ofParts ((qualifiers isConst sign ++ words).map String.toList) args (markChars pointer reference) =
      ⟨isConst, sign, join " " words, args, pointer, reference⟩ := by
  have texts : ((qualifiers isConst sign ++ words).map String.toList).map String.ofList =
      qualifiers isConst sign ++ words := by
    simp [map_map, Function.comp_def]
  have apart : (qualifiers isConst sign).filter (fun w => !isQualifier w) = [] := by
    cases isConst <;> rcases sign with _ | _ | _ <;> rfl
  have kept : words.filter (fun w => !isQualifier w) = words :=
    filter_eq_self.mpr fun w hw => by simp [plain w hw]
  have set (s : Spelling) (const : s.isConst = false) (none : s.sign = none) :
      (qualifiers isConst sign).foldl addWord s = { s with isConst, sign } := by
    obtain ⟨_, _, name, args, pointer, reference⟩ := s
    obtain rfl : _ = false := const
    obtain rfl : _ = Option.none := none
    cases isConst <;> rcases sign with _ | _ | _ <;> rfl
  rw [ofParts, texts, filter_append, apart, kept, List.nil_append, foldl_append]
  simp only [set, foldl_addWord_plain _ plain, count_markChars, contains_markChars]

/-! ### Printed spellings are read back -/

theorem join_words (paths : ∀ w ∈ words, IsPath w) :
    join " " (qualifiers isConst sign ++ if (join " " words).isEmpty then [] else [join " " words]) =
      join " " (qualifiers isConst sign ++ words) := by
  cases words with
  | nil => rfl
  | cons w words =>
    have name : (join " " (w :: words)).isEmpty = false := by
      have nonempty := (paths w mem_cons_self).ne_empty
      rw [← Bool.not_eq_true, String.isEmpty_iff, ← String.toList_eq_nil_iff, toList_join_cons]
      simp [nonempty]
    rw [name]
    cases isConst <;> rcases sign with _ | _ | _ <;> rfl

theorem paths_words (paths : ∀ w ∈ words, IsPath w)
    (named : words = [] → isConst = true ∨ sign.isSome = true) :
    (∀ w ∈ qualifiers isConst sign ++ words, IsPath w) ∧ qualifiers isConst sign ++ words ≠ [] := by
  have qualifier : ∀ w ∈ qualifiers isConst sign, IsPath w := by
    have all : ∀ w ∈ ["const", "signed", "unsigned"], IsIdentifier w := by decide
    refine fun w hw => .one (all w ?_)
    cases isConst <;> rcases sign with _ | _ | _ <;> revert hw <;> simp [qualifiers] <;> tauto
  refine ⟨forall_mem_append.mpr ⟨qualifier, paths⟩, fun none => ?_⟩
  rw [append_eq_nil_iff] at none
  have empty := none.1
  cases isConst <;> rcases sign with _ | _ | _ <;> simp_all [qualifiers]

theorem holds_chars {t : Spelling} (h : Framed t.chars ∧ ReadsAs t.chars t) : Holds t.chars t :=
  ⟨[], _, [], by simp, by simp, by simp, h.1, h.2⟩

theorem continues_moreArgChars : ∀ {args : List Spelling},
    (∀ arg ∈ args, Framed arg.chars ∧ ReadsAs arg.chars arg) → Continues (moreArgChars args) args
  | [], _ => continues_nil
  | arg :: args, h => by
      rw [forall_mem_cons] at h
      have spaces : ∀ c ∈ [' '], isSpace c = true := by simp [isSpace]
      exact ((holds_chars h.1).after_spaces spaces).continues (continues_moreArgChars h.2)

/-- The canonical text is read back wherever it stands. -/
theorem Printable.reads {t : Spelling} (h : Printable t) : Framed t.chars ∧ ReadsAs t.chars t := by
  induction h with
  | @intro isConst sign words args pointer reference paths plain named inner ih =>
    obtain ⟨allPaths, some⟩ := paths_words paths named
    have spells := spells_join allPaths some
    have marked := marked_markChars pointer reference
    rw [chars, join_words paths, ← ofParts_chars isConst sign plain args pointer reference]
    cases args with
    | nil =>
      rw [argChars, List.append_nil]
      exact ⟨spells.framed.append marked, readsAs_plain spells marked⟩
    | cons arg args =>
      rw [forall_mem_cons] at ih
      have inside := ((holds_chars ih.1).encloses (continues_moreArgChars ih.2)).read
      have framed := framed_template spells marked ('<' :: (arg.chars ++ moreArgChars args))
      have read := readsAs_template spells marked (forall_mem_nil _) inside
      simp only [argChars, List.append_assoc, cons_append, List.nil_append] at framed read ⊢
      exact ⟨framed, read⟩

/-- A printable spelling is read back from its text. -/
theorem parse?_render_of_printable {t : Spelling} (h : Printable t) : parse? (render t) = some (t, "") := by
  have read := h.reads.2 (t.chars.length + 1) [] (by omega) (by simp [Stops])
  rw [List.append_nil] at read
  rw [parse?, render, String.length_ofList, String.toList_ofList, read]
  rfl

/-- Reading inverts the canonical text: whatever is read from any text is read back from its canonical
text, and so is every spelling whose names are made of paths. -/
theorem parse?_render :
    (∀ (i rest : String) (t : Spelling), parse? i = some (t, rest) → parse? (render t) = some (t, "")) ∧
    ∀ t : Spelling, Printable t → parse? (render t) = some (t, "") := by
  exact ⟨fun i rest t h => parse?_render_of_printable (printable_of_parse? h), fun t =>
    parse?_render_of_printable⟩

/-- A constant pointer to a table from names to lists, one of which holds only a qualifier. -/
def roster : Spelling :=
  ⟨true, some .unsigned, "big std::map",
    [⟨false, none, "ai::Name", [], 0, false⟩,
     ⟨false, none, "vector", [⟨true, none, "", [], 2, true⟩], 0, false⟩], 1, false⟩

/-- The spelling is read from a text in another order and with other blanks, and from its canonical text;
as the argument of a spelling without a name it is read as well. -/
theorem parse?_render_roster :
    parse? " big  unsigned\tstd::map const< ai::Name ,vector < const* * & > > *, x" = some (roster, ", x") ∧
    render roster = "const unsigned big std::map<ai::Name, vector<const**&>>*" ∧
    parse? (render roster) = some (roster, "") ∧ Printable ⟨true, none, "", [roster], 2, true⟩ ∧
    parse? (render ⟨true, none, "", [roster], 2, true⟩) = some (⟨true, none, "", [roster], 2, true⟩, "") := by
  have read : parse? " big  unsigned\tstd::map const< ai::Name ,vector < const* * & > > *, x" =
      some (roster, ", x") := by cbv
  have words : ∀ w ∈ ["big", "std", "map", "ai", "Name", "vector"], IsIdentifier w := by decide
  simp only [forall_mem_cons] at words
  obtain ⟨big, std, map, ai, label, vector, -⟩ := words
  have name : Printable ⟨false, none, "ai::Name", [], 0, false⟩ :=
    @Printable.intro false none ["ai::Name"] [] 0 false
      (forall_mem_singleton.mpr (.more ai (.one label))) (by decide) (by simp) (by simp)
  have bare : Printable ⟨true, none, "", [], 2, true⟩ :=
    @Printable.intro true none [] [] 2 true (by simp) (by simp) (by simp) (by simp)
  have list : Printable ⟨false, none, "vector", [⟨true, none, "", [], 2, true⟩], 0, false⟩ :=
    @Printable.intro false none ["vector"] _ 0 false (forall_mem_singleton.mpr (.one vector)) (by decide)
      (by simp) (forall_mem_singleton.mpr bare)
  have printable : Printable roster :=
    @Printable.intro true (some .unsigned) ["big", "std::map"] _ 1 false
      (forall_mem_cons.mpr ⟨.one big, forall_mem_singleton.mpr (.more std (.one map))⟩) (by decide)
      (by simp) (forall_mem_cons.mpr ⟨name, forall_mem_singleton.mpr list⟩)
  have nameless : Printable ⟨true, none, "", [roster], 2, true⟩ :=
    @Printable.intro true none [] _ 2 true (by simp) (by simp) (by simp) (forall_mem_singleton.mpr printable)
  exact ⟨read, by cbv, parse?_render.1 _ _ _ read, nameless, parse?_render.2 _ nameless⟩

end GoTrees.Spelling
