import GoTrees.Proofs.Places

/-!
# Directories made on the way

Making directories only fills gaps, at places on the way and where it is not refused. It stops where names
do not lead on or cannot be looked up; otherwise a walk along them arrives afterwards. Trying again, also
in a tree that has got more files and directories, makes no directory and stops at the same name.
-/

namespace GoTrees.FileSystem

open List

variable {made : Path → Prop} {last : String}

variable {fs fs' : FileSystem} {p path : Path} {name : String} {names rest : List String} {e : Entry}

/-! ### Making directories -/

/-- All that is new are directories of the given sort, in gaps where they can be made. -/
structure Grown (made : Path → Prop) (fs fs' : FileSystem) : Prop where
  refused : fs'.refused = fs.refused
  entry : ∀ q, fs'.entry? q = fs.entry? q ∨
    fs.entry? q = none ∧ fs'.entry? q = some .directory ∧ fs.refuses .makeDirectory q = false ∧ made q

theorem Grown.refl (made : Path → Prop) (fs : FileSystem) : Grown made fs fs := ⟨rfl, fun _ => .inl rfl⟩

theorem Grown.kept (grown : Grown made fs fs') : KeptIn fs fs' where
  refused := grown.refused
  kind q b found := by
    rcases grown.entry q with same | ⟨gap, -⟩
    · rwa [isDir?, same]
    · simp [isDir?, gap] at found
  allowed q gap dir := by
    rcases grown.entry q with same | ⟨-, -, allowed, -⟩
    · simp [isDir?, same, gap] at dir
    · exact allowed

theorem Grown.trans {fs'' : FileSystem} (h : Grown made fs fs') (h' : Grown made fs' fs'') :
    Grown made fs fs'' := by
  refine ⟨h'.refused.trans h.refused, fun q => ?_⟩
  rcases h.entry q with same | ⟨gap, dir, there⟩
  · rw [← same, ← refuses_congr h.refused]
    exact h'.entry q
  · rcases h'.entry q with same' | ⟨gap', -⟩
    · exact .inr ⟨gap, same'.trans dir, there⟩
    · rw [dir] at gap'
      cases gap'

theorem Grown.mono {made' : Path → Prop} (h : Grown made fs fs') (imp : ∀ q, made q → made' q) :
    Grown made' fs fs' :=
  ⟨h.refused, fun q => (h.entry q).imp id fun ⟨gap, dir, allowed, there⟩ => ⟨gap, dir, allowed, imp q there⟩⟩

theorem Grown.opens (grown : Grown made fs fs') (h : Opens fs p) : Opens fs' p := by
  rcases grown.entry p with same | ⟨-, dir, -⟩
  · rwa [Opens, isDir?, same, refuses_congr grown.refused]
  · exact .inl (isDir?_eq_true.mpr dir)

/-- The first step along names that lead on. -/
theorem opened (made : Path → Prop) (dir : fs.isDir? path = some true) (opens : Opens fs (enter path name))
    (there : made (enter path name)) :
    isDir? (fs.put (enter path name) .directory) (enter path name) = some true ∧
      Grown made fs (fs.put (enter path name) .directory) := by
  rcases opens with next | ⟨gap, allowed⟩
  · rw [put_of_directory (isDir?_eq_true.mp next)]
    exact ⟨next, .refl made fs⟩
  · have leaf : fs.entry? (enter path name) ≠ some .directory := by simp [gap]
    have new : entry? (fs.put (enter path name) .directory) (enter path name) = some .directory :=
      entry?_put_self (dropLast_enter (isDir?_eq_true.mp dir) leaf) leaf
    refine ⟨isDir?_eq_true.mpr new, refused_put, fun q => ?_⟩
    by_cases hq : q = enter path name
    · subst hq
      exact .inr ⟨gap, new, allowed, there⟩
    · exact .inl (entry?_put_of_ne hq)

/-- One step: it goes on in a directory that is there now, or it stops. -/
theorem makeDirs_cons (fs : FileSystem) (path : Path) (name : String) (rest : List String) :
    (isTooLong name = false ∧ Opens fs (enter path name) ∧
      fs.makeDirs path (name :: rest) =
        (fs.put (enter path name) .directory).makeDirs (enter path name) rest) ∨
    (¬ (isTooLong name = false ∧ Opens fs (enter path name)) ∧
      fs.makeDirs path (name :: rest) = (fs, none)) := by
  rw [makeDirs]
  cases isTooLong name with
  | true => exact .inr ⟨by simp, rfl⟩
  | false =>
    simp only [Opens, isDir?]
    rcases found : fs.entry? (enter path name) with _ | _ | _ | _
    · cases fs.refuses .makeDirectory (enter path name) <;> simp
    · exact .inr ⟨by simp, rfl⟩
    · exact .inr ⟨by simp, rfl⟩
    · exact .inl ⟨trivial, by simp, by rw [put_of_directory found]⟩

/-- Directories are made at places on the way. -/
theorem makeDirs_grown : ∀ (names : List String) {fs : FileSystem} {path : Path}, fs.isDir? path = some true →
    Grown (fun q => ∃ front, front <+: names ∧ q = placeFrom path front) fs (fs.makeDirs path names).1
  | [], _, _, _ => .refl _ _
  | name :: rest, fs, path, dir => by
      rcases makeDirs_cons fs path name rest with ⟨-, opens, go⟩ | ⟨-, stop⟩
      · obtain ⟨next, first⟩ := opened (fun q => ∃ front, front <+: name :: rest ∧
          q = placeFrom path front) dir opens
          ⟨[name], by simp, rfl⟩
        rw [go]
        refine first.trans ((makeDirs_grown rest next).mono fun q ⟨front, leads, hq⟩ => ?_)
        exact ⟨name :: front, cons_prefix_cons.mpr ⟨rfl, leads⟩, hq⟩
      · rw [stop]
        exact .refl _ _

theorem makeDirs_kept (names : List String) (dir : fs.isDir? path = some true) :
    KeptIn fs (fs.makeDirs path names).1 :=
  (makeDirs_grown names dir).kept

/-- If all directories exist in the end, a walk comes to the last one. -/
theorem makeDirs_arrived : ∀ (names : List String) {fs : FileSystem} {path : Path},
    fs.isDir? path = some true → (fs.makeDirs path names).2 = some p →
      (fs.makeDirs path names).1.walk path names = .arrived p ∧
        (fs.makeDirs path names).1.isDir? p = some true
  | [], _, _, dir, h => by
      obtain rfl : _ = p := Option.some.inj h
      exact ⟨rfl, dir⟩
  | name :: rest, fs, path, dir, h => by
      have still := (makeDirs_kept (name :: rest) dir).kind path true dir
      rcases makeDirs_cons fs path name rest with ⟨short, opens, go⟩ | ⟨-, stop⟩
      · rw [walk_of_isDir? still short]
        rw [go] at h ⊢
        exact makeDirs_arrived rest (opened (fun _ => True) dir opens trivial).1 h
      · rw [stop] at h
        cases h

/-- Once they have been made as far as possible, no directory is made again, and no other can be. -/
theorem makeDirs_again : ∀ (names : List String) {fs : FileSystem} {path : Path}, fs.isDir? path = some true →
    KeptIn (fs.makeDirs path names).1 fs' → fs'.makeDirs path names = (fs', (fs.makeDirs path names).2)
  | [], _, _, _, _ => rfl
  | name :: rest, fs, path, dir, kept => by
      rcases makeDirs_cons fs path name rest with ⟨short, opens, go⟩ | ⟨shut, stop⟩
      · have next := (opened (fun _ => True) dir opens trivial).1
        rw [go] at kept ⊢
        have next' := kept.kind _ _ ((makeDirs_kept rest next).kind _ _ next)
        rcases makeDirs_cons fs' path name rest with ⟨-, -, go'⟩ | ⟨shut', -⟩
        · rw [go', put_of_directory (isDir?_eq_true.mp next'), makeDirs_again rest next kept]
        · exact absurd ⟨short, .inl next'⟩ shut'
      · rw [stop] at kept ⊢
        rcases makeDirs_cons fs' path name rest with ⟨short', opens', -⟩ | ⟨-, stop'⟩
        · exact absurd ⟨short', kept.opens opens'⟩ shut
        · exact stop'

theorem Passable.grown (grown : Grown made fs fs') : ∀ {names : List String} {path : Path},
    Passable fs path names → Passable fs' path names
  | [], _, _ => trivial
  | _ :: _, _, ⟨opens, short, more⟩ => ⟨grown.opens opens, short, more.grown grown⟩

/-- Nothing keeps the directories on a passable way from being made. -/
theorem Passable.makeDirs :
    ∀ (names : List String) {fs : FileSystem} {path : Path}, fs.isDir? path = some true →
    Passable fs path (names ++ [last]) → (fs.makeDirs path names).2 = some (placeFrom path names)
  | [], _, _, _, _ => rfl
  | name :: rest, fs, path, dir, ⟨_, short, more⟩ => by
      have opens := more.opens (by simp)
      rcases makeDirs_cons fs path name rest with ⟨-, -, go⟩ | ⟨shut, -⟩
      · obtain ⟨next, grown⟩ := opened (fun _ => True) dir opens trivial
        rw [go]
        exact Passable.makeDirs rest next (more.grown grown)
      · exact absurd ⟨short, opens⟩ shut

/-! ### Writing files -/

theorem exists_eq_trimmed (names : List String) :
    ∃ dots, names = trimmed names ++ dots ∧ ∀ d ∈ dots, d = "." := by
  refine ⟨(names.reverse.takeWhile (· == ".")).reverse, ?_, fun d hd => ?_⟩
  · rw [trimmed, ← reverse_append, takeWhile_append_dropWhile, reverse_reverse]
  · simpa using all_eq_true.mp all_takeWhile d (mem_reverse.mp hd)

theorem getLast?_trimmed (names : List String) : (trimmed names).getLast? ≠ some "." := by
  intro last
  rw [trimmed, getLast?_reverse] at last
  have stops := head?_dropWhile_not (· == ".") names.reverse
  rw [last] at stops
  simp at stops

theorem trimmed_concat {front : List String} (dot : last ≠ ".") :
    trimmed (front ++ [last]) = front ++ [last] := by
  have stays : (last == ".") = false := by simpa using dot
  rw [trimmed, reverse_concat, dropWhile_cons_of_neg (by simp [stays]), reverse_cons,
    reverse_reverse]

theorem placeFrom_dots :
    ∀ {dots : List String} {path : Path}, (∀ d ∈ dots, d = ".") → placeFrom path dots = path
  | [], _, _ => rfl
  | d :: dots, path, h => by
      obtain ⟨rfl, more⟩ := forall_mem_cons.mp h
      have stays : placeFrom path ("." :: dots) = placeFrom path dots := rfl
      rw [stays, placeFrom_dots more]

theorem place_trimmed (names : List String) : place (trimmed names) = place names := by
  obtain ⟨dots, whole, stay⟩ := exists_eq_trimmed names
  conv => rhs; rw [whole]
  rw [place, place, placeFrom_append, placeFrom_dots stay]

/-- A missing directory on the way lies above the place. -/
theorem Resolves.gap_trimmed (resolves : Resolves fs [] names) {front : List String}
    (leads : front <+: (trimmed names).dropLast) (gap : fs.entry? (place front) = none) :
    place front <+: place names ∧ place front ≠ place names := by
  obtain ⟨dots, whole, -⟩ := exists_eq_trimmed names
  rw [whole, resolves_append] at resolves
  rcases eq_nil_or_concat' (trimmed names) with empty | ⟨ns, last, cut⟩
  · rw [empty, dropLast_nil, prefix_nil] at leads
    rw [leads, place, placeFrom, foldl_nil, entry?_of_isTop (by simp [IsTop])] at gap
    cases gap
  · have dot : last ≠ "." := by
      rintro rfl
      exact getLast?_trimmed names (by rw [cut, getLast?_concat])
    rw [cut, dropLast_concat] at leads
    obtain ⟨between, rfl⟩ := leads
    rw [← place_trimmed names, cut]
    rw [cut] at resolves
    exact resolves.1.gap_above dot gap

/-- Nothing is refused that writing a file asks for, once its directory is there. -/
def Allows (fs : FileSystem) (front : List String) (last : String) : Prop :=
  fs.refuses .create (place front) = false ∧ fs.refuses .fill (place (front ++ [last])) = false ∧
    fs.refuses .move (place (front ++ [last])) = false

theorem allows_congr (h : fs'.refused = fs.refused) {front : List String} :
    Allows fs' front last ↔ Allows fs front last := by
  simp only [Allows, refuses_congr h]

/-- The directories in front of a file can be made, and the file can be written and moved to its place. -/
structure Fits (fs : FileSystem) (front : List String) (last : String) : Prop where
  dot : last ≠ "."
  short : isTooLong last = false
  made : (fs.makeDirs [] front).2 = some (place front)
  leaf : entry? (fs.makeDirs [] front).1 (place (front ++ [last])) ≠ some .directory
  allows : Allows fs front last

def Writable (fs : FileSystem) (names : List String) : Prop :=
  ∃ front last, names = front ++ [last] ∧ Fits fs front last

section Fits

variable {front : List String} {last : String}

theorem place_concat : place (front ++ [last]) = enter (place front) last := placeFrom_append front

/-- What fits after more has been done in the tree did fit before. -/
theorem Fits.of_kept (fits : Fits fs' front last) (kept : KeptIn (fs.makeDirs [] front).1 fs') :
    Fits fs front last := by
  have again := makeDirs_again front isDir?_root kept
  obtain ⟨dot, short, made, leaf, allows⟩ := fits
  rw [again] at made leaf
  refine ⟨dot, short, made, fun dir => leaf ?_, ?_⟩
  · exact isDir?_eq_true.mp (kept.kind _ _ (isDir?_eq_true.mpr dir))
  · exact (allows_congr (kept.refused.trans (makeDirs_kept front isDir?_root).refused)).mp allows

theorem Fits.parent (fits : Fits fs front last) :
    entry? (fs.makeDirs [] front).1 (place (front ++ [last])).dropLast = some .directory := by
  have leaf := fits.leaf
  rw [place_concat] at leaf ⊢
  exact dropLast_enter (isDir?_eq_true.mp (makeDirs_arrived front isDir?_root fits.made).2) leaf

theorem Fits.walk (fits : Fits fs front last) :
    (fs.makeDirs [] front).1.walk [] (front ++ [last]) = .arrived (place (front ++ [last])) := by
  obtain ⟨arrived, dir⟩ := makeDirs_arrived front isDir?_root fits.made
  rw [walk_append front arrived, walk_of_isDir? dir fits.short, place_concat]
  rfl

/-- The written file is read back, unless reading it is refused. -/
theorem Fits.read (fits : Fits fs front last) (clean : Clean (front ++ [last])) (contents : String) :
    ((fs.makeDirs [] front).1.put (place (front ++ [last])) (.text contents)).read (front ++ [last]) =
      if fs.refuses .read (place (front ++ [last])) then .unreadable else .text contents := by
  have kept := kept_put fits.parent fits.leaf (e := .text contents) (by simp)
  have same := kept.refused.trans (makeDirs_kept front isDir?_root).refused
  rw [read_of_clean clean, walk_kept kept _ (by simp [fits.walk]), fits.walk]
  simp only [readAt, entry?_put_self fits.parent fits.leaf, refuses_congr same]

theorem write_of_fits (fits : Fits fs front last) :
    fs.write (front ++ [last]) e = ((fs.makeDirs [] front).1.put (place (front ++ [last])) e, none) := by
  have leaf := fits.leaf
  obtain ⟨create, fill, move⟩ := fits.allows
  have same : (fs.makeDirs [] front).1.refused = fs.refused := (makeDirs_kept front isDir?_root).refused
  rw [place_concat] at leaf fill move ⊢
  simp [write, trimmed_concat fits.dot, fits.made, fits.short, fits.dot, leaf, refuses_congr same,
    create, fill, move]

end Fits

/-- Where a file cannot be written, only directories are made. -/
theorem write_of_not_writable (stuck : ¬ Writable fs names) :
    ∃ failed, fs.write names e = ((fs.makeDirs [] (trimmed names).dropLast).1, some failed) := by
  rw [write]
  rcases eq_nil_or_concat' (trimmed names) with empty | ⟨front, last, cut⟩
  · simp [empty, makeDirs]
  · rw [cut, getLast?_concat, dropLast_concat]
    have same : (fs.makeDirs [] front).1.refused = fs.refused := (makeDirs_kept front isDir?_root).refused
    simp only [refuses_congr same]
    cases made : (fs.makeDirs [] front).2 with
    | none => exact ⟨_, rfl⟩
    | some directory =>
      obtain rfl := eq_place_of_walk (makeDirs_arrived front isDir?_root made).1
      simp only
      split
      · exact ⟨_, rfl⟩
      · next create =>
        split
        · exact ⟨_, rfl⟩
        · next fill =>
          refine ⟨_, if_pos ?_⟩
          by_contra fits
          simp only [Bool.or_eq_true, beq_iff_eq, not_or] at fits
          obtain ⟨⟨⟨short, dots⟩, leaf⟩, move⟩ := fits
          have whole : names = front ++ [last] := by
            rcases eq_nil_or_concat' names with rfl | ⟨front', last', rfl⟩
            · simp [trimmed] at cut
            · rwa [trimmed_concat (by simpa using dots)] at cut
          have dot : last ≠ "." := by simpa [whole] using dots
          rw [← place_concat] at fill leaf move
          exact stuck ⟨front, last, whole, dot, by simpa using short, made, leaf, by simpa using create,
            by simpa using fill, by simpa using move⟩

end GoTrees.FileSystem
