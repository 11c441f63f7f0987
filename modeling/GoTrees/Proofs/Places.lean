import GoTrees.Workspace.FileSystem
import Mathlib.Data.List.Infix

/-!
# Places in a directory tree

Names lead to a place, whether or not the directories on the way exist. They resolve to it in a tree if each
directory that they leave again by `..` exists:

    names      m / .. / f           resolve only if the directory m exists
    place      f

Each entry stands in a directory, so names that resolve never come back from a place where nothing is. The
directories that are made along them are those above their place that were missing, and what is read and
written under the names is what stands at the place.
-/

namespace GoTrees.FileSystem

open List

variable {fs fs' : FileSystem} {p q path : Path} {name : String} {names rest : List String} {e : Entry}

/-! ### Paths -/

/-- The root or a directory above it. -/
def IsTop (path : Path) : Prop := ∀ name ∈ path, name = ".."

instance : Decidable (IsTop p) := inferInstanceAs (Decidable (∀ _ ∈ _, _))

theorem all_iff_isTop : path.all (· == "..") = true ↔ IsTop path := by
  simp [IsTop]

theorem enter_name (dot : name ≠ ".") (up : name ≠ "..") : enter path name = path ++ [name] := by
  rw [enter]
  · exact dot
  · exact up

theorem enter_up : enter path ".." = if IsTop path then path ++ [".."] else path.dropLast := by
  rw [enter]
  simp only [all_iff_isTop]

/-- A way up is at the front of a path only. -/
def Normal (path : Path) : Prop := path.Pairwise fun a b => b = ".." → a = ".."

theorem Normal.enter (h : Normal path) (name : String) : Normal (enter path name) := by
  by_cases dot : name = "."
  · rw [dot]
    exact h
  · by_cases up : name = ".."
    · rw [up, enter_up]
      split
      · next top => exact pairwise_append.mpr ⟨h, by simp, fun a ha _ _ _ => top a ha⟩
      · exact h.sublist (dropLast_sublist path)
    · rw [enter_name dot up]
      refine pairwise_append.mpr ⟨h, by simp, fun _ _ b hb isUp => ?_⟩
      exact absurd (mem_singleton.mp hb ▸ isUp) up

def placeFrom (path : Path) (names : List String) : Path := names.foldl enter path

/-- The place that names lead to from the root. -/
def place (names : List String) : Path := placeFrom [] names

theorem placeFrom_append (front : List String) :
    placeFrom path (front ++ rest) = placeFrom (placeFrom path front) rest :=
  foldl_append

theorem Normal.placeFrom : ∀ (names : List String) {path : Path}, Normal path → Normal (placeFrom path names)
  | [], _, h => h
  | name :: rest, _, h => (h.enter name).placeFrom rest

theorem normal_place (names : List String) : Normal (place names) := Normal.placeFrom names List.Pairwise.nil

/-- The second path leads on from the first, through directories below it. -/
def Above (p q : Path) : Prop := p <+: q ∧ p ≠ q ∧ ".." ∉ q.drop p.length

/-- The paths are different, and neither leads to a directory above the other. -/
def Apart (p q : Path) : Prop := p ≠ q ∧ ¬ Above p q ∧ ¬ Above q p

instance : Decidable (Above p q) := inferInstanceAs (Decidable (_ ∧ _))

instance : Decidable (Apart p q) := inferInstanceAs (Decidable (_ ∧ _))

theorem Apart.symm (h : Apart p q) : Apart q p := ⟨h.1.symm, h.2.2, h.2.1⟩

theorem above_of_leads (normal : Normal q) (top : ¬ IsTop p) (leads : p <+: q) (ne : p ≠ q) : Above p q := by
  refine ⟨leads, ne, fun up => top fun a ha => ?_⟩
  obtain ⟨rest, rfl⟩ := leads
  rw [drop_left] at up
  exact (pairwise_append.mp normal).2.2 a ha _ up rfl

/-! ### Entries -/

theorem entry?_of_isTop (h : IsTop p) : fs.entry? p = some .directory := by
  rw [ entry?, entryIn?, if_pos (all_iff_isTop.mpr h)]

theorem not_isTop_of_gap (gap : fs.entry? p = none) : ¬ IsTop p := by
  intro top
  rw [entry?_of_isTop top] at gap
  cases gap

theorem entry?_put_self (parent : fs.entry? p.dropLast = some .directory)
    (leaf : fs.entry? p ≠ some .directory) : entry? (fs.put p e) p = some e := by
  have top : ¬ IsTop p := fun top => leaf (entry?_of_isTop top)
  rw [put, dif_pos ⟨parent, leaf⟩, entry?, entryIn?, if_neg (mt all_iff_isTop.mp top)]
  simp

theorem entry?_put_of_ne (h : q ≠ p) : entry? (fs.put p e) q = fs.entry? q := by
  rw [put]
  split
  · exact entryIn?_put_of_ne h e fs.entries
  · rfl

theorem put_of_directory (dir : fs.entry? p = some .directory) : fs.put p e = fs := by
  simp [put, dir]

theorem refused_put : (fs.put p e).refused = fs.refused := by
  rw [put]
  split <;> rfl

theorem refuses_congr (h : fs'.refused = fs.refused) (request : Request) (q : Path) :
    fs'.refuses request q = fs.refuses request q := by
  rw [refuses, h, refuses]

def isDir? (fs : FileSystem) (path : Path) : Option Bool := (fs.entry? path).map (· == .directory)

theorem isDir?_eq_true : fs.isDir? p = some true ↔ fs.entry? p = some .directory := by
  simp [isDir?]

theorem isDir?_eq_none : fs.isDir? p = none ↔ fs.entry? p = none := by
  simp [isDir?]

theorem isDir?_ne_true_of_gap (gap : fs.entry? p = none) : fs.isDir? p ≠ some true := by
  simp [isDir?, gap]

theorem eq_false_of_isDir? {b : Bool} (found : fs.isDir? p = some b) (file : fs.entry? p ≠ some .directory) :
    b = false := by
  by_contra dir
  rw [Bool.not_eq_false] at dir
  exact file (isDir?_eq_true.mp (dir ▸ found))

theorem isDir?_root : fs.isDir? [] = some true := isDir?_eq_true.mpr (entry?_of_isTop (by simp [IsTop]))

/-- Directories stay directories and files stay files, and no directory is new where making it is refused. -/
structure KeptIn (fs fs' : FileSystem) : Prop where
  kind : ∀ q b, fs.isDir? q = some b → fs'.isDir? q = some b
  refused : fs'.refused = fs.refused
  allowed : ∀ q, fs.entry? q = none → fs'.isDir? q = some true → fs.refuses .makeDirectory q = false

theorem KeptIn.refl (fs : FileSystem) : KeptIn fs fs where
  kind _ _ h := h
  refused := rfl
  allowed q gap dir := by simp [isDir?, gap] at dir

theorem KeptIn.trans {fs'' : FileSystem} (h : KeptIn fs fs') (h' : KeptIn fs' fs'') : KeptIn fs fs'' where
  kind q b found := h'.kind q b (h.kind q b found)
  refused := h'.refused.trans h.refused
  allowed q gap dir := by
    cases between : fs'.isDir? q with
    | none =>
      rw [← refuses_congr h.refused]
      exact h'.allowed q (isDir?_eq_none.mp between) dir
    | some b =>
      have same := h'.kind q b between
      rw [dir] at same
      exact h.allowed q gap (between.trans same.symm)

/-- Names can lead on from a directory, and from a gap where one can be made. -/
def Opens (fs : FileSystem) (path : Path) : Prop :=
  fs.isDir? path = some true ∨ fs.entry? path = none ∧ fs.refuses .makeDirectory path = false

theorem KeptIn.opens (kept : KeptIn fs fs') (h : Opens fs' q) : Opens fs q := by
  cases found : fs.isDir? q with
  | none =>
    have gap := isDir?_eq_none.mp found
    refine .inr ⟨gap, ?_⟩
    rcases h with dir | ⟨-, allowed⟩
    · exact kept.allowed q gap dir
    · rwa [← refuses_congr kept.refused]
  | some b =>
    have still := kept.kind q b found
    rcases h with dir | ⟨gap, -⟩
    · exact .inl (found.trans (still.symm.trans dir))
    · simp [isDir?_eq_none.mpr gap] at still

theorem kept_put (parent : fs.entry? p.dropLast = some .directory) (leaf : fs.entry? p ≠ some .directory)
    (file : e ≠ .directory) : KeptIn fs (fs.put p e) := by
  have new : isDir? (fs.put p e) p = some false := by simp [isDir?, entry?_put_self parent leaf, file]
  refine ⟨fun q b found => ?_, refused_put, fun q gap dir => ?_⟩
  · by_cases hq : q = p
    · subst hq
      rw [new, eq_false_of_isDir? found leaf]
    · rwa [isDir?, entry?_put_of_ne hq]
  · by_cases hq : q = p
    · simp [hq, new] at dir
    · simp [isDir?, entry?_put_of_ne hq, gap] at dir

/-! ### Walks -/

theorem walk_cons (fs : FileSystem) (path : Path) (name : String) (rest : List String) :
    fs.walk path (name :: rest) = match fs.isDir? path with
      | some true => if isTooLong name then .blocked else fs.walk (enter path name) rest
      | some false => .blocked
      | none => .missing := by
  rw [walk, isDir?]
  rcases fs.entry? path with _ | _ | _ | _ <;> rfl

/-- A walk that comes to an end or to a file does so in every tree that keeps the files and directories. -/
theorem walk_kept (kept : KeptIn fs fs') : ∀ (names : List String) {path : Path},
    fs.walk path names ≠ .missing → fs'.walk path names = fs.walk path names
  | [], _, _ => rfl
  | name :: rest, path, h => by
      rw [walk_cons, walk_cons]
      rw [walk_cons] at h
      cases dir : fs.isDir? path with
      | none => simp [dir] at h
      | some b =>
        rw [kept.kind path b dir]
        cases b with
        | false => rfl
        | true =>
          simp only [dir] at h ⊢
          split
          · rfl
          · next short =>
            rw [if_neg short] at h
            exact walk_kept kept rest h

theorem walk_of_isDir? (dir : fs.isDir? path = some true) (short : isTooLong name = false) :
    fs.walk path (name :: rest) = fs.walk (enter path name) rest := by
  simp [walk_cons, dir, short]

/-- A walk that comes to its end goes through directories. -/
theorem of_walk_cons (h : fs.walk path (name :: rest) = .arrived p) :
    fs.isDir? path = some true ∧ isTooLong name = false ∧ fs.walk (enter path name) rest = .arrived p := by
  rw [walk_cons] at h
  split at h
  · next dir =>
    cases short : isTooLong name with
    | true => simp [short] at h
    | false => exact ⟨dir, rfl, by simpa [short] using h⟩
  · cases h
  · cases h

theorem eq_placeFrom_of_walk : ∀ {names : List String} {path : Path}, fs.walk path names = .arrived p →
    p = placeFrom path names
  | [], _, h => by
      rw [walk] at h
      cases h
      rfl
  | _ :: _, _, h => by
      obtain ⟨-, -, more⟩ := of_walk_cons h
      rw [eq_placeFrom_of_walk more]
      rfl

theorem isDir?_of_walk_concat {last : String} : ∀ {front : List String} {path : Path},
    fs.walk path (front ++ [last]) = .arrived p → fs.isDir? (placeFrom path front) = some true
  | [], _, h => (of_walk_cons h).1
  | name :: front, path, h => by
      have onward : placeFrom path (name :: front) = placeFrom (enter path name) front := rfl
      rw [onward]
      exact isDir?_of_walk_concat (of_walk_cons h).2.2

theorem eq_place_of_walk (h : fs.walk [] names = .arrived p) : p = place names := eq_placeFrom_of_walk h

theorem walk_append : ∀ (front : List String) {path : Path}, fs.walk path front = .arrived p →
    fs.walk path (front ++ rest) = fs.walk p rest
  | [], _, h => by
      rw [walk] at h
      cases h
      rfl
  | _ :: front, _, h => by
      obtain ⟨dir, short, more⟩ := of_walk_cons h
      rw [cons_append, walk_of_isDir? dir short, walk_append front more]

/-! ### Reading -/

/-- No name holds a null character. -/
def Clean (names : List String) : Prop := ∀ name ∈ names, '\x00' ∉ name.toList

theorem read_of_clean (clean : Clean names) : fs.read names = match fs.walk [] names with
    | .missing => .absent
    | .blocked => .unreadable
    | .arrived path => fs.readAt path := by
  unfold read
  exact if_neg (by simpa [Clean] using clean)

theorem readAt_eq_text {contents : String} :
    fs.readAt p = .text contents ↔ fs.entry? p = some (.text contents) ∧ fs.refuses .read p = false := by
  rw [readAt]
  cases fs.refuses .read p <;> rcases fs.entry? p with _ | _ | _ | _ <;> simp

theorem read_of_not_clean (null : ¬ Clean names) : fs.read names = .unreadable := by
  rw [read, if_pos]
  simpa [Clean] using null

theorem clean_of_read (h : fs.read names ≠ .unreadable) : Clean names := by
  by_contra null
  exact h (read_of_not_clean null)

theorem arrived_of_read {contents : String} (h : fs.read names = .text contents) :
    fs.walk [] names = .arrived (place names) ∧ fs.readAt (place names) = .text contents := by
  have readable : fs.read names ≠ .unreadable := by simp [h]
  rw [read_of_clean (clean_of_read readable)] at h
  cases walk : fs.walk [] names with
  | missing => simp [walk] at h
  | blocked => simp [walk] at h
  | arrived p =>
    obtain rfl := eq_place_of_walk walk
    simp only [walk] at h
    exact ⟨rfl, h⟩

/-- A file that is there is read as before, if it and the directories stay. -/
theorem read_kept (kept : KeptIn fs fs')
    (same : ∀ e, fs.entry? (place names) = some e → fs'.entry? (place names) = some e)
    (there : fs.read names ≠ .absent) : fs'.read names = fs.read names := by
  by_cases clean : Clean names
  · rw [read_of_clean clean] at there ⊢
    rw [read_of_clean clean]
    have found : fs.walk [] names ≠ .missing := by
      intro missing
      simp [missing] at there
    rw [walk_kept kept names found]
    cases walk : fs.walk [] names with
    | missing => rfl
    | blocked => rfl
    | arrived p =>
      obtain rfl := eq_place_of_walk walk
      simp only [walk] at there ⊢
      cases entry : fs.entry? (place names) with
      | none => simp [readAt, entry] at there
      | some e => simp only [readAt, same e entry, entry, refuses_congr kept.refused]
  · rw [read_of_not_clean clean, read_of_not_clean clean]

/-! ### Passable names -/

/-- The names lead on all the way, and each of them can be looked up. -/
def Passable (fs : FileSystem) (path : Path) : List String → Prop
  | [] => True
  | name :: rest => Opens fs path ∧ isTooLong name = false ∧ Passable fs (enter path name) rest

theorem Passable.opens : ∀ {names : List String}, Passable fs path names → names ≠ [] → Opens fs path
  | [], _, ne => absurd rfl ne
  | _ :: _, h, _ => h.1

theorem Passable.short {front : List String} {last : String} : ∀ {path : Path},
    Passable fs path (front ++ [last]) → isTooLong last = false := by
  induction front with
  | nil => exact fun h => h.2.1
  | cons _ _ ih => exact fun h => ih h.2.2

theorem passable_of_walk : ∀ {names : List String} {path : Path}, fs.walk path names = .arrived p →
    Passable fs path names
  | [], _, _ => trivial
  | _ :: _, _, h => by
      obtain ⟨dir, short, more⟩ := of_walk_cons h
      exact ⟨.inl dir, short, passable_of_walk more⟩

theorem Passable.not_blocked : ∀ {names : List String} {path : Path}, Passable fs path names →
    fs.walk path names ≠ .blocked
  | [], _, _ => by simp [walk]
  | name :: rest, path, ⟨opens, short, more⟩ => by
      rw [walk_cons]
      split
      · simpa [short] using more.not_blocked
      · next file =>
        rcases opens with dir | ⟨gap, -⟩
        · simp [dir] at file
        · simp [isDir?, gap] at file
      · simp

theorem Passable.of_kept (kept : KeptIn fs fs') : ∀ {names : List String} {path : Path},
    Passable fs' path names → Passable fs path names
  | [], _, _ => trivial
  | _ :: _, _, ⟨opens, short, more⟩ => ⟨kept.opens opens, short, more.of_kept kept⟩

/-! ### Names that resolve -/

theorem entry?_append (h : fs.entry? path ≠ some .directory) (name : String) :
    fs.entry? (path ++ [name]) = none := by
  cases found : fs.entry? (path ++ [name]) with
  | none => rfl
  | some e =>
    have dir := fs.closed _ e found
    rw [dropLast_concat] at dir
    exact absurd dir h

/-- A name leads to a directory, or one step down. -/
theorem enter_cases (dir : fs.entry? path = some .directory) (name : String) :
    fs.entry? (enter path name) = some .directory ∨ enter path name = path ++ [name] := by
  by_cases dot : name = "."
  · left
    rw [dot]
    exact dir
  · by_cases up : name = ".."
    · left
      rw [up, enter_up]
      split
      · next top => exact entry?_of_isTop fun a ha => (mem_append.mp ha).elim (top a) mem_singleton.mp
      · exact fs.closed path _ dir
    · exact .inr (enter_name dot up)

theorem dropLast_enter (dir : fs.entry? path = some .directory)
    (leaf : fs.entry? (enter path name) ≠ some .directory) :
    fs.entry? (enter path name).dropLast = some .directory := by
  rcases enter_cases dir name with there | inside
  · exact absurd there leaf
  · rw [inside, dropLast_concat, dir]

/-- Each directory that the names leave again exists. -/
def Resolves (fs : FileSystem) (path : Path) : List String → Prop
  | [] => True
  | name :: rest => (name = ".." → fs.isDir? path = some true) ∧ Resolves fs (enter path name) rest

instance decidableResolves (fs : FileSystem) :
    ∀ (path : Path) (names : List String), Decidable (Resolves fs path names)
  | _, [] => .isTrue trivial
  | path, name :: rest =>
    have := decidableResolves fs (enter path name) rest
    inferInstanceAs (Decidable (_ ∧ _))

theorem resolves_append : ∀ (front : List String) {path : Path},
    Resolves fs path (front ++ rest) ↔ Resolves fs path front ∧ Resolves fs (placeFrom path front) rest
  | [], _ => by simp [Resolves, placeFrom]
  | name :: front, path => by
      rw [cons_append, Resolves, Resolves, resolves_append front, and_assoc]
      rfl

theorem Resolves.kept (kept : KeptIn fs fs') : ∀ {names : List String} {path : Path},
    Resolves fs path names → Resolves fs' path names
  | [], _, _ => trivial
  | _ :: _, path, ⟨up, more⟩ => ⟨fun h => kept.kind path true (up h), more.kept kept⟩

theorem resolves_of_notMem : ∀ {names : List String} {path : Path}, ".." ∉ names → Resolves fs path names
  | [], _, _ => trivial
  | name :: rest, path, h => by
      rw [mem_cons, not_or] at h
      exact ⟨fun up => absurd up.symm h.1, resolves_of_notMem h.2⟩

theorem Resolves.gap : ∀ {names : List String} {path : Path}, Resolves fs path names →
    fs.entry? path = none → path <+: placeFrom path names ∧ fs.entry? (placeFrom path names) = none
  | [], _, _, gap => ⟨prefix_rfl, gap⟩
  | name :: rest, path, ⟨up, more⟩, gap => by
      rw [placeFrom, foldl_cons]
      by_cases dot : name = "."
      · subst dot
        exact more.gap gap
      · have down : name ≠ ".." := fun isUp => isDir?_ne_true_of_gap gap (up isUp)
        rw [enter_name dot down] at more ⊢
        have deeper := more.gap (entry?_append (by simp [gap]) name)
        exact ⟨(prefix_append path [name]).trans deeper.1, deeper.2⟩

theorem Resolves.entry?_of_missing : ∀ {names : List String} {path : Path},
    Resolves fs path names → fs.walk path names = .missing → fs.entry? (placeFrom path names) = none
  | [], _, _, h => by simp [walk] at h
  | name :: rest, path, resolves, h => by
      cases dir : fs.isDir? path with
      | none => exact (resolves.gap (isDir?_eq_none.mp dir)).2
      | some b =>
        rw [walk_cons, dir] at h
        cases b with
        | false => cases h
        | true =>
          simp only at h
          split at h
          · cases h
          · exact resolves.2.entry?_of_missing h

theorem Resolves.gap_above {front between : List String} {last : String}
    (resolves : Resolves fs [] (front ++ between ++ [last])) (dot : last ≠ ".")
    (gap : fs.entry? (place front) = none) :
    place front <+: place (front ++ between ++ [last]) ∧ place front ≠ place (front ++ between ++ [last]) := by
  obtain ⟨before, ends⟩ := (resolves_append _).mp resolves
  have deeper := ((resolves_append front).mp before).2.gap gap
  rw [← placeFrom_append] at deeper
  have down : last ≠ ".." := fun isUp => isDir?_ne_true_of_gap deeper.2 (ends.1 isUp)
  have whole : place (front ++ between ++ [last]) = place (front ++ between) ++ [last] := by
    rw [place, placeFrom_append]
    exact enter_name dot down
  rw [whole]
  refine ⟨deeper.1.trans (prefix_append _ _), fun same => ?_⟩
  have long := deeper.1.length_le
  have equal := congrArg List.length same
  rw [length_append] at equal
  simp only [place, length_singleton] at equal
  omega

end GoTrees.FileSystem
