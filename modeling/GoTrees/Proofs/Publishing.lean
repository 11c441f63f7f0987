import GoTrees.Proofs.Directories
import GoTrees.Proofs.Remerging
import GoTrees.Workspace.Publish

/-!
# Files are published side by side

Publishing a file fills gaps on the way to its place and puts a text there; everything else stays. Where
the names of the files resolve, a tree is a map from places to what can be read and written there: the gaps
are above the place, so files whose places are apart neither see nor disturb each other, and a file that
cannot be published leaves what is at its place.

A file is settled once publishing it has been tried: it cannot be read, or it holds what would be
published, or it cannot be written. Publishing files at other places keeps it settled, so a second round
changes nothing.
-/

namespace GoTrees.Publish

open Go FileSystem List

variable {fs fs' : FileSystem} {f g : OutputFile} {p q : Path}

def placeOf (f : OutputFile) : Path := place (resolve f.path)

/-- The copy that is merged with a file. -/
def copy? : Reading → Option String
  | .text existing => some existing
  | _ => none

/-- The text to publish, given what can be read at the file's path. -/
def revision (fs : FileSystem) (f : OutputFile) : String := contents f (copy? (fs.read (resolve f.path)))

/-! ### One file -/

/-- What can become of a directory tree and of a file that is published in it. -/
inductive Published (fs : FileSystem) (f : OutputFile) : FileSystem → Outcome → Prop
  | unreadable (h : fs.read (resolve f.path) = .unreadable) : Published fs f fs .failed
  | unchanged (h : fs.read (resolve f.path) = .text (revision fs f)) :
      Published fs f fs (.unchanged (resolve f.path))
  | stuck (new : fs.read (resolve f.path) ≠ .text (revision fs f)) (stuck : ¬ Writable fs (resolve f.path)) :
      Published fs f (fs.makeDirs [] (trimmed (resolve f.path)).dropLast).1 .failed
  | written {front : List String} {last : String} (readable : fs.read (resolve f.path) ≠ .unreadable)
      (new : fs.read (resolve f.path) ≠ .text (revision fs f)) (whole : resolve f.path = front ++ [last])
      (fits : Fits fs front last) :
      Published fs f ((fs.makeDirs [] front).1.put (placeOf f) (.text (revision fs f)))
      (.written (resolve f.path))

theorem replaceFile_published (readable : fs.read (resolve f.path) ≠ .unreadable)
    (new : fs.read (resolve f.path) ≠ .text (revision fs f)) :
    Published fs f (replaceFile fs (resolve f.path) (revision fs f)).1
      (replaceFile fs (resolve f.path) (revision fs f)).2 := by
  rw [replaceFile]
  by_cases fits : Writable fs (resolve f.path)
  · obtain ⟨front, last, whole, fits⟩ := fits
    have written := Published.written readable new whole fits
    rw [placeOf, whole] at written
    rw [whole, write_of_fits fits]
    exact written
  · obtain ⟨failed, stuck⟩ := write_of_not_writable fits
    rw [stuck]
    dsimp only
    exact .stuck new fits

/-- Publishing a file ends in one of these ways. -/
theorem publishFile_published (fs : FileSystem) (f : OutputFile) : ∃ after outcome,
    publishFile fs f = (after, outcome) ∧ Published fs f after outcome := by
  refine ⟨(publishFile fs f).1, (publishFile fs f).2, rfl, ?_⟩
  rw [publishFile]
  cases reading : fs.read (resolve f.path) with
  | unreadable => exact .unreadable reading
  | absent =>
    have text : revision fs f = contents f none := by
      rw [revision, reading]
      rfl
    simp only [← text]
    exact replaceFile_published (by simp [reading]) (by simp [reading])
  | text existing =>
    have text : revision fs f = contents f (some existing) := by
      rw [revision, reading]
      rfl
    simp only [← text]
    split
    · next same => exact .unchanged (by rw [reading, same])
    · next new => exact replaceFile_published (by simp [reading]) (by simpa [reading] using Ne.symm new)

/-- Gaps on the way are filled with directories, a text is put at the place, and all else stays. -/
theorem publishFile_entry? (fs : FileSystem) (f : OutputFile) (q : Path) :
    entry? (publishFile fs f).1 q = fs.entry? q ∨
      (fs.entry? q = none ∧ entry? (publishFile fs f).1 q = some .directory ∧
        ∃ front, front <+: (trimmed (resolve f.path)).dropLast ∧ q = place front) ∨
      (q = placeOf f ∧ fs.entry? q ≠ some .directory ∧ ∃ t, entry? (publishFile fs f).1 q =
        some (.text t)) := by
  have way (names : List String) := (makeDirs_grown names (isDir?_root : fs.isDir? [] = some true)).entry q
  obtain ⟨after, outcome, eq, published⟩ := publishFile_published fs f
  rw [eq]
  dsimp only
  cases published with
  | unreadable => exact .inl rfl
  | unchanged => exact .inl rfl
  | stuck => exact (way _).imp_right fun ⟨gap, dir, _, made⟩ => .inl ⟨gap, dir, made⟩
  | written readable new whole fits =>
    by_cases hq : q = placeOf f
    · subst hq
      rw [placeOf, whole]
      refine .inr (.inr ⟨rfl, fun dir => fits.leaf ?_, _, entry?_put_self fits.parent fits.leaf⟩)
      exact isDir?_eq_true.mp ((makeDirs_kept _ isDir?_root).kind _ _ (isDir?_eq_true.mpr dir))
    · simp only [entry?_put_of_ne hq]
      rw [whole, trimmed_concat fits.dot, dropLast_concat]
      exact (way _).imp_right fun ⟨gap, dir, _, made⟩ => .inl ⟨gap, dir, made⟩

theorem publishFile_kept (fs : FileSystem) (f : OutputFile) : KeptIn fs (publishFile fs f).1 := by
  have way (names : List String) : KeptIn fs (fs.makeDirs [] names).1 := makeDirs_kept names isDir?_root
  obtain ⟨after, outcome, eq, published⟩ := publishFile_published fs f
  rw [eq]
  dsimp only
  cases published with
  | unreadable => exact .refl fs
  | unchanged => exact .refl fs
  | stuck => exact way _
  | written readable new whole fits =>
    rw [placeOf, whole]
    exact (way _).trans (kept_put fits.parent fits.leaf (by simp))

theorem publishFile_beside (ne : q ≠ placeOf f) {e : Entry} (h : fs.entry? q = some e) :
    entry? (publishFile fs f).1 q = some e := by
  rcases publishFile_entry? fs f q with same | ⟨gap, -, -⟩ | ⟨there, -, -⟩
  · rw [same, h]
  · rw [h] at gap
    cases gap
  · exact absurd there ne

/-! ### Settled files -/

/-- Publishing the file changes nothing, whatever is published elsewhere. -/
inductive Settled (fs : FileSystem) (f : OutputFile) : Prop
  | unreadable (h : fs.read (resolve f.path) = .unreadable)
  | unchanged {existing : String} (h : fs.read (resolve f.path) = .text existing)
      (same : contents f (some existing) = existing)
  | stuck (h : ¬ Writable fs (resolve f.path))
      (made : (fs.makeDirs [] (trimmed (resolve f.path)).dropLast).1 = fs)

theorem Settled.publishFile_eq (settled : Settled fs f) : (publishFile fs f).1 = fs := by
  cases settled with
  | unreadable h => rw [publishFile, h]
  | unchanged h same => simp [publishFile, h, same]
  | stuck h made =>
    obtain ⟨after, outcome, eq, published⟩ := publishFile_published fs f
    rw [eq]
    dsimp only
    cases published with
    | unreadable => rfl
    | unchanged => rfl
    | stuck => exact made
    | written _ _ whole fits => exact absurd ⟨_, _, whole, fits⟩ h

/-- What cannot be written still cannot be after more has been done in the tree. -/
theorem stuck_of_kept (stuck : ¬ Writable fs (resolve f.path))
    (kept : KeptIn (fs.makeDirs [] (trimmed (resolve f.path)).dropLast).1 fs') : Settled fs' f := by
  refine .stuck ?_ (by rw [makeDirs_again _ isDir?_root kept])
  rintro ⟨front, last, whole, fits⟩
  rw [whole, trimmed_concat fits.dot, dropLast_concat] at kept
  exact stuck ⟨front, last, whole, fits.of_kept kept⟩

theorem Settled.kept (settled : Settled fs f) (kept : KeptIn fs fs')
    (same : ∀ e, fs.entry? (placeOf f) = some e → fs'.entry? (placeOf f) = some e) : Settled fs' f := by
  cases settled with
  | unreadable h => exact .unreadable ((read_kept kept same (by simp [h])).trans h)
  | unchanged h again => exact .unchanged ((read_kept kept same (by simp [h])).trans h) again
  | stuck h made => exact stuck_of_kept h (made.symm ▸ kept)

/-- A file that was published is settled if its revision is. -/
theorem settled_publishFile (again : contents f (some (revision fs f)) = revision fs f) :
    Settled (publishFile fs f).1 f := by
  obtain ⟨after, outcome, eq, published⟩ := publishFile_published fs f
  rw [eq]
  dsimp only
  cases published with
  | unreadable h => exact .unreadable h
  | unchanged h => exact .unchanged h again
  | stuck _ stuck => exact stuck_of_kept stuck (.refl _)
  | written readable new whole fits =>
    have clean := clean_of_read readable
    rw [whole] at clean
    have reading := fits.read clean (revision fs f)
    rw [← whole] at reading
    split at reading
    · exact .unreadable reading
    · exact .unchanged reading again

/-! ### Files apart -/

/-- Nothing is refused that writing the file asks for, once its directory is there. -/
def Allowed (fs : FileSystem) (f : OutputFile) : Prop :=
  Allows fs (resolve f.path).dropLast ((resolve f.path).getLastD "")

instance : Decidable (Allowed fs f) := inferInstanceAs (Decidable (_ ∧ _))

/-- The file can be looked up: its names lead on, or directories can be made for them, and no directory and no
unreadable file is at its place. -/
structure Ready (fs : FileSystem) (f : OutputFile) : Prop where
  clean : Clean (resolve f.path)
  dots : (resolve f.path).getLast? ≠ some "."
  passable : Passable fs [] (resolve f.path)
  readable : fs.readAt (placeOf f) ≠ .unreadable

section Resolves

variable (resolves : Resolves fs [] (resolve f.path))

include resolves

/-- The directories that are made for a file leave what is at its place. -/
theorem makeDirs_entry?_placeOf :
    entry? (fs.makeDirs [] (trimmed (resolve f.path)).dropLast).1 (placeOf f) = fs.entry? (placeOf f) := by
  rcases (makeDirs_grown _ isDir?_root).entry (placeOf f) with same | ⟨gap, -, -, front, leads, there⟩
  · exact same
  · rw [there] at gap
    exact absurd there.symm (resolves.gap_trimmed leads gap).2

/-- What is read under names that lead on is what stands at their place. -/
theorem read_of_not_blocked (clean : Clean (resolve f.path)) (free : fs.walk [] (resolve f.path) ≠ .blocked) :
    fs.read (resolve f.path) = fs.readAt (placeOf f) := by
  rw [read_of_clean clean]
  cases walk : fs.walk [] (resolve f.path) with
  | missing =>
    have gap : fs.entry? (placeOf f) = none := resolves.entry?_of_missing walk
    simp [readAt, gap]
  | blocked => exact absurd walk free
  | arrived p => rw [eq_place_of_walk walk, placeOf]

theorem Ready.read (ready : Ready fs f) : fs.read (resolve f.path) = fs.readAt (placeOf f) :=
  read_of_not_blocked resolves ready.clean ready.passable.not_blocked

theorem Ready.writable (ready : Ready fs f) (allowed : Allowed fs f) : Writable fs (resolve f.path) := by
  have same := makeDirs_entry?_placeOf resolves
  obtain ⟨-, dots, passable, readable⟩ := ready
  have leaf : fs.entry? (placeOf f) ≠ some .directory := fun dir => readable (by simp [readAt, dir])
  rw [Allowed] at allowed
  rw [placeOf] at same leaf
  rcases eq_nil_or_concat' (resolve f.path) with empty | ⟨front, last, whole⟩
  · rw [empty] at leaf
    exact absurd (isDir?_eq_true.mp isDir?_root) leaf
  · rw [whole] at same dots passable leaf allowed ⊢
    have dot : last ≠ "." := by simpa using dots
    rw [trimmed_concat dot, dropLast_concat] at same
    exact ⟨front, last, rfl, dot, passable.short, passable.makeDirs front isDir?_root, same ▸ leaf,
      by simpa using allowed⟩

/-- A file that can be published had a place to be written at. -/
theorem ready_of_ne_failed (h : (publishFile fs f).2 ≠ .failed) : Ready fs f := by
  obtain ⟨after, outcome, eq, published⟩ := publishFile_published fs f
  rw [eq] at h
  dsimp only at h
  cases published with
  | unreadable => exact absurd rfl h
  | stuck => exact absurd rfl h
  | unchanged reading =>
    obtain ⟨walk, text⟩ := arrived_of_read reading
    have readable : fs.read (resolve f.path) ≠ .unreadable := by simp [reading]
    refine ⟨clean_of_read readable, fun dots => ?_, passable_of_walk walk, by simp [placeOf, text]⟩
    obtain ⟨front, whole⟩ := getLast?_eq_some_iff.mp dots
    rw [whole] at walk text
    have dir := isDir?_eq_true.mp (isDir?_of_walk_concat walk)
    have stays : place (front ++ ["."]) = placeFrom [] front := place_concat
    rw [stays, readAt, dir] at text
    cases text
  | written readable new whole fits =>
    have passable := (passable_of_walk fits.walk).of_kept (makeDirs_kept _ isDir?_root)
    have clean := clean_of_read readable
    rw [← whole] at passable
    refine ⟨clean, ?_, passable, ?_⟩
    · rw [whole, getLast?_concat]
      exact fun dots => fits.dot (Option.some.inj dots)
    · rwa [← read_of_not_blocked resolves clean passable.not_blocked]

/-- What becomes of a file that can be looked up depends on what is read at its place and on what is
refused there. -/
theorem Ready.outcome (ready : Ready fs f) :
    let text := contents f (copy? (fs.readAt (placeOf f)))
    (publishFile fs f).2 = (if fs.readAt (placeOf f) = .text text then .unchanged (resolve f.path)
      else if Allowed fs f then .written (resolve f.path) else .failed) ∧
    entry? (publishFile fs f).1 (placeOf f) =
      if Allowed fs f then some (.text text) else fs.entry? (placeOf f) := by
  have reading := ready.read resolves
  have text : contents f (copy? (fs.readAt (placeOf f))) = revision fs f := by rw [revision, reading]
  simp only [text]
  simp only [← reading]
  obtain ⟨after, outcome, eq, published⟩ := publishFile_published fs f
  rw [eq]
  dsimp only
  cases published with
  | unreadable h => exact absurd (reading.symm.trans h) ready.readable
  | unchanged h =>
    have there := (readAt_eq_text.mp (reading.symm.trans h)).1
    exact ⟨by rw [if_pos h], by simp [there]⟩
  | stuck new stuck =>
    have refused : ¬ Allowed fs f := fun allowed => stuck (ready.writable resolves allowed)
    rw [if_neg new, if_neg refused, if_neg refused]
    exact ⟨rfl, makeDirs_entry?_placeOf resolves⟩
  | written readable new whole fits =>
    have allowed : Allowed fs f := by simpa [Allowed, whole] using fits.allows
    rw [if_neg new, if_pos allowed, if_pos allowed]
    refine ⟨rfl, ?_⟩
    rw [placeOf, whole]
    exact entry?_put_self fits.parent fits.leaf

/-- A file that cannot be published leaves its place as it is. -/
theorem entry?_of_failed (h : (publishFile fs f).2 = .failed) :
    entry? (publishFile fs f).1 (placeOf f) = fs.entry? (placeOf f) := by
  obtain ⟨after, outcome, eq, published⟩ := publishFile_published fs f
  rw [eq] at h ⊢
  dsimp only at h ⊢
  cases published with
  | unreadable => rfl
  | unchanged => rfl
  | stuck => exact makeDirs_entry?_placeOf resolves
  | written => cases h

end Resolves

/-- What happens in a directory tree away from a place: it stays as it is, and nothing above it becomes a
file. -/
structure Away (p : Path) (fs fs' : FileSystem) : Prop where
  kept : KeptIn fs fs'
  same : fs'.entry? p = fs.entry? p
  above : ∀ q, q <+: p → fs.entry? q = none → fs'.entry? q = none ∨ fs'.entry? q = some .directory

theorem Away.trans {fs'' : FileSystem} (h : Away p fs fs') (h' : Away p fs' fs'') : Away p fs fs'' where
  kept := h.kept.trans h'.kept
  same := h'.same.trans h.same
  above q leads gap := by
    rcases h.above q leads gap with gap' | dir
    · exact h'.above q leads gap'
    · exact .inr (isDir?_eq_true.mp (h'.kept.kind q true (isDir?_eq_true.mpr dir)))

theorem publishFile_away (resolves : Resolves fs [] (resolve f.path)) (normal : Normal p)
    (apart : Apart (placeOf f) p) : Away p fs (publishFile fs f).1 where
  kept := publishFile_kept fs f
  same := by
    rcases publishFile_entry? fs f p with same | ⟨gap, -, front, leads, rfl⟩ | ⟨there, -, -⟩
    · exact same
    · obtain ⟨inside, ne⟩ := resolves.gap_trimmed leads gap
      exact absurd (above_of_leads (normal_place _) (not_isTop_of_gap gap) inside ne) apart.2.2
    · exact absurd there.symm apart.1
  above q leads gap := by
    rcases publishFile_entry? fs f q with same | ⟨-, dir, -⟩ | ⟨rfl, -, -⟩
    · exact .inl (same.trans gap)
    · exact .inr dir
    · exact absurd (above_of_leads normal (not_isTop_of_gap gap) leads apart.1) apart.2.1

theorem passable_away : ∀ {names : List String} {path : Path}, Resolves fs path names →
    Away (placeFrom path names) fs fs' → Passable fs path names → Passable fs' path names
  | [], _, _, _, _ => trivial
  | _ :: _, path, resolves, away, ⟨opens, short, more⟩ => by
      refine ⟨?_, short, passable_away resolves.2 away more⟩
      rcases opens with dir | ⟨gap, allowed⟩
      · exact .inl (away.kept.kind path true dir)
      · -- names that resolve do not leave the gap, so their place is below it
        rcases away.above path (resolves.gap gap).1 gap with gap' | dir'
        · exact .inr ⟨gap', by rwa [refuses_congr away.kept.refused]⟩
        · exact .inl (isDir?_eq_true.mpr dir')

theorem Away.readAt (away : Away p fs fs') : fs'.readAt p = fs.readAt p := by
  rw [FileSystem.readAt, FileSystem.readAt, away.same, refuses_congr away.kept.refused]

theorem ready_away (resolves : Resolves fs [] (resolve f.path)) (away : Away (placeOf f) fs fs') :
    Ready fs' f ↔ Ready fs f := by
  constructor
  · rintro ⟨clean, dots, passable, readable⟩
    exact ⟨clean, dots, passable.of_kept away.kept, away.readAt ▸ readable⟩
  · rintro ⟨clean, dots, passable, readable⟩
    exact ⟨clean, dots, passable_away resolves away passable, away.readAt.symm ▸ readable⟩

/-- Publishing a file comes to the same in two trees that differ away from its place only. -/
theorem publishFile_congr (resolves : Resolves fs [] (resolve f.path)) (away : Away (placeOf f) fs fs') :
    (publishFile fs' f).2 = (publishFile fs f).2 ∧
      entry? (publishFile fs' f).1 (placeOf f) = entry? (publishFile fs f).1 (placeOf f) := by
  have resolves' := resolves.kept away.kept
  by_cases ready : Ready fs f
  · have alone := ready.outcome resolves
    have within := ((ready_away resolves away).mpr ready).outcome resolves'
    have allowed : Allowed fs' f ↔ Allowed fs f := allows_congr away.kept.refused
    simp only [away.readAt, away.same, allowed] at within
    exact ⟨within.1.trans alone.1.symm, within.2.trans alone.2.symm⟩
  · have failed : (publishFile fs f).2 = .failed := by
      by_contra h
      exact ready (ready_of_ne_failed resolves h)
    have failed' : (publishFile fs' f).2 = .failed := by
      by_contra h
      exact ready ((ready_away resolves away).mp (ready_of_ne_failed resolves' h))
    refine ⟨failed'.trans failed.symm, ?_⟩
    rw [entry?_of_failed resolves failed, entry?_of_failed resolves' failed', away.same]

/-! ### Lists of files -/

section Cons

variable (fs : FileSystem) (f : OutputFile) (files : List OutputFile)

theorem publish_cons_fst : (publish fs (f :: files)).1 = (publish (publishFile fs f).1 files).1 := rfl

theorem publish_cons_snd :
    (publish fs (f :: files)).2 = (publishFile fs f).2 :: (publish (publishFile fs f).1 files).2 := rfl

end Cons

theorem publish_away (normal : Normal p) : ∀ {files : List OutputFile} {fs : FileSystem},
    (∀ f ∈ files, Resolves fs [] (resolve f.path)) → (∀ f ∈ files, Apart (placeOf f) p) →
      Away p fs (publish fs files).1
  | [], fs, _, _ => ⟨KeptIn.refl fs, rfl, fun _ _ => .inl⟩
  | f :: files, fs, resolves, apart => by
      rw [forall_mem_cons] at resolves apart
      have first := publishFile_away resolves.1 normal apart.1
      have resolves' : ∀ g ∈ files, Resolves (publishFile fs f).1 [] (resolve g.path) :=
        fun g hg => (resolves.2 g hg).kept first.kept
      rw [publish_cons_fst]
      exact first.trans (publish_away normal resolves' apart.2)

/-- Files with places apart are published as if each was alone. -/
theorem publish_alone : ∀ {files : List OutputFile} {fs : FileSystem},
    (∀ f ∈ files, Resolves fs [] (resolve f.path)) →
    files.Pairwise (fun f g => Apart (placeOf f) (placeOf g)) →
      (publish fs files).2 = files.map (fun f => (publishFile fs f).2) ∧
        ∀ f ∈ files, entry? (publish fs files).1 (placeOf f) = entry? (publishFile fs f).1 (placeOf f)
  | [], _, _, _ => by simp [publish]
  | f :: files, fs, resolves, apart => by
      rw [forall_mem_cons] at resolves
      obtain ⟨apart, others⟩ := pairwise_cons.mp apart
      have resolves' : ∀ g ∈ files, Resolves (publishFile fs f).1 [] (resolve g.path) :=
        fun g hg => (resolves.2 g hg).kept (publishFile_kept fs f)
      have first (g : OutputFile) (hg : g ∈ files) := publishFile_congr (resolves.2 g hg)
        (publishFile_away resolves.1 (normal_place _) (apart g hg))
      have later := publish_away (normal_place _) resolves' fun g hg => (apart g hg).symm
      obtain ⟨outcomes, entries⟩ := publish_alone resolves' others
      rw [publish_cons_fst, publish_cons_snd, map_cons, outcomes]
      refine ⟨?_, forall_mem_cons.mpr ⟨later.same, fun g hg => ?_⟩⟩
      · exact congrArg (_ :: ·) (map_congr_left fun g hg => (first g hg).1)
      · exact (entries g hg).trans (first g hg).2

theorem Settled.publish : ∀ {files : List OutputFile} {fs : FileSystem}, Settled fs f →
    (∀ g ∈ files, placeOf f ≠ placeOf g) → Settled (publish fs files).1 f
  | [], _, settled, _ => settled
  | g :: files, fs, settled, ne => by
      rw [forall_mem_cons] at ne
      have still := settled.kept (publishFile_kept fs g) fun _ => publishFile_beside ne.1
      rw [publish_cons_fst]
      exact Settled.publish still ne.2

/-- Merging the text of a file into what has been published for it changes nothing. -/
theorem contents_revision (own : f.mergeable = true → Merge.merge "" f.contents = f.contents ∧
      ((Merge.blocks f.contents).map Merge.Block.key).Nodup)
    (hand : ∀ t, fs.entry? (placeOf f) = some (.text t) → Merge.NoReturns t) :
    contents f (some (revision fs f)) = revision fs f := by
  rw [revision]
  cases mergeable : f.mergeable with
  | false =>
    rw [contents, mergeable, if_neg (by simp)]
    cases copy? (fs.read (resolve f.path)) with
    | none => rfl
    | some existing => simp [contents, mergeable]
  | true =>
    obtain ⟨whole, distinct⟩ := own mergeable
    cases reading : fs.read (resolve f.path) with
    | text existing =>
      have flat := hand existing (readAt_eq_text.mp (arrived_of_read reading).2).1
      have again := Merge.merge_again flat (Merge.noReturns_of_merge_empty whole) distinct
      simp [contents, copy?, mergeable, again]
    | absent => simp [contents, copy?, mergeable, Merge.merge_self whole distinct]
    | unreadable => simp [contents, copy?, mergeable, Merge.merge_self whole distinct]

/-- All files are settled after publishing. -/
theorem settled_publish : ∀ {files : List OutputFile} {fs : FileSystem},
    files.Pairwise (fun f g => placeOf f ≠ placeOf g) →
    (∀ f ∈ files, f.mergeable = true → Merge.merge "" f.contents = f.contents ∧
      ((Merge.blocks f.contents).map Merge.Block.key).Nodup) →
    (∀ f ∈ files, ∀ t, fs.entry? (placeOf f) = some (.text t) → Merge.NoReturns t) →
      ∀ f ∈ files, Settled (publish fs files).1 f
  | [], _, _, _, _ => by simp
  | f :: files, fs, ne, own, hand => by
      obtain ⟨ne, others⟩ := pairwise_cons.mp ne
      rw [forall_mem_cons] at own hand
      have first := settled_publishFile (contents_revision own.1 hand.1)
      have hand' : ∀ g ∈ files, ∀ t, entry? (publishFile fs f).1 (placeOf g) = some (.text t) →
          Merge.NoReturns t := by
        intro g hg t text
        rcases publishFile_entry? fs f (placeOf g) with same | ⟨-, dir, -⟩ | ⟨there, -, -⟩
        · exact hand.2 g hg t (same ▸ text)
        · rw [dir] at text
          cases text
        · exact absurd there.symm (ne g hg)
      rw [publish_cons_fst]
      exact forall_mem_cons.mpr ⟨first.publish ne, settled_publish others own.2 hand'⟩

/-- Publishing settled files again changes nothing. -/
theorem publish_of_settled :
    ∀ {files : List OutputFile}, (∀ f ∈ files, Settled fs f) → (publish fs files).1 = fs
  | [], _ => rfl
  | f :: files, settled => by
      rw [forall_mem_cons] at settled
      rw [publish_cons_fst, settled.1.publishFile_eq]
      exact publish_of_settled settled.2

/-- Files at places apart are published independently where their names resolve, a file that fails leaves
what is at its place, and a second round changes nothing. -/
theorem publish_isolated_and_idempotent (fs : FileSystem) (files : List OutputFile)
    (apart : files.Pairwise fun f g => Apart (placeOf f) (placeOf g)) :
    ((∀ f ∈ files, Resolves fs [] (resolve f.path)) →
      (publish fs files).2 = files.map (fun f => (publishFile fs f).2) ∧
      ∀ f ∈ files, entry? (publish fs files).1 (placeOf f) = entry? (publishFile fs f).1 (placeOf f) ∧
        ((publishFile fs f).2 = .failed →
          entry? (publish fs files).1 (placeOf f) = fs.entry? (placeOf f))) ∧
    ((∀ f ∈ files, f.mergeable = true → Merge.merge "" f.contents = f.contents ∧
        ((Merge.blocks f.contents).map Merge.Block.key).Nodup) →
      (∀ f ∈ files, ∀ t, fs.entry? (placeOf f) = some (.text t) → Merge.NoReturns t) →
      (publish (publish fs files).1 files).1 = (publish fs files).1) := by
  constructor
  · intro resolves
    obtain ⟨outcomes, entries⟩ := publish_alone resolves apart
    refine ⟨outcomes, fun f hf => ⟨entries f hf, fun failed => ?_⟩⟩
    rw [entries f hf, entry?_of_failed (resolves f hf) failed]
  · intro own hand
    exact publish_of_settled (settled_publish (apart.imp fun h => h.1) own hand)

/-- A block with a hand-written line. -/
def mooring : String := "// <<< BEGIN WRITING YOUR CODE Moor\n\ttie()\n// <<< END WRITING YOUR CODE\n"

/-- A directory, a file with hand-written code, one that is no text, and one that cannot be replaced. -/
def harbour : FileSystem :=
  { (((({} : FileSystem).put ["docks"] .directory).put ["pier.go"] (.text mooring)).put ["crate"]
      (.binary [255])).put ["notice"] (.text "closed\n") with
    refused := [(.move, ["notice"])] }

/-- The second path leaves a directory that exists, the third file cannot be read and the fourth not
written. -/
def harbourFiles : List OutputFile :=
  [⟨"docks/gate.go", "package docks\n", false⟩,
    ⟨"docks/../pier.go", "// <<< BEGIN WRITING YOUR CODE Moor\n// <<< END WRITING YOUR CODE\n", true⟩,
    ⟨"./crate", "package crate\n", false⟩, ⟨"notice", "open\n", false⟩]

theorem publish_isolated_and_idempotent_harbour :
    (harbourFiles.Pairwise fun f g => Apart (placeOf f) (placeOf g)) ∧
    (∀ f ∈ harbourFiles, Resolves harbour [] (resolve f.path)) ∧
    (publish harbour harbourFiles).2 = harbourFiles.map (fun f => (publishFile harbour f).2) ∧
    entry? (publish harbour harbourFiles).1 ["crate"] = some (.binary [255]) ∧
    entry? (publish harbour harbourFiles).1 ["notice"] = some (.text "closed\n") ∧
    (publish (publish harbour harbourFiles).1 harbourFiles).1 = (publish harbour harbourFiles).1 := by
  have apart : harbourFiles.Pairwise fun f g => Apart (placeOf f) (placeOf g) := by decide +kernel
  have resolves : ∀ f ∈ harbourFiles, Resolves harbour [] (resolve f.path) := by decide +kernel
  have own : ∀ f ∈ harbourFiles, f.mergeable = true → Merge.merge "" f.contents = f.contents ∧
      ((Merge.blocks f.contents).map Merge.Block.key).Nodup := by decide +kernel
  have hand : ∀ f ∈ harbourFiles, ∀ t, harbour.entry? (placeOf f) = some (.text t) → Merge.NoReturns t := by
    have found : ∀ f ∈ harbourFiles, harbour.entry? (placeOf f) ∈
        [none, some (.text mooring), some (.binary [255]), some (.text "closed\n")] := by decide +kernel
    intro f hf t text
    have either : t = mooring ∨ t = "closed\n" := by simpa [text] using found f hf
    rcases either with rfl | rfl <;> decide +kernel
  obtain ⟨isolated, idempotent⟩ := publish_isolated_and_idempotent harbour harbourFiles apart
  obtain ⟨outcomes, entries⟩ := isolated resolves
  refine ⟨apart, resolves, outcomes, ?_, ?_, idempotent own hand⟩
  · obtain ⟨-, failed⟩ := entries ⟨"./crate", "package crate\n", false⟩ (by decide +kernel)
    exact failed (by decide +kernel)
  · obtain ⟨-, failed⟩ := entries ⟨"notice", "open\n", false⟩ (by decide +kernel)
    exact failed (by decide +kernel)

end GoTrees.Publish
