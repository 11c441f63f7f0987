import GoTrees.Proofs.Qualifiers

/-!
# Packages that code cites

A package is cited in a text where it stands in front of a dot, with no part of a name before it and outside of
strings and comments. A citation only depends on what is read before it, so it stays when something is written
behind the text, and also when something legible is written before it that ends with a gap. In rendered code,
parts are always put behind gaps:

    agent.(*  types.Guard  ).Follow(  new(  types.Vector  )  )

So an expression with legible parts cites in its text what its parts cite, a line what its step cites, and
a file what one of its lines cites.
-/

namespace GoTrees.Go

open Text List

variable {q s t : String}

/-! ### Texts -/

/-- The text is read as code from its start to its end, whatever follows it. -/
def Legible (s : String) : Prop := ∃ out, Reads s.toList out

/-- The package stands in the text in front of a dot, behind legible code that does not end with a part of a
name. -/
def Cites (q s : String) : Prop :=
  ∃ front out back, s.toList = front ++ q.toList ++ '.' :: back ∧ Reads front out ∧
    ∀ c ∈ out.getLast?, isGap c = true

/-- The code of the text has the package in front of a dot, and no part of a name before it. -/
def Refers (q text : String) : Prop :=
  ∃ before after, scan .code text.toList = before ++ q.toList ++ '.' :: after ∧
    ∀ c ∈ before.getLast?, isGap c = true

def IsMark (s : String) : Prop := ∃ out, Reads s.toList out ∧ ∃ c ∈ out.getLast?, isGap c = true

theorem legible_plain (h : AllChars IsPlain s) : Legible s := ⟨s.toList, reads_plain h⟩

theorem legible_quote (s : String) : Legible (quote s) := ⟨[' '], reads_quote s⟩

theorem Legible.append (hs : Legible s) (ht : Legible t) : Legible (s ++ t) := by
  obtain ⟨out, reads⟩ := hs
  obtain ⟨more, reads'⟩ := ht
  refine ⟨out ++ more, ?_⟩
  rw [String.toList_append]
  exact reads.append reads'

theorem Gaps.isMark (h : Gaps s) : IsMark s := by
  obtain ⟨out, reads, filled, gaps⟩ := h
  refine ⟨out, reads, out.getLast filled, getLast?_eq_getLast_of_ne_nil filled, ?_⟩
  exact gaps _ (getLast_mem filled)

theorem isMark_plain (h : AllChars IsPlain s) (last : ∃ c ∈ s.toList.getLast?, isGap c = true) : IsMark s :=
  ⟨s.toList, reads_plain h, last⟩

theorem IsMark.legible (h : IsMark s) : Legible s := by
  obtain ⟨out, reads, -⟩ := h
  exact ⟨out, reads⟩

theorem IsMark.behind (hs : Legible s) (ht : IsMark t) : IsMark (s ++ t) := by
  obtain ⟨out, reads⟩ := hs
  obtain ⟨more, reads', c, last, gap⟩ := ht
  refine ⟨out ++ more, ?_, c, ?_, gap⟩
  · rw [String.toList_append]
    exact reads.append reads'
  · rw [getLast?_append, Option.mem_def.mp last]
    rfl

theorem legible_join {sep : String} (hsep : Legible sep) : ∀ {parts : List String}, (∀ p ∈ parts, Legible p) →
    Legible (join sep parts)
  | [], _ => legible_plain (by rintro _ ⟨⟩)
  | [p], h => h p mem_cons_self
  | p :: r :: parts, h => by
      rw [forall_mem_cons] at h
      exact (h.1.append hsep).append (legible_join hsep h.2)

/-- A citation stays when something is written behind it. -/
theorem Cites.append (h : Cites q s) (t : String) : Cites q (s ++ t) := by
  obtain ⟨front, out, back, whole, reads, last⟩ := h
  refine ⟨front, out, back ++ t.toList, ?_, reads, last⟩
  rw [String.toList_append, whole]
  simp

/-- A citation stays behind a mark. -/
theorem Cites.after (h : Cites q t) (hs : IsMark s) : Cites q (s ++ t) := by
  obtain ⟨front, out, back, whole, reads, last⟩ := h
  obtain ⟨lead, reads', c, mark, gap⟩ := hs
  refine ⟨s.toList ++ front, lead ++ out, back, ?_, reads'.append reads, ?_⟩
  · rw [String.toList_append, whole]
    simp
  · intro d hd
    rw [getLast?_append] at hd
    cases h : out.getLast? with
    | none =>
      rw [h, Option.none_or, Option.mem_def.mp mark] at hd
      rwa [← Option.some.inj hd]
    | some e =>
      rw [h, Option.some_or] at hd
      exact last d (h ▸ hd)

theorem Cites.behind (h : Cites q t) (hs : Legible s) {mark : String} (hm : IsMark mark) :
    Cites q (s ++ mark ++ t) := h.after (hm.behind hs)

theorem cites_self (q s : String) : Cites q (q ++ "." ++ s) :=
  ⟨[], [], s.toList, by simp, fun _ => rfl, by rintro _ ⟨⟩⟩

theorem Cites.ne_empty (h : Cites q s) : s ≠ "" := by
  rintro rfl
  obtain ⟨front, out, back, whole, -⟩ := h
  simp at whole

theorem cites_join {sep : String} (hsep : IsMark sep) {p : String} (cites : Cites q p) :
    ∀ {parts : List String}, (∀ r ∈ parts, Legible r) → p ∈ parts → Cites q (join sep parts)
  | [r], _, mem => mem_singleton.mp mem ▸ cites
  | r :: r' :: parts, h, mem => by
      rw [forall_mem_cons] at h
      rcases mem_cons.mp mem with rfl | mem
      · exact (cites.append sep).append _
      · exact (cites_join hsep cites h.2 mem).behind h.1 hsep

theorem Cites.indented (h : Cites q s) (depth : Nat) : Cites q (Sheet.indented depth s) := by
  rw [indented_of_ne h.ne_empty]
  cases depth with
  | zero =>
    have none : Sheet.tabs 0 = "" := rfl
    rwa [none, String.empty_append]
  | succ depth =>
    refine h.after (isMark_plain (allChars_ofList.mpr fun c hc => ?_) ⟨'\t', ?_, by decide⟩)
    · rw [(mem_replicate.mp hc).2]
      decide
    · rw [Sheet.tabs, String.toList_ofList, replicate_succ', getLast?_concat]
      rfl

/-! ### Expressions -/

mutual

def Expr.Legible : Expr → Prop
  | .name x | .literal x | .path x | .address x | .empty x | .new x => Go.Legible x
  | .string _ => True
  | .member package item => Go.Legible package ∧ Go.Legible item
  | .select e field => e.Legible ∧ Go.Legible field
  | .call f args => f.Legible ∧ Expr.AllLegible args
  | .index e i => e.Legible ∧ i.Legible
  | .asserted e type | .converted type e => e.Legible ∧ Go.Legible type
  | .binary l operator r => l.Legible ∧ IsMark (" " ++ operator ++ " ") ∧ r.Legible
  | .not e => e.Legible
  | .slice type items => Go.Legible type ∧ Expr.AllLegible items

def Expr.AllLegible : List Expr → Prop
  | [] => True
  | e :: es => e.Legible ∧ Expr.AllLegible es

end

mutual

/-- The package is cited by a part of the expression. -/
def Expr.Cites (q : String) : Expr → Prop
  | .name _ | .literal _ | .string _ | .address _ => False
  | .path type | .empty type | .new type => Go.Cites q type
  | .member package _ => package = q
  | .select e _ | .not e => e.Cites q
  | .call f args => f.Cites q ∨ Expr.AnyCites q args
  | .index e i => e.Cites q ∨ i.Cites q
  | .asserted e type | .converted type e => e.Cites q ∨ Go.Cites q type
  | .binary l _ r => l.Cites q ∨ r.Cites q
  | .slice type items => Go.Cites q type ∨ Expr.AnyCites q items

def Expr.AnyCites (q : String) : List Expr → Prop
  | [] => False
  | e :: es => e.Cites q ∨ Expr.AnyCites q es

end

theorem Expr.allLegible_iff : ∀ {es : List Expr}, Expr.AllLegible es ↔ ∀ e ∈ es, e.Legible
  | [] => by simp [Expr.AllLegible]
  | e :: es => by simp [Expr.AllLegible, @Expr.allLegible_iff es]

theorem Expr.anyCites_iff : ∀ {es : List Expr}, Expr.AnyCites q es ↔ ∃ e ∈ es, e.Cites q
  | [] => by simp [Expr.AnyCites]
  | e :: es => by simp [Expr.AnyCites, @Expr.anyCites_iff es]

theorem isMark_comma : IsMark ", " := isMark_plain (by decide) ⟨' ', by decide, by decide⟩

mutual

/-- An expression with legible parts has a legible text. -/
theorem Expr.Legible.text : ∀ {e : Expr}, e.Legible → Go.Legible e.text
  | .name _, h | .literal _, h | .path _, h => h
  | .string s, _ => legible_quote s
  | .member _ _, h => (h.1.append (legible_plain (by decide))).append h.2
  | .select _ _, h => (h.1.text.append (legible_plain (by decide))).append h.2
  | .call _ args, h =>
    ((h.1.text.append (legible_plain (by decide))).append
      (legible_join isMark_comma.legible (Expr.legible_texts h.2))).append (legible_plain (by decide))
  | .index _ _, h =>
    ((h.1.text.append (legible_plain (by decide))).append h.2.text).append (legible_plain (by decide))
  | .asserted _ _, h =>
    ((h.1.text.append (legible_plain (by decide))).append h.2).append (legible_plain (by decide))
  | .converted _ _, h =>
    ((h.2.append (legible_plain (by decide))).append h.1.text).append (legible_plain (by decide))
  | .address _, h => (legible_plain (by decide)).append h
  | .binary l operator r, ⟨hl, ho, hr⟩ => by
      have whole : (Expr.binary l operator r).text = l.text ++ (" " ++ operator ++ " ") ++ r.text := by
        simp [Expr.text, String.append_assoc]
      rw [whole]
      exact (hl.text.append ho.legible).append hr.text
  | .not e, h => (legible_plain (by decide)).append (Expr.Legible.text (e := e) h)
  | .slice _ items, h =>
    ((h.1.append (legible_plain (by decide))).append
      (legible_join isMark_comma.legible (Expr.legible_texts h.2))).append (legible_plain (by decide))
  | .empty _, h => h.append (legible_plain (by decide))
  | .new _, h => ((legible_plain (by decide)).append h).append (legible_plain (by decide))

theorem Expr.legible_texts : ∀ {es : List Expr}, Expr.AllLegible es → ∀ t ∈ Expr.texts es, Go.Legible t
  | [], _ => by rintro _ ⟨⟩
  | _ :: _, h => forall_mem_cons.mpr ⟨h.1.text, Expr.legible_texts h.2⟩

end

mutual

/-- The text of an expression cites what one of its parts cites. -/
theorem Expr.Cites.text : ∀ {e : Expr}, e.Legible → e.Cites q → Go.Cites q e.text
  | .path _, _, h => h
  | .empty _, _, h => Go.Cites.append h _
  | .new _, _, h => (Go.Cites.after h (isMark_plain (by decide) ⟨'(', by decide, by decide⟩)).append _
  | .member package item, _, h => by
      obtain rfl : package = q := h
      exact cites_self package item
  | .select e _, l, h => ((Expr.Cites.text (e := e) l.1 h).append _).append _
  | .not e, l, h => (Expr.Cites.text (e := e) l h).after (isMark_plain (by decide) ⟨'!', by decide, by decide⟩)
  | .call f args, l, h => by
      rw [Expr.text]
      rcases h with h | h
      · exact (((h.text l.1).append _).append _).append _
      · obtain ⟨t, mem, cites⟩ := Expr.cites_texts l.2 h
        exact ((cites_join isMark_comma cites (Expr.legible_texts l.2) mem).behind l.1.text
          (isMark_plain (by decide) ⟨'(', by decide, by decide⟩)).append _
  | .index e i, l, h => by
      rw [Expr.text]
      rcases h with h | h
      · exact (((h.text l.1).append _).append _).append _
      · exact ((h.text l.2).behind l.1.text (isMark_plain (by decide) ⟨'[', by decide, by decide⟩)).append _
  | .asserted e type, l, h => by
      rw [Expr.text]
      rcases h with h | h
      · exact (((h.text l.1).append _).append _).append _
      · exact (h.behind l.1.text (isMark_plain (by decide) ⟨'(', by decide, by decide⟩)).append _
  | .converted type e, l, h => by
      rw [Expr.text]
      rcases h with h | h
      · exact ((h.text l.1).behind l.2 (isMark_plain (by decide) ⟨'(', by decide, by decide⟩)).append _
      · exact ((h.append _).append _).append _
  | .binary a operator b, ⟨la, mark, lb⟩, h => by
      have whole : (Expr.binary a operator b).text = a.text ++ (" " ++ operator ++ " ") ++ b.text := by
        simp [Expr.text, String.append_assoc]
      rw [whole]
      rcases h with h | h
      · exact ((h.text la).append _).append _
      · exact (h.text lb).behind la.text mark
  | .slice type items, l, h => by
      rw [Expr.text]
      rcases h with h | h
      · exact ((h.append _).append _).append _
      · obtain ⟨t, mem, cites⟩ := Expr.cites_texts l.2 h
        exact ((cites_join isMark_comma cites (Expr.legible_texts l.2) mem).behind l.1
          (isMark_plain (by decide) ⟨'\x7b', by decide, by decide⟩)).append _

theorem Expr.cites_texts : ∀ {es : List Expr}, Expr.AllLegible es → Expr.AnyCites q es →
    ∃ t ∈ Expr.texts es, Go.Cites q t
  | _ :: _, l, .inl h => ⟨_, mem_cons_self, h.text l.1⟩
  | _ :: _, l, .inr h => by
      obtain ⟨t, mem, cites⟩ := Expr.cites_texts l.2 h
      exact ⟨t, mem_cons_of_mem _ mem, cites⟩

end

/-! ### Steps and statements -/

def Step.Legible : Step → Prop
  | .define x e => Go.Legible x ∧ e.Legible
  | .assign target e => target.Legible ∧ e.Legible
  | .eval e | .ret e => e.Legible
  | .comment _ | .verbatim _ => True

/-- The package is cited by an expression of the step. -/
def Step.Cites (q : String) : Step → Prop
  | .define _ e | .eval e | .ret e => e.Cites q
  | .assign target e => target.Cites q ∨ e.Cites q
  | .comment _ | .verbatim _ => False

theorem Step.Cites.text : ∀ {s : Step}, s.Legible → s.Cites q → Go.Cites q s.text
  | .define _ _, l, h =>
    (Expr.Cites.text l.2 h).behind l.1 (isMark_plain (by decide) ⟨' ', by decide, by decide⟩)
  | .assign _ _, l, .inl h => ((h.text l.1).append _).append _
  | .assign _ _, l, .inr h =>
    (h.text l.2).behind l.1.text (isMark_plain (by decide) ⟨' ', by decide, by decide⟩)
  | .eval _, l, h => Expr.Cites.text l h
  | .ret _, l, h => (Expr.Cites.text l h).after (isMark_plain (by decide) ⟨' ', by decide, by decide⟩)

mutual

/-- The steps of a statement at every depth. -/
def Stmt.inner : Stmt → List Step
  | .step s => [s]
  | .block body | .ifThen _ body => Stmt.allInner body

/-- The steps of statements at every depth. -/
def Stmt.allInner : List Stmt → List Step
  | [] => []
  | s :: rest => s.inner ++ Stmt.allInner rest

end

theorem Stmt.allInner_append :
    ∀ as bs : List Stmt, Stmt.allInner (as ++ bs) = Stmt.allInner as ++ Stmt.allInner bs
  | [], _ => rfl
  | a :: as, bs => by simp [Stmt.allInner, Stmt.allInner_append as bs]

theorem Stmt.allInner_map_step : ∀ steps : List Step, Stmt.allInner (steps.map .step) = steps
  | [] => rfl
  | s :: steps => by simp [Stmt.allInner, Stmt.inner, Stmt.allInner_map_step steps]

/-- A step of the statements, at some depth, cites the package. -/
def Stmt.AnyCites (q : String) (ss : List Stmt) : Prop := ∃ s ∈ Stmt.allInner ss, Go.Cites q s.text

mutual

theorem Stmt.exists_line : ∀ {s : Stmt} {t : Step} (depth : Nat), t ∈ s.inner →
    ∃ deeper, Sheet.indented (depth + deeper) t.text ∈ s.lines depth
  | .step s, t, depth, mem => by
      obtain rfl : t = s := mem_singleton.mp mem
      exact ⟨0, mem_singleton_self _⟩
  | .block body, t, depth, mem | .ifThen _ body, t, depth, mem => by
      obtain ⟨deeper, line⟩ := Stmt.exists_lineAll (depth + 1) mem
      refine ⟨1 + deeper, ?_⟩
      rw [Stmt.lines, ← Nat.add_assoc]
      exact mem_append_left _ (mem_cons_of_mem _ line)

/-- A step has its line among those of the statements that hold it. -/
theorem Stmt.exists_lineAll : ∀ {ss : List Stmt} {t : Step} (depth : Nat), t ∈ Stmt.allInner ss →
    ∃ deeper, Sheet.indented (depth + deeper) t.text ∈ Stmt.linesAll depth ss
  | s :: ss, t, depth, mem => by
      rw [Stmt.linesAll]
      rcases mem_append.mp mem with mem | mem
      · obtain ⟨deeper, line⟩ := Stmt.exists_line depth mem
        exact ⟨deeper, mem_append_left _ line⟩
      · obtain ⟨deeper, line⟩ := Stmt.exists_lineAll depth mem
        exact ⟨deeper, mem_append_right _ line⟩

end

/-! ### Declarations and files -/

/-- A line of the declaration cites the package, and could not be taken for the end of a character literal. -/
def Decl.Cites (q : String) (d : Decl) : Prop :=
  ∃ l ∈ d.lines 0, l.toList.head? ≠ some '\'' ∧ Go.Cites q l

def Decl.AnyCites (q : String) (ds : List Decl) : Prop := ∃ d ∈ ds, d.Cites q

theorem head?_indented_succ (h : s ≠ "") (depth : Nat) :
    (Sheet.indented (depth + 1) s).toList.head? = some '\t' := by
  rw [indented_of_ne h, Sheet.tabs, String.toList_append, String.toList_ofList, replicate_succ]
  rfl

theorem Decl.cites_indented {d : Decl} (depth : Nat) (mem : Sheet.indented (depth + 1) s ∈ d.lines 0)
    (h : Go.Cites q s) : d.Cites q :=
  ⟨_, mem, by rw [head?_indented_succ h.ne_empty]; decide, h.indented _⟩

theorem Decl.cites_func {f : Func} (h : Stmt.AnyCites q f.body) : (Decl.func f).Cites q := by
  obtain ⟨step, mem, cites⟩ := h
  obtain ⟨deeper, line⟩ := Stmt.exists_lineAll 1 mem
  rw [Nat.add_comm] at line
  exact Decl.cites_indented _ (mem_append_left _ (mem_cons_of_mem _ line)) cites

theorem Decl.cites_embedding {name runtime : String} {fields : List Row} (h : Go.Cites q runtime) :
    (Decl.embedding name runtime fields).Cites q :=
  Decl.cites_indented 0
    (mem_append_left _ (mem_cons_of_mem _ (mem_map_of_mem mem_cons_self))) h

theorem legible_padded (hs : Legible s) (width : Nat) : Legible (padded s width) := by
  refine hs.append (legible_plain (allChars_ofList.mpr fun c hc => ?_))
  rw [(mem_replicate.mp hc).2]
  decide

theorem Decl.cites_field {name runtime : String} {fields : List Row} {r : Row} (mem : r ∈ fields)
    (legible : Go.Legible r.name) (h : Go.Cites q r.type) : (Decl.embedding name runtime fields).Cites q := by
  refine Decl.cites_indented 0 (mem_append_left _ (mem_cons_of_mem _ (mem_map_of_mem
    (mem_cons_of_mem _ (mem_map_of_mem mem))))) ?_
  exact h.behind (legible_padded legible _) (isMark_plain (by decide) ⟨' ', by decide, by decide⟩)

/-- A file refers to what one of its lines cites. -/
theorem refers_unlines {lines : List String} {l : String} (plain : AllChars IsPlain q) (mem : l ∈ lines)
    (first : l.toList.head? ≠ some '\'') (cites : Cites q l) : Refers q (unlines lines) := by
  obtain ⟨front, out, back, whole, reads, last⟩ := cites
  have line (rest : List Char) : ∃ after,
      scan .code (l.toList ++ rest) = out ++ q.toList ++ '.' :: after := by
    have read : Reads (front ++ (q.toList ++ ['.'])) (out ++ (q.toList ++ ['.'])) :=
      reads.append (reads_plain (forall_mem_append.mpr ⟨plain, forall_mem_singleton.mpr (by decide)⟩))
    refine ⟨scan .code (back ++ rest), ?_⟩
    have again : l.toList ++ rest = front ++ (q.toList ++ ['.']) ++ (back ++ rest) := by simp [whole]
    rw [again, read]
    simp
  obtain ⟨before, behind, rfl⟩ := append_of_mem mem
  have start : (l.toList ++ '\n' :: (unlines behind).toList).head? ≠ some '\'' := by
    rw [head?_append]
    cases h : l.toList.head? with
    | none => simp
    | some c => rwa [h] at first
  obtain ⟨after, scanned⟩ := line ('\n' :: (unlines behind).toList)
  rcases eq_nil_or_concat before with rfl | ⟨above, k, rfl⟩
  · refine ⟨out, after, ?_, last⟩
    rw [List.nil_append, toList_unlines_cons, scanned]
  · have text : (unlines (above.concat k ++ l :: behind)).toList =
        (unlines above).toList ++ k.toList ++ '\n' :: (l.toList ++ '\n' :: (unlines behind).toList) := by
      simp [unlines]
    refine ⟨scan .code ((unlines above).toList ++ k.toList) ++ '\n' :: out, after, ?_, ?_⟩
    · rw [text, scan_feed .code (fun _ => start) trivial, scanned]
      simp
    · intro c hc
      rw [getLast?_append, getLast?_cons, Option.some_or] at hc
      obtain rfl := Option.some.inj hc
      cases h : out.getLast? with
      | none => decide
      | some d => exact last d h

theorem refers_assemble {path package : String} {imports : List String} {ds : List Decl}
    (plain : AllChars IsPlain q) (h : Decl.AnyCites q ds) :
    Refers q (assemble path package imports ds).contents := by
  obtain ⟨d, mem, l, line, first, cites⟩ := h
  rw [contents_assemble]
  exact refers_unlines plain (mem_append_right _ (mem_flatMap.mpr ⟨d, mem, line⟩)) first cites

theorem dottedNames_append_name (rest : List Char) : ∀ cs : List Char, (∀ c ∈ cs, isGap c = false) →
    ∃ name names, dottedNames (cs ++ rest) = (cs ++ name) :: names
  | [], _ => ⟨_, _, dottedNames_eq rest⟩
  | c :: cs, parts => by
      rw [forall_mem_cons] at parts
      obtain ⟨name, names, whole⟩ := dottedNames_append_name rest cs parts.2
      refine ⟨name, names, ?_⟩
      rw [cons_append, dottedNames_cons_name parts.1, whole]
      rfl

/-- A package that a file refers to is one of its qualifiers. -/
theorem Refers.mem_qualifiers {q text : String} (h : Refers q text) (word : IsWord q) :
    q ∈ qualifiers text := by
  obtain ⟨before, after, code, last⟩ := h
  obtain ⟨name, names, whole⟩ := dottedNames_append_name after (q.toList ++ ['.'])
    (forall_mem_append.mpr ⟨word.noGap, forall_mem_singleton.mpr (by decide)⟩)
  have mem : q.toList ++ ['.'] ++ name ∈ dottedNames (scan .code text.toList) := by
    have again : scan .code text.toList = before ++ (q.toList ++ ['.'] ++ after) := by simp [code]
    rw [again]
    rcases eq_nil_or_concat before with rfl | ⟨front, c, rfl⟩
    · rw [List.nil_append, whole]
      exact mem_cons_self
    · have gap : isGap c = true := last c (by simp)
      rw [List.concat_append, dottedNames, splitChars_append gap, ← dottedNames, ← dottedNames, whole]
      exact mem_append_right _ mem_cons_self
  refine Go.mem_qualifiers.mpr ⟨_, mem, by simp, ?_⟩
  rw [List.append_assoc, singleton_append, lead_append_dot, word.lead, String.ofList_toList]

end GoTrees.Go
