import GoTrees.Proofs.Lexing

/-!
# Qualifiers of rendered code

Rendered code is put together from words, types, literals and the marks between them. As the marks are gaps
between names, the qualifiers of the whole are those of its parts, and those that a selection makes of what
stands before its dot. This is worked out for texts first, and then for expressions, steps, statements and
declarations.
-/

namespace GoTrees.Go

open Text List

variable {c : Char}

variable {A : List Char → Prop} {s t g : String}

/-! ### Texts -/

/-- A character that starts no string, character literal or comment and makes no qualifier. -/
def IsBare (c : Char) : Prop := IsPlain c ∧ c ≠ '.'

instance : DecidablePred IsBare := fun _ => inferInstanceAs (Decidable (_ ∧ _))

/-- Nothing but characters of identifiers. -/
abbrev IsWord (s : String) : Prop := AllChars (isIdentifierChar · = true) s

/-- The text leaves code whose qualifiers are all allowed. -/
def Clean (A : List Char → Prop) (s : String) : Prop := ∃ out, Reads s.toList out ∧ Allows A out

/-- The text leaves code from which something may be selected. -/
def Selectable (A : List Char → Prop) (s : String) : Prop := ∃ out, Reads s.toList out ∧ Stem A out

/-- The text leaves gaps only. -/
def Gaps (s : String) : Prop := ∃ out, Reads s.toList out ∧ out ≠ [] ∧ ∀ c ∈ out, isGap c = true

theorem Selectable.clean (h : Selectable A s) : Clean A s := by
  obtain ⟨out, reads, stem⟩ := h
  exact ⟨out, reads, stem.allows⟩

theorem gaps_of_plain (filled : s ≠ "") (h : AllChars (fun c => IsPlain c ∧ isGap c = true) s) : Gaps s :=
  ⟨s.toList, reads_plain fun c hc => (h c hc).1, by simpa using filled, fun c hc => (h c hc).2⟩

theorem clean_bare (h : AllChars IsBare s) : Clean A s :=
  ⟨s.toList, reads_plain fun c hc => (h c hc).1, allows_of_no_dot fun dot => (h _ dot).2 rfl⟩

/-- What holds of code behind one gap holds of it behind any number of them. -/
theorem append_gaps {P : List Char → Prop} {front code : List Char}
    (step : ∀ {c : Char} {s t : List Char}, isGap c = true → Allows A s → P t → P (s ++ c :: t))
    (hf : Allows A front) (hc : P code) :
    ∀ {gaps : List Char}, gaps ≠ [] → (∀ c ∈ gaps, isGap c = true) → P (front ++ gaps ++ code)
  | [c], _, h => by
      rw [List.append_assoc]
      exact step (h c mem_cons_self) hf hc
  | c :: d :: gaps, _, h => by
      rw [forall_mem_cons] at h
      have rest : P ([] ++ (d :: gaps) ++ code) :=
        append_gaps step (allows_of_no_dot (by simp)) hc (cons_ne_nil d gaps) h.2
      rw [List.append_assoc]
      exact step h.1 hf rest

theorem Clean.append (hs : Clean A s) (hg : Gaps g) (ht : Clean A t) : Clean A (s ++ g ++ t) := by
  obtain ⟨front, readsFront, allowsFront⟩ := hs
  obtain ⟨gaps, readsGaps, filled, each⟩ := hg
  obtain ⟨code, readsCode, allowsCode⟩ := ht
  have joined : Allows A (front ++ gaps ++ code) :=
    append_gaps (fun gap hs ht => (allows_append_gap gap).mpr ⟨hs, ht⟩) allowsFront allowsCode filled each
  refine ⟨front ++ gaps ++ code, ?_, joined⟩
  rw [String.toList_append, String.toList_append]
  exact (readsFront.append readsGaps).append readsCode

theorem Clean.stem (hs : Clean A s) (hg : Gaps g) (ht : Selectable A t) : Selectable A (s ++ g ++ t) := by
  obtain ⟨front, readsFront, allowsFront⟩ := hs
  obtain ⟨gaps, readsGaps, filled, each⟩ := hg
  obtain ⟨code, readsCode, stem⟩ := ht
  have joined : Stem A (front ++ gaps ++ code) :=
    append_gaps (fun gap hs ht => stem_append_gap gap hs ht) allowsFront stem filled each
  refine ⟨front ++ gaps ++ code, ?_, joined⟩
  rw [String.toList_append, String.toList_append]
  exact (readsFront.append readsGaps).append readsCode

theorem clean_empty : Clean A "" := clean_bare (by rintro _ ⟨⟩)

theorem selectable_empty (base : A []) : Selectable A "" := ⟨[], fun _ => rfl, stem_name (by simp) base⟩

/-- Gaps in front of code. -/
theorem Gaps.clean (hg : Gaps g) (ht : Clean A t) : Clean A (g ++ t) := by
  have whole := clean_empty.append hg ht
  rwa [String.empty_append] at whole

/-- A mark in front of code, if there is one. -/
theorem Clean.marked {marks : Bool} (hg : Gaps g) (ht : Clean A t) :
    Clean A ((if marks then g else "") ++ t) := by
  split
  · exact hg.clean ht
  · rwa [String.empty_append]

/-- Gaps behind code. -/
theorem Clean.close (hs : Clean A s) (hg : Gaps g) : Clean A (s ++ g) := by
  have whole := hs.append hg clean_empty
  rwa [String.append_empty] at whole

theorem Clean.closeStem (hs : Clean A s) (hg : Gaps g) (base : A []) : Selectable A (s ++ g) := by
  have whole := hs.stem hg (selectable_empty base)
  rwa [String.append_empty] at whole

theorem clean_join {sep : String} (hsep : Gaps sep) : ∀ {parts : List String}, (∀ p ∈ parts, Clean A p) →
    Clean A (join sep parts)
  | [], _ => clean_empty
  | [p], h => h p mem_cons_self
  | p :: q :: parts, h => by
      rw [forall_mem_cons] at h
      exact h.1.append hsep (clean_join hsep h.2)

theorem clean_quote (s : String) : Clean A (quote s) :=
  ⟨[' '], reads_quote s, allows_of_no_dot (by decide)⟩

theorem isBare_of_isIdentifierChar (h : isIdentifierChar c = true) : IsBare c ∧ isGap c = false := by
  refine ⟨⟨⟨?_, ?_, ?_⟩, ?_⟩, by simp [isGap, h]⟩ <;> rintro rfl <;> exact absurd h (by decide)

theorem isIdentifierChar_of_isDigit (h : c.isDigit = true) : isIdentifierChar c = true := by
  simp only [Char.isDigit, Bool.and_eq_true, decide_eq_true_eq] at h
  have digit : '0' ≤ c ∧ c ≤ '9' := h
  simp [isIdentifierChar, isWordChar, digit]

theorem IsWord.bare (h : IsWord s) : AllChars IsBare s := h.mono fun _ hc => (isBare_of_isIdentifierChar hc).1

theorem IsWord.noGap (h : IsWord s) : ∀ c ∈ s.toList, isGap c = false :=
  fun c hc => (isBare_of_isIdentifierChar (h c hc)).2

theorem IsWord.clean (h : IsWord s) : Clean A s := clean_bare h.bare

theorem lead_of_no_dot {name : List Char} (h : '.' ∉ name) : lead name = name := by
  refine takeWhile_eq_self_iff.mpr fun c hc => ?_
  simpa using fun same : c = '.' => h (same ▸ hc)

theorem IsWord.lead (h : IsWord s) : Go.lead s.toList = s.toList :=
  lead_of_no_dot fun dot => (h.bare _ dot).2 rfl

theorem IsWord.selectable (h : IsWord s) (allowed : A s.toList) : Selectable A s :=
  ⟨s.toList, reads_plain fun c hc => (h.bare c hc).1, stem_name h.noGap (by rwa [h.lead])⟩

theorem Selectable.select (hs : Selectable A s) {field : String} (hf : IsWord field) :
    Selectable A (s ++ "." ++ field) := by
  obtain ⟨code, reads, stem⟩ := hs
  refine ⟨code ++ '.' :: field.toList, ?_, stem.selected hf.noGap⟩
  have plain : Reads ('.' :: field.toList) ('.' :: field.toList) :=
    reads_plain (forall_mem_cons.mpr ⟨by decide, fun c hc => (hf.bare c hc).1⟩)
  have whole := reads.append plain
  rwa [String.toList_append, String.toList_append, List.append_assoc]

/-- What follows the dot may hold gaps, but no second dot. -/
theorem Selectable.dotted (hs : Selectable A s) (ht : AllChars IsBare t) : Clean A (s ++ "." ++ t) := by
  obtain ⟨code, reads, stem⟩ := hs
  refine ⟨code ++ '.' :: t.toList, ?_, stem.allows_dot fun dot => (ht _ dot).2 rfl⟩
  have plain : Reads ('.' :: t.toList) ('.' :: t.toList) :=
    reads_plain (forall_mem_cons.mpr ⟨by decide, fun c hc => (ht c hc).1⟩)
  have whole := reads.append plain
  rwa [String.toList_append, String.toList_append, List.append_assoc]

/-! ### Expressions -/

section Expressions

variable {e f i l r : Expr} {args : List Expr} {type x operator : String}

theorem clean_nil : Clean A Expr.nil.text := clean_bare (by decide)

theorem clean_bool (b : Bool) : Clean A (Expr.bool b).text := by
  cases b <;> exact clean_bare (by decide)

theorem bare_toString (n : Int) : AllChars IsBare (toString n) := by
  intro c hc
  have numeral := isNumeral_of_mem_toString hc
  rw [isNumeral, Bool.or_eq_true, beq_iff_eq] at numeral
  rcases numeral with digit | rfl
  · exact (isBare_of_isIdentifierChar (isIdentifierChar_of_isDigit digit)).1
  · decide

theorem clean_int (n : Int) : Clean A (Expr.int n).text := clean_bare (bare_toString n)

theorem clean_rune (c : Char) : Clean A ("'" ++ String.singleton c ++ "'") :=
  ⟨[' '], by simpa using reads_rune c, allows_of_no_dot (by decide)⟩

theorem selectable_member {package item : String} (hp : IsWord package) (allowed : A package.toList)
    (hi : IsWord item) : Selectable A (Expr.member package item).text :=
  (hp.selectable allowed).select hi

theorem selectable_select (he : Selectable A e.text) {field : String} (hf : IsWord field) :
    Selectable A (Expr.select e field).text := by
  rw [Expr.text]
  exact he.select hf

theorem clean_texts (h : ∀ e ∈ args, Clean A e.text) : Clean A (join ", " (Expr.texts args)) := by
  rw [texts_eq_map]
  exact clean_join (gaps_of_plain (by decide) (by decide)) (forall_mem_map.mpr h)

theorem selectable_call (base : A []) (hf : Clean A f.text) (ha : ∀ e ∈ args, Clean A e.text) :
    Selectable A (Expr.call f args).text := by
  rw [Expr.text]
  exact (hf.append (gaps_of_plain (by decide) (by decide)) (clean_texts ha)).closeStem
    (gaps_of_plain (by decide) (by decide)) base

theorem clean_index (he : Clean A e.text) (hi : Clean A i.text) : Clean A (Expr.index e i).text := by
  rw [Expr.text]
  exact (he.append (gaps_of_plain (by decide) (by decide)) hi).close (gaps_of_plain (by decide) (by decide))

theorem selectable_asserted (base : A []) (he : Selectable A e.text) (ht : Clean A type) :
    Selectable A (Expr.asserted e type).text := by
  have dot : e.text ++ ".(" = e.text ++ "." ++ "" ++ "(" := by
    rw [String.append_empty, String.append_assoc]
    rfl
  have word : IsWord "" := by rintro _ ⟨⟩
  rw [Expr.text, dot]
  exact ((he.select word).clean.append (gaps_of_plain (by decide) (by decide)) ht).closeStem
    (gaps_of_plain (by decide) (by decide)) base

theorem clean_converted (ht : Clean A type) (he : Clean A e.text) : Clean A (Expr.converted type e).text := by
  rw [Expr.text]
  exact (ht.append (gaps_of_plain (by decide) (by decide)) he).close (gaps_of_plain (by decide) (by decide))

theorem clean_address (hx : Clean A x) : Clean A (Expr.address x).text := by
  rw [Expr.text]
  exact (gaps_of_plain (by decide) (by decide)).clean hx

theorem clean_binary (hl : Clean A l.text) (ho : Gaps (" " ++ operator ++ " ")) (hr : Clean A r.text) :
    Clean A (Expr.binary l operator r).text := by
  have whole : (Expr.binary l operator r).text = l.text ++ (" " ++ operator ++ " ") ++ r.text := by
    simp [Expr.text, String.append_assoc]
  rw [whole]
  exact hl.append ho hr

theorem clean_not (he : Clean A e.text) : Clean A (Expr.not e).text := by
  rw [Expr.text]
  exact (gaps_of_plain (by decide) (by decide)).clean he

theorem clean_slice (ht : Clean A type) (ha : ∀ e ∈ args, Clean A e.text) :
    Clean A (Expr.slice type args).text := by
  rw [Expr.text]
  exact (ht.append (gaps_of_plain (by decide) (by decide)) (clean_texts ha)).close
    (gaps_of_plain (by decide) (by decide))

theorem clean_new (ht : Clean A type) : Clean A (Expr.new type).text := by
  have word : Clean A "new" := clean_bare (by decide)
  have whole := (word.append (g := "(") (gaps_of_plain (by decide) (by decide)) ht).close (g := ")")
    (gaps_of_plain (by decide) (by decide))
  exact whole

end Expressions

/-! ### Steps and statements -/

/-- The line of the step has no qualifiers but allowed ones. -/
def Step.Allowed (A : List Char → Prop) (s : Step) : Prop := LineAllows A s.text

/-- The lines of the steps have no qualifiers but allowed ones. -/
abbrev Step.AllAllowed (A : List Char → Prop) (ss : List Step) : Prop := ∀ s ∈ ss, s.Allowed A

/-- The lines of the statements have no qualifiers but allowed ones. -/
def Stmt.AllAllowed (A : List Char → Prop) (ss : List Stmt) : Prop :=
  ∀ depth, ∀ l ∈ Stmt.linesAll depth ss, LineAllows A l

theorem Clean.lineAllows (h : Clean A s) : LineAllows A s := by
  obtain ⟨out, reads, allows⟩ := h
  exact reads.lineAllows allows

section Steps

variable {e target : Expr} {x : String} {steps : List Step} {body more : List Stmt}

theorem allowed_define (hx : Clean A x) (he : Clean A e.text) : (Step.define x e).Allowed A :=
  (hx.append (g := " := ") (gaps_of_plain (by decide) (by decide)) he).lineAllows

theorem allowed_assign (ht : Clean A target.text) (he : Clean A e.text) : (Step.assign target e).Allowed A :=
  (ht.append (g := " = ") (gaps_of_plain (by decide) (by decide)) he).lineAllows

theorem allowed_eval (he : Clean A e.text) : (Step.eval e).Allowed A := he.lineAllows

theorem allowed_ret (he : Clean A e.text) : (Step.ret e).Allowed A := by
  have word : Clean A "return" := clean_bare (by decide)
  have whole := word.append (g := " ") (gaps_of_plain (by decide) (by decide)) he
  exact whole.lineAllows

theorem allowed_comment (unbroken : '\n' ∉ x.toList) : (Step.comment x).Allowed A :=
  lineAllows_comment unbroken

theorem allAllowed_nil : Stmt.AllAllowed A [] := by rintro _ _ ⟨⟩

theorem Stmt.linesAll_append (depth : Nat) (more : List Stmt) : ∀ body : List Stmt,
    Stmt.linesAll depth (body ++ more) = Stmt.linesAll depth body ++ Stmt.linesAll depth more
  | [] => rfl
  | s :: body => by
      rw [cons_append, Stmt.linesAll, Stmt.linesAll, Stmt.linesAll_append depth more body, List.append_assoc]

theorem Stmt.AllAllowed.append (hb : Stmt.AllAllowed A body) (hm : Stmt.AllAllowed A more) :
    Stmt.AllAllowed A (body ++ more) := by
  intro depth
  rw [Stmt.linesAll_append]
  exact forall_mem_append.mpr ⟨hb depth, hm depth⟩

theorem allAllowed_steps (h : Step.AllAllowed A steps) : Stmt.AllAllowed A (steps.map .step) := by
  intro depth
  rw [Stmt.linesAll_map_step]
  exact forall_mem_map.mpr fun s hs => (h s hs).indented depth

theorem allAllowed_step {s : Step} (h : s.Allowed A) : Stmt.AllAllowed A [.step s] := by
  have whole := allAllowed_steps (forall_mem_singleton.mpr h)
  exact whole

theorem allAllowed_block (h : Stmt.AllAllowed A body) : Stmt.AllAllowed A [.block body] := by
  intro depth
  rw [Stmt.linesAll, Stmt.linesAll, Stmt.lines, List.append_nil, cons_append, forall_mem_cons,
    forall_mem_append, forall_mem_singleton]
  have brace (c : Char) (bare : IsBare c) : LineAllows A (.ofList [c]) :=
    (clean_bare (allChars_ofList.mpr (by simpa using bare))).lineAllows
  exact ⟨(brace '\x7b' (by decide)).indented depth, h (depth + 1), (brace '\x7d' (by decide)).indented depth⟩

theorem allAllowed_ifThen (he : Clean A e.text) (h : Stmt.AllAllowed A body) :
    Stmt.AllAllowed A [.ifThen e body] := by
  intro depth
  have word : Clean A "if" := clean_bare (by decide)
  have opening : Clean A ("if" ++ " " ++ e.text ++ " \x7b") :=
    (word.append (gaps_of_plain (by decide) (by decide)) he).close (gaps_of_plain (by decide) (by decide))
  have closing : Clean A "\x7d" := clean_bare (by decide)
  rw [Stmt.linesAll, Stmt.linesAll, Stmt.lines, List.append_nil, cons_append, forall_mem_cons,
    forall_mem_append, forall_mem_singleton]
  exact ⟨opening.lineAllows.indented depth, h (depth + 1), closing.lineAllows.indented depth⟩

end Steps

/-! ### Declarations -/

/-- The lines of the declaration have no qualifiers but allowed ones. -/
def Decl.Allowed (A : List Char → Prop) (d : Decl) : Prop := ∀ l ∈ d.lines 0, LineAllows A l

/-- The text stands on one line and has no qualifiers but allowed ones as it stands. -/
structure Raw (A : List Char → Prop) (s : String) : Prop where
  allows : Allows A s.toList
  feed : '\n' ∉ s.toList

/-- A character that makes neither a line nor a qualifier. -/
def IsFlush (c : Char) : Prop := c ≠ '.' ∧ c ≠ '\n'

instance : DecidablePred IsFlush := fun _ => inferInstanceAs (Decidable (_ ∧ _))

theorem raw_flush (h : AllChars IsFlush s) : Raw A s :=
  ⟨allows_of_no_dot fun dot => (h _ dot).1 rfl, fun feed => (h _ feed).2 rfl⟩

theorem Raw.append (hs : Raw A s) (filled : g ≠ "") (hg : AllChars (fun c => isGap c = true ∧ c ≠ '\n') g)
    (ht : Raw A t) : Raw A (s ++ g ++ t) where
  allows := by
    rw [String.toList_append, String.toList_append]
    exact append_gaps (fun gap hs ht => (allows_append_gap gap).mpr ⟨hs, ht⟩) hs.allows ht.allows
      (by simpa using filled) fun c hc => (hg c hc).1
  feed := by
    rw [String.toList_append, String.toList_append, mem_append, mem_append, not_or, not_or]
    exact ⟨⟨hs.feed, fun feed => (hg _ feed).2 rfl⟩, ht.feed⟩

theorem raw_member {package item : String} (hp : IsWord package) (allowed : A package.toList)
    (hi : IsWord item) : Raw A (Expr.member package item).text := by
  have flush {w : String} (hw : IsWord w) : '\n' ∉ w.toList := fun feed => absurd (hw _ feed) (by decide)
  have chars : (Expr.member package item).text.toList = package.toList ++ '.' :: item.toList := by
    simp [Expr.text]
  constructor <;> rw [chars]
  · exact ((stem_name hp.noGap (by rwa [hp.lead])).selected hi.noGap).allows
  · rw [mem_append, mem_cons, not_or, not_or]
    exact ⟨flush hp, by decide, flush hi⟩

theorem Raw.lineAllows (h : Raw A s) (mark : s.toList.getLast? ≠ some '\'') : LineAllows A s :=
  lineAllows_raw h.feed mark h.allows

theorem raw_join {sep : String} (filled : sep ≠ "")
    (hsep : AllChars (fun c => isGap c = true ∧ c ≠ '\n') sep) :
    ∀ {parts : List String}, (∀ p ∈ parts, Raw A p) → Raw A (join sep parts)
  | [], _ => raw_flush (by rintro _ ⟨⟩)
  | [p], h => h p mem_cons_self
  | p :: q :: parts, h => by
      rw [forall_mem_cons] at h
      exact h.1.append filled hsep (raw_join filled hsep h.2)

theorem raw_call {f : Expr} {args : List Expr} (hf : Raw A f.text) (ha : ∀ e ∈ args, Raw A e.text) :
    Raw A (Expr.call f args).text := by
  have inner : Raw A (join ", " (Expr.texts args)) := by
    rw [texts_eq_map]
    exact raw_join (by decide) (by decide) (forall_mem_map.mpr ha)
  have whole := (hf.append (g := "(") (by decide) (by decide) inner).append (g := ")") (by decide) (by decide)
    (raw_flush (s := "") (by rintro _ ⟨⟩))
  rwa [String.append_empty] at whole

/-- A line that ends with another mark does not end with a quote. -/
theorem getLast?_append_ne {mark : String} (filled : mark.toList ≠ []) (h : mark.toList.getLast? ≠ some '\'')
    (s : String) : (s ++ mark).toList.getLast? ≠ some '\'' := by
  rwa [String.toList_append, getLast?_append_of_ne_nil _ filled]

theorem allowed_define_call {x : String} {f : Expr} {args : List Expr} (hx : AllChars IsFlush x)
    (h : Raw A (Expr.call f args).text) : (Step.define x (.call f args)).Allowed A := by
  have whole := (raw_flush hx).append (g := " := ") (by decide) (by decide) h
  refine whole.lineAllows ?_
  rw [Expr.text, ← String.append_assoc]
  exact getLast?_append_ne (by decide) (by decide) _

/-- The texts of the head of a function that stand in its header. -/
structure Func.Written (A : List Char → Prop) (f : Func) : Prop where
  receiver : ∀ r ∈ f.receiver, AllChars IsFlush r.1 ∧ AllChars IsFlush r.2
  name : AllChars IsFlush f.name
  params : ∀ p ∈ f.params, AllChars IsFlush p.1 ∧ Raw A p.2
  result : ∀ r ∈ f.result, Raw A r

theorem Func.header_eq (f : Func) : f.header =
    "func " ++ f.receiver.elim "" (fun r => "(" ++ r.1 ++ " *" ++ r.2 ++ ") ") ++ f.name ++ "(" ++
      join ", " (f.params.map fun p => p.1 ++ " " ++ p.2) ++ ")" ++
        f.result.elim "" (" " ++ ·) ++ " \x7b" := by
  obtain ⟨receiver, name, params, result, body⟩ := f
  cases receiver <;> cases result <;> rfl

/-- The header of a function has no qualifiers but those of its types. -/
theorem Func.Written.header {f : Func} (h : f.Written A) : LineAllows A f.header := by
  have nothing : Raw A "" := raw_flush (by rintro _ ⟨⟩)
  have front : AllChars IsFlush ("func " ++ f.receiver.elim "" (fun r => "(" ++ r.1 ++ " *" ++ r.2 ++ ") ")
      ++ f.name) := by
    refine AllChars.append (AllChars.append (by decide) ?_) h.name
    cases receiver : f.receiver with
    | none => rintro _ ⟨⟩
    | some r =>
      obtain ⟨held, type⟩ := h.receiver r receiver
      exact ((((AllChars.append (by decide) held).append (by decide)).append type).append (by decide))
  have inner : Raw A (join ", " (f.params.map fun p => p.1 ++ " " ++ p.2)) :=
    raw_join (by decide) (by decide) (forall_mem_map.mpr fun p mem =>
      (raw_flush (h.params p mem).1).append (by decide) (by decide) (h.params p mem).2)
  have result : Raw A (f.result.elim "" (" " ++ ·)) := by
    cases result : f.result with
    | none => exact nothing
    | some r =>
      have typed := nothing.append (g := " ") (by decide) (by decide) (h.result r result)
      rwa [String.empty_append] at typed
  have whole := (((raw_flush front).append (g := "(") (by decide) (by decide) inner).append (g := ")")
    (by decide) (by decide) result).append (g := " \x7b") (by decide) (by decide) nothing
  rw [String.append_empty, ← Func.header_eq] at whole
  refine whole.lineAllows ?_
  rw [Func.header_eq]
  exact getLast?_append_ne (by decide) (by decide) _

theorem lineAllows_structHeader (h : AllChars IsFlush s) : LineAllows A (structHeader s) := by
  have flush : AllChars IsFlush (structHeader s) := ((AllChars.append (by decide) h).append (by decide))
  refine (raw_flush flush).lineAllows ?_
  have parts : structHeader s = "type " ++ s ++ " struct" ++ " \x7b" := by
    simp [structHeader, String.append_assoc]
  rw [parts]
  exact getLast?_append_ne (by decide) (by decide) _

theorem Func.Written.allowed {f : Func} (h : f.Written A) (body : Stmt.AllAllowed A f.body) :
    (Decl.func f).Allowed A := by
  have closing : Clean A "\x7d" := clean_bare (by decide)
  rw [Decl.Allowed, Decl.lines, cons_append, forall_mem_cons, forall_mem_append,
    forall_mem_singleton]
  exact ⟨h.header.indented 0, body 1, closing.lineAllows.indented 0⟩

theorem allowed_blank : Decl.blank.Allowed A := by
  rw [Decl.Allowed, Decl.lines, forall_mem_singleton]
  exact clean_empty.lineAllows

theorem Decl.allowed_comment (unbroken : '\n' ∉ s.toList) : (Decl.comment s).Allowed A := by
  rw [Decl.Allowed, Decl.lines, forall_mem_singleton]
  exact (lineAllows_comment unbroken).indented 0

/-- A field of a class whose type has no qualifiers but allowed ones. -/
def Row.Allowed (A : List Char → Prop) (r : Row) : Prop := IsWord r.name ∧ Clean A r.type

theorem allowed_embedding {runtime : String} {rows : List Row} (hs : AllChars IsFlush s) (hr : Clean A runtime)
    (each : ∀ r ∈ rows, r.Allowed A) : (Decl.embedding s runtime rows).Allowed A := by
  have closing : Clean A "\x7d" := clean_bare (by decide)
  have columns : ∀ l ∈ twoColumns rows, Clean A l := by
    refine forall_mem_map.mpr fun r mem => ?_
    have padding (n : Nat) : AllChars IsBare (.ofList (List.replicate n ' ')) :=
      allChars_ofList.mpr fun c hc => by rw [(mem_replicate.mp hc).2]; decide
    have name : Clean A (padded r.name (columnWidth (rows.map Row.name))) :=
      clean_bare ((each r mem).1.bare.append (padding _))
    exact name.append (gaps_of_plain (by decide) (by decide)) (each r mem).2
  rw [Decl.Allowed, Decl.lines, cons_append, forall_mem_cons, forall_mem_append,
    forall_mem_singleton, forall_mem_map, forall_mem_cons]
  exact ⟨(lineAllows_structHeader hs).indented 0, ⟨hr.lineAllows.indented 1, fun l mem =>
    (columns l mem).lineAllows.indented 1⟩, closing.lineAllows.indented 0⟩

theorem allowed_record_nil (hs : AllChars IsFlush s) : (Decl.record s none []).Allowed A := by
  have closing : Clean A "\x7d" := clean_bare (by decide)
  have lines : (Decl.record s none []).lines 0 =
      [Sheet.indented 0 (structHeader s), Sheet.indented 0 "\x7d"] := rfl
  rw [Decl.Allowed, lines, forall_mem_cons, forall_mem_singleton]
  exact ⟨(lineAllows_structHeader hs).indented 0, closing.lineAllows.indented 0⟩

/-! ### Names in Pascal case -/

/-- The characters that no identifier has, apart from the null character, as ranges. -/
def wordlessRanges : List (Nat × Nat) :=
  [(0x1, 0x2f), (0x3a, 0x40), (0x5b, 0x5e), (0x60, 0x60), (0x7b, 0x7f)] ++ blankRanges.filter (128 ≤ ·.1)

theorem isIdentifierChar_iff : isIdentifierChar c = true ↔
    c.toNat ≠ 0 ∧ ∀ r ∈ wordlessRanges, c.toNat < r.1 ∨ r.2 < c.toNat := by
  have underscore : c = '_' ↔ c.toNat = 95 := Char.toNat_inj.symm
  simp only [isIdentifierChar, isWordChar, isWordStart, isLetter, Bool.or_eq_true, Bool.and_eq_true,
    decide_eq_true_eq, beq_iff_eq, char_le_iff, Bool.not_eq_true', underscore, isBlank, any_eq_false,
    not_and_or, not_le]
  simp [wordlessRanges, blankRanges]
  omega

theorem upperChar_ne_zero (h : c.toNat ≠ 0) : ∀ d ∈ upperChar c, d.toNat ≠ 0 := by
  have texts : ∀ e ∈ upperTexts, ∀ n ∈ e.2, (Char.ofNat n).toNat ≠ 0 := by decide +kernel
  -- no run reaches the surrogates, so every upper-case form is a character
  have runs : ∀ run ∈ upperRuns, 0 < run.2.2.2 ∧
      (run.2.2.2 + (run.2.1 - run.1) < 0xd800 ∨ 0xe000 ≤ run.2.2.2 ∧
        run.2.2.2 + (run.2.1 - run.1) < 0x110000) := by
    decide +kernel
  intro d hd
  rcases mem_upperChar hd with ⟨e, mem, n, hn, rfl⟩ | ⟨run, mem, k, short, rfl⟩ | rfl
  · exact texts e mem n hn
  · have valid := runs run mem
    rw [Char.toNat_ofNat, if_pos]
    · omega
    · simp only [Nat.isValidChar]
      omega
  · exact h

theorem upperChar_identifier (h : isIdentifierChar c = true) :
    ∀ d ∈ upperChar c, isIdentifierChar d = true := by
  have caseless : Caseless wordlessRanges := by decide +kernel
  intro d hd
  rw [isIdentifierChar_iff] at h ⊢
  exact ⟨upperChar_ne_zero h.1 d hd, caseless.upperChar h.2 d hd⟩

theorem IsWord.pascalCase (h : IsWord s) : IsWord (pascalCase s) :=
  allChars_pascalCase (fun _ hc => upperChar_identifier hc) h

theorem upperChar_flush (h : IsFlush c) : ∀ d ∈ upperChar c, IsFlush d := by
  have caseless : Caseless [(46, 46), (10, 10)] := by decide +kernel
  have flush_iff (d : Char) : IsFlush d ↔ ∀ r ∈ [(46, 46), (10, 10)], d.toNat < r.1 ∨ r.2 < d.toNat := by
    have dot : d = '.' ↔ d.toNat = 46 := Char.toNat_inj.symm
    have feed : d = '\n' ↔ d.toNat = 10 := Char.toNat_inj.symm
    simp [IsFlush, dot, feed]
  intro d hd
  rw [flush_iff] at h ⊢
  exact caseless.upperChar h d hd

end GoTrees.Go
