import GoTrees.Proofs.Lookups

/-!
# Variables that are used

Go rejects a function with a variable that is introduced and never used. In a body whose variables are in
scope, each introduced once, a variable is used after its definition exactly if it is used at all, so only
the names have to be kept account of. `Ledger` sorts the variables that the steps of an operand introduce:
those that later steps use, those that the value uses, and the idle ones. The value of an operand is used
once, by what is put around it, and then its variables are used as well.

Two sorts of variables are idle. A static property is reached through its package and not through its
owner, so the variable of a named owner is idle. And a value that is stored in a constant is dropped, with
all variables in it.
-/

namespace GoTrees

open List

variable {known outer idle : List String} {e e' : Expr} {pre ss : List Step} {es : List Expr} {slot : String}
  {o : Owner} {v : Variable}

namespace Go

/-! ### Uses of variables -/

/-- The variables that a step uses. A variable is not used where it gets a value. -/
def Step.used : Step → List String
  | .define _ e | .assign (.name _) e | .eval e | .ret e => e.names
  | .assign target e => target.names ++ e.names
  | .comment _ | .verbatim _ => []

/-- The variables that steps use. -/
def stepUsed (ss : List Step) : List String := ss.flatMap Step.used

@[simp] theorem stepUsed_nil : stepUsed [] = [] := rfl

@[simp] theorem stepUsed_cons (s : Step) (ss : List Step) : stepUsed (s :: ss) = s.used ++ stepUsed ss := rfl

@[simp] theorem stepUsed_append (as bs : List Step) : stepUsed (as ++ bs) = stepUsed as ++ stepUsed bs :=
  flatMap_append

mutual

/-- The variables that a statement uses, also inside its blocks. -/
def Stmt.used : Stmt → List String
  | .step s => s.used
  | .block body => Stmt.allUsed body
  | .ifThen condition body => condition.names ++ Stmt.allUsed body

/-- The variables that statements use. -/
def Stmt.allUsed : List Stmt → List String
  | [] => []
  | s :: ss => s.used ++ Stmt.allUsed ss

end

attribute [simp] Stmt.used Stmt.allUsed

@[simp] theorem Stmt.allUsed_append : ∀ as bs : List Stmt,
    Stmt.allUsed (as ++ bs) = Stmt.allUsed as ++ Stmt.allUsed bs
  | [], _ => rfl
  | a :: as, bs => by simp [Stmt.allUsed_append as bs]

@[simp] theorem Stmt.allUsed_steps : ∀ ss : List Step, Stmt.allUsed (ss.map .step) = stepUsed ss
  | [] => rfl
  | s :: ss => by simp [Stmt.allUsed_steps ss]

mutual

/-- Every variable that a block of the statement introduces is used later in the block. -/
def Stmt.Spent : Stmt → Prop
  | .step _ => True
  | .block body | .ifThen _ body => Stmt.AllSpent body

/-- Every variable that is introduced is used by a later statement in its scope. -/
def Stmt.AllSpent : List Stmt → Prop
  | [] => True
  | s :: ss => (∀ y ∈ s.opened, y ∈ Stmt.allUsed ss) ∧ s.Spent ∧ Stmt.AllSpent ss

end

theorem Step.used_subset : ∀ {s : Step}, s.InScope known → s.used ⊆ known
  | .define _ _, scope | .eval _, scope | .ret _, scope => scope
  | .assign target e, scope => by
      cases target with
      | name _ => exact scope.2
      | _ => exact append_subset.mpr scope
  | .comment _, _ | .verbatim _, _ => nil_subset _

theorem Stmt.opened_subset (s : Stmt) : s.opened ⊆ s.introduced := by
  cases s with
  | step s => exact List.Subset.refl _
  | _ => exact nil_subset _

mutual

theorem Stmt.used_subset : ∀ {s : Stmt} {known : List String}, s.InScope known →
    s.used ⊆ known ++ s.introduced
  | .step _, _, scope => subset_append_of_subset_left _ (Step.used_subset scope)
  | .block _, _, scope => Stmt.allUsed_subset scope
  | .ifThen _ _, _, scope =>
    append_subset.mpr ⟨subset_append_of_subset_left _ scope.1, Stmt.allUsed_subset scope.2⟩

/-- Code in scope uses what it is given or introduces. -/
theorem Stmt.allUsed_subset : ∀ {body : List Stmt} {known : List String}, Stmt.AllInScope known body →
    Stmt.allUsed body ⊆ known ++ Stmt.allIntroduced body
  | [], _, _ => nil_subset _
  | s :: ss, known, scope => by
      have first := Stmt.used_subset scope.1
      have rest := Stmt.allUsed_subset scope.2
      intro y hy
      rcases mem_append.mp hy with hy | hy
      · have own := first hy
        simp only [Stmt.allIntroduced, mem_append] at own ⊢
        exact own.imp id .inl
      · have later := rest hy
        simp only [Stmt.allIntroduced, mem_append] at later ⊢
        rcases later with (old | new) | new
        · exact .inl old
        · exact .inr (.inl (s.opened_subset new))
        · exact .inr (.inr new)

end

/-- The variables are new: none is known, and no two are the same. -/
def Fresh (known ys : List String) : Prop := ys.Nodup ∧ ∀ y ∈ ys, y ∉ known

theorem fresh_append {as bs : List String} (h : Fresh known (as ++ bs)) :
    Fresh known as ∧ Fresh known bs ∧ ∀ y ∈ as, y ∉ bs := by
  obtain ⟨left, right, apart⟩ := nodup_append.mp h.1
  refine ⟨⟨left, fun y hy => h.2 y (mem_append_left bs hy)⟩,
    ⟨right, fun y hy => h.2 y (mem_append_right as hy)⟩, fun y hy hy' => apart y hy y hy' rfl⟩

/-- A statement does not use what it introduces for those after it. -/
theorem Stmt.not_mem_used {s : Stmt} (scope : s.InScope known)
    (fresh : Fresh known s.introduced) {y : String} (hy : y ∈ s.opened) : y ∉ s.used := by
  cases s with
  | step s => exact fun used => fresh.2 y hy (Step.used_subset scope used)
  | block body => cases hy
  | ifThen condition body => cases hy

mutual

theorem Stmt.spent_iff : ∀ {s : Stmt} {known : List String}, s.InScope known → Fresh known s.introduced →
    (s.Spent ↔ ∀ y ∈ s.introduced, y ∈ s.opened ∨ y ∈ s.used)
  | .step s, _, _, _ => by
      simp only [Stmt.Spent, true_iff]
      exact fun y hy => .inl hy
  | .block body, _, scope, fresh => by
      have inner := Stmt.allSpent_iff scope fresh
      simpa [Stmt.Spent, Stmt.introduced, Stmt.opened, subset_def] using inner
  | .ifThen condition body, _, scope, fresh => by
      have inner := Stmt.allSpent_iff scope.2 fresh
      have outside : ∀ y ∈ Stmt.allIntroduced body, y ∉ condition.names := fun y hy used =>
        fresh.2 y hy (scope.1 used)
      rw [Stmt.Spent, inner]
      simp only [Stmt.introduced, Stmt.opened, Stmt.used, mem_append, not_mem_nil, false_or]
      exact ⟨fun all y hy => .inr (all hy), fun all y hy => (all y hy).resolve_left (outside y hy)⟩

/-- A variable is used after its definition exactly if it is used at all. -/
theorem Stmt.allSpent_iff : ∀ {body : List Stmt} {known : List String}, Stmt.AllInScope known body →
    Fresh known (Stmt.allIntroduced body) →
    (Stmt.AllSpent body ↔ Stmt.allIntroduced body ⊆ Stmt.allUsed body)
  | [], _, _, _ => by simp [Stmt.AllSpent, Stmt.allIntroduced]
  | s :: ss, known, scope, fresh => by
      obtain ⟨first, rest, apart⟩ := fresh_append fresh
      have later : Fresh (known ++ s.opened) (Stmt.allIntroduced ss) := by
        refine ⟨rest.1, fun y hy old => ?_⟩
        rcases mem_append.mp old with old | opened
        · exact rest.2 y hy old
        · exact apart y (s.opened_subset opened) hy
      rw [Stmt.AllSpent, Stmt.spent_iff scope.1 first, Stmt.allSpent_iff scope.2 later]
      simp only [Stmt.allIntroduced, Stmt.allUsed]
      constructor
      · rintro ⟨opened, own, after⟩
        refine append_subset.mpr ⟨fun y hy => ?_, subset_append_of_subset_right _ after⟩
        exact mem_append.mpr ((own y hy).elim (fun h => .inr (opened y h)) .inl)
      · intro all
        obtain ⟨own, after⟩ := append_subset.mp all
        refine ⟨fun y hy => ?_, fun y hy => ?_, fun y hy => ?_⟩
        · have used := mem_append.mp (own (s.opened_subset hy))
          exact used.resolve_left (Stmt.not_mem_used scope.1 first hy)
        · -- a variable of a block is out of scope after it
          rcases mem_append.mp (own hy) with used | used
          · exact .inr used
          · rcases mem_append.mp (Stmt.allUsed_subset scope.2 used) with old | new
            · exact .inl ((mem_append.mp old).resolve_left (first.2 y hy))
            · exact absurd new (apart y hy)
        · have used := mem_append.mp (after hy)
          refine used.resolve_left fun early => ?_
          rcases mem_append.mp (Stmt.used_subset scope.1 early) with old | own
          · exact rest.2 y hy old
          · exact apart y own hy

end

theorem Func.WellScoped.allSpent_iff {f : Func} (scope : f.WellScoped) :
    Stmt.AllSpent f.body ↔ Stmt.allIntroduced f.body ⊆ Stmt.allUsed f.body := by
  obtain ⟨_, distinct, apart⟩ := nodup_append.mp scope.distinct
  exact Stmt.allSpent_iff scope.inScope ⟨distinct, fun y hy old => apart y old y hy rfl⟩

end Go

open Go Slot

/-! ### Accounts of operands -/

/-- The variables that steps, expressions and later steps introduce are sorted by what uses them: `inner`
ones are used by steps, `outer` ones by the expressions, and the rest is idle. -/
structure Ledger (pre : List Step) (es : List Expr) (post : List Step) (inner outer idle : List String) :
    Prop where
  sorted : (introduced pre ++ introduced post).Perm (inner ++ outer ++ idle)
  before : ∀ y ∈ stepUsed pre, y ∈ ambient ∨ y ∈ inner
  reach : ∀ y ∈ Expr.allNames es, y ∈ ambient ∨ y ∈ outer
  after : ∀ y ∈ stepUsed post, y ∈ ambient ∨ y ∈ inner ∨ y ∈ outer
  spent : ∀ y ∈ inner, y ∈ stepUsed pre ∨ y ∈ stepUsed post
  held : ∀ y ∈ outer, y ∈ Expr.allNames es
  owners : ∀ y ∈ idle, ∃ slot, y = agent slot

namespace Ledger

variable {pre pre' post post' : List Step} {es es' : List Expr}
  {inner inner' outer outer' idle idle' : List String}

/-- Expressions without variables of their own. -/
theorem nothing (h : Expr.allNames es ⊆ ambient) : Ledger [] es [] [] [] [] :=
  ⟨.nil, by simp, fun y hy => .inl (h hy), by simp, by simp, by simp, by simp⟩

theorem append (t : Ledger pre es post inner outer idle) (t' : Ledger pre' es' post' inner' outer' idle') :
    Ledger (pre ++ pre') (es ++ es') (post ++ post') (inner ++ inner') (outer ++ outer') (idle ++ idle') where
  sorted := by
    refine perm_iff_count.mpr fun y => ?_
    have first := t.sorted.count_eq y
    have second := t'.sorted.count_eq y
    simp only [introduced_append, count_append] at first second ⊢
    omega
  before y hy := by
    rw [stepUsed_append, mem_append] at hy
    rw [mem_append]
    exact hy.elim (fun h => (t.before y h).imp id .inl) fun h => (t'.before y h).imp id .inr
  reach y hy := by
    rw [Expr.allNames_append, mem_append] at hy
    rw [mem_append]
    exact hy.elim (fun h => (t.reach y h).imp id .inl) fun h => (t'.reach y h).imp id .inr
  after y hy := by
    rw [stepUsed_append, mem_append] at hy
    simp only [mem_append]
    exact hy.elim (fun h => (t.after y h).imp id (Or.imp .inl .inl))
      fun h => (t'.after y h).imp id (Or.imp .inr .inr)
  spent y hy := by
    simp only [stepUsed_append, mem_append] at hy ⊢
    exact hy.elim (fun h => (t.spent y h).imp .inl .inl) fun h => (t'.spent y h).imp .inr .inr
  held y hy := by
    rw [Expr.allNames_append]
    rw [mem_append] at hy ⊢
    exact hy.imp (t.held y) (t'.held y)
  owners y hy := (mem_append.mp hy).elim (t.owners y) (t'.owners y)

/-- A step that uses the expressions, before the later steps. What it introduces is used by other
expressions. -/
theorem use {s : Step} (t : Ledger pre es post inner outer idle) (uses : s.used = Expr.allNames es)
    (left : Expr.allNames es' = s.introduced) :
    Ledger (pre ++ [s] ++ post) es' [] (inner ++ outer) s.introduced idle where
  sorted := by
    refine perm_iff_count.mpr fun y => ?_
    have whole := t.sorted.count_eq y
    simp only [introduced_append, introduced_cons, introduced_nil, count_append, List.append_nil] at whole ⊢
    omega
  before y hy := by
    simp only [stepUsed_append, stepUsed_cons, stepUsed_nil, List.append_nil, mem_append, uses] at hy ⊢
    rcases hy with (hy | hy) | hy
    · exact (t.before y hy).imp id .inl
    · exact (t.reach y hy).imp id .inr
    · exact t.after y hy
  reach y hy := .inr (left ▸ hy)
  after := by simp
  spent y hy := by
    simp only [stepUsed_append, stepUsed_cons, stepUsed_nil, List.append_nil, mem_append, uses] at hy ⊢
    rcases hy with hy | hy
    · exact .inl ((t.spent y hy).imp .inl id)
    · exact .inl (.inl (.inr (t.held y hy)))
  held y hy := left ▸ hy
  owners := t.owners

/-- The value held in a variable. -/
theorem hold (t : Ledger pre [e] post inner outer idle) (y : String) (name : e'.names = [y]) :
    Ledger (pre ++ [.define y e] ++ post) [e'] [] (inner ++ outer) [y] idle :=
  t.use (s := .define y e) (by simp [Step.used]) (by simp [name, Step.introduced])

/-- The value is not used any further. -/
theorem eval (t : Ledger pre [e] post inner outer idle) :
    Ledger (pre ++ [.eval e] ++ post) [] [] (inner ++ outer) [] idle :=
  t.use (s := .eval e) (by simp [Step.used]) rfl

end Ledger

/-- The variables that a stored value needs: steps that store it use it, and sort their own variables. -/
structure StoreLedger (ss : List Step) (value : Expr) (inner idle : List String) : Prop where
  sorted : (introduced ss).Perm (inner ++ idle)
  uses : ∀ y ∈ stepUsed ss, y ∈ ambient ∨ y ∈ inner ∨ y ∈ value.names
  spent : ∀ y ∈ inner, y ∈ stepUsed ss
  stored : ∀ y ∈ value.names, y ∈ stepUsed ss
  owners : ∀ y ∈ idle, ∃ slot, y = agent slot

/-- Storing a value after reading closes the accounts of both. -/
theorem Ledger.follow {value : Expr}
    {inner inner' idle' : List String} (t : Ledger pre es [] inner outer idle)
    (w : StoreLedger ss value inner' idle') (known : ∀ y ∈ value.names, y ∈ outer) :
    Ledger pre es ss (inner ++ inner') outer (idle ++ idle') where
  sorted := by
    refine perm_iff_count.mpr fun y => ?_
    have first := t.sorted.count_eq y
    have second := w.sorted.count_eq y
    simp only [introduced_nil, List.append_nil, count_append] at first second ⊢
    omega
  before y hy := (t.before y hy).imp id (mem_append_left _)
  reach := t.reach
  after y hy := (w.uses y hy).imp id (Or.imp (mem_append_right _) (known y))
  spent y hy := (mem_append.mp hy).elim (fun h => .inl (by simpa using t.spent y h)) fun h =>
    .inr (w.spent y h)
  held := t.held
  owners y hy := (mem_append.mp hy).elim (t.owners y) (w.owners y)

namespace Emission

/-- A bound value keeps no later steps. -/
theorem ledger_bind {e : Emission} {inner : List String} (t : Ledger e.pre [e.expr] e.post inner outer idle)
    (name : String) : ∃ inner' outer', Ledger (e.bind name).1 [(e.bind name).2] [] inner' outer' idle ∧
      (outer' = [] ↔ outer = [] ∧ e.post = []) := by
  rw [bind]
  split
  · next h =>
    have none := List.isEmpty_iff.mp h
    rw [none] at t
    exact ⟨inner, outer, t, by simp [none]⟩
  · next h =>
    have some : e.post ≠ [] := fun none => h (List.isEmpty_iff.mpr none)
    exact ⟨_, _, t.hold name rfl, by simp [some]⟩

end Emission

/-! ### Variables -/

namespace Property

def viaOwner (p : Property) : Bool := p.isLateBound || !p.isStatic

/-- The owner of the property is not looked for in vain. -/
def Tight (p : Property) : Prop := p.owner = .running ∨ p.viaOwner = true

/-- The property is reached without a variable. -/
def Direct (p : Property) : Prop := p.owner = .running ∨ p.viaOwner = false

end Property

/-- The variable that holds a named owner. -/
def ownerVars (slot : String) : Owner → List String
  | .running => []
  | .named _ => [agent slot]

theorem mem_ownerVars {y : String} (h : y ∈ ownerVars slot o) : y = agent slot := by
  cases o with
  | running => cases h
  | named a => exact mem_singleton.mp h

/-- An expression after more steps, which uses that of the first part perhaps and those of the second part
in any case. -/
theorem Ledger.access {pre' : List Step} (owner : Ledger pre [e] [] [] (ownerVars slot o) [])
    (t : Ledger pre' es [] [] outer idle) (b : Bool)
    (quiet : stepUsed ss = [] ∧ introduced ss = [])
    (names : e'.names = (if b then e.names else []) ++ Expr.allNames es) :
    Ledger (pre ++ pre' ++ ss) [e'] [] [] ((if b then ownerVars slot o else []) ++ outer)
      ((if b then [] else ownerVars slot o) ++ idle) where
  sorted := by
    refine perm_iff_count.mpr fun y => ?_
    have first := owner.sorted.count_eq y
    have second := t.sorted.count_eq y
    cases b <;> simp [quiet.2] at first second ⊢ <;> omega
  before y hy := by
    simp only [stepUsed_append, quiet.1, List.append_nil, mem_append] at hy
    exact hy.elim (owner.before y) (t.before y)
  reach y hy := by
    rw [Expr.allNames, Expr.allNames, List.append_nil, names, mem_append] at hy
    rw [mem_append]
    rcases hy with hy | hy
    · cases b with
      | false => cases hy
      | true => exact (owner.reach y (by simpa using hy)).imp id .inl
    · exact (t.reach y hy).imp id .inr
  after := by simp
  spent := by simp
  held y hy := by
    rw [Expr.allNames, Expr.allNames, List.append_nil, names]
    rw [mem_append] at hy ⊢
    rcases hy with hy | hy
    · cases b with
      | false => cases hy
      | true => exact .inl (by simpa using owner.held y hy)
    · exact .inr (t.held y hy)
  owners y hy := by
    rcases mem_append.mp hy with hy | hy
    · cases b with
      | false => exact ⟨slot, mem_ownerVars hy⟩
      | true => cases hy
    · exact t.owners y hy

/-- Storing through an owner uses its variables if the access does. -/
theorem StoreLedger.access {pre' : List Step} {value : Expr}
    (owner : Ledger pre [e] [] [] (ownerVars slot o) [])
    (t : Ledger pre' es [] [] outer idle) (b : Bool)
    (none : introduced ss = [])
    (used : stepUsed ss = (if b then e.names else []) ++ Expr.allNames es ++ value.names) :
    StoreLedger (pre ++ pre' ++ ss) value ((if b then ownerVars slot o else []) ++ outer)
      ((if b then [] else ownerVars slot o) ++ idle) where
  sorted := by
    refine perm_iff_count.mpr fun y => ?_
    have first := owner.sorted.count_eq y
    have second := t.sorted.count_eq y
    cases b <;> simp [none] at first second ⊢ <;> omega
  uses y hy := by
    simp only [stepUsed_append, used, mem_append] at hy ⊢
    rcases hy with (hy | hy) | (hy | hy) | hy
    · exact (owner.before y hy).imp id fun h => by cases h
    · exact (t.before y hy).imp id fun h => by cases h
    · cases b with
      | false => cases hy
      | true => exact (owner.reach y (by simpa using hy)).imp id (.inl ∘ .inl)
    · exact (t.reach y hy).imp id (.inl ∘ .inr)
    · exact .inr (.inr hy)
  spent y hy := by
    simp only [stepUsed_append, used, mem_append] at hy ⊢
    rcases hy with hy | hy
    · cases b with
      | false => cases hy
      | true => exact .inr (.inl (.inl (by simpa using owner.held y hy)))
    · exact .inr (.inl (.inr (t.held y hy)))
  stored y hy := by
    simp only [stepUsed_append, used, mem_append]
    exact .inr (.inr hy)
  owners y hy := by
    rcases mem_append.mp hy with hy | hy
    · cases b with
      | false => exact ⟨slot, mem_ownerVars hy⟩
      | true => cases hy
    · exact t.owners y hy

namespace Context

variable (x : Context)

theorem ledger_namedAgent (name className slot : String) :
    Ledger (x.namedAgent name className slot).value.1 [(x.namedAgent name className slot).value.2] [] []
      [agent slot] [] := by
  rw [namedAgent]
  split
  · have found : Ledger [] [.call (.member "bt" "GetParentAgent") [agentVar, .string name]] [] [] [] [] :=
      .nothing (by simp [agentVar, ambient])
    exact found.hold (agent slot) (names_assertedAgent _ className)
  · have found : Ledger [] [.select (receiver x.agentType).value (memberName name)] [] [] [] [] :=
      .nothing (by simp [names_receiver, ambient])
    exact found.hold (agent slot) rfl

theorem ledger_ownerOf (p : Property) (slot : String) :
    Ledger (x.ownerOf p slot).value.1 [(x.ownerOf p slot).value.2] [] [] (ownerVars slot p.owner) [] := by
  rw [ownerOf]
  cases p.owner with
  | running =>
    refine .nothing ?_
    simp [names_receiver, ambient]
  | named a => exact x.ledger_namedAgent a _ slot

/-- The variables of the owner that an access uses, and those that it leaves. -/
theorem used_readFrom (p : Property) (owner : Expr) (i : Option Expr) :
    stepUsed (x.readFrom p owner i).value.1 = [] ∧ introduced (x.readFrom p owner i).value.1 = [] ∧
      (x.readFrom p owner i).value.2.names = (if p.viaOwner then owner.names else []) ++ indexNames i := by
  rw [readFrom, Property.viaOwner]
  split
  · next late => simp [late, checkId, Step.used, Step.introduced, names_lookupArgs,
      names_indexed, names_stored]
  · next early =>
    rw [Bool.not_eq_true] at early
    rw [memberAccess]
    cases p.isStatic <;> simp [early, names_indexed]

theorem used_writeTo (p : Property) (owner : Expr) (i : Option Expr) (value : Expr) :
    introduced (x.writeTo p owner i value).value = [] ∧ stepUsed (x.writeTo p owner i value).value =
      (if p.viaOwner then owner.names else []) ++ indexNames i ++ value.names := by
  rw [writeTo, Property.viaOwner]
  split
  · next late =>
    cases i <;> simp [late, checkId, Step.used, Step.introduced, names_lookupArgs, names_stored, indexNames]
  · next early =>
    rw [Bool.not_eq_true] at early
    rw [memberAccess]
    cases p.isStatic <;> cases i <;> simp [early, Step.used, Step.introduced, indexed, indexNames]

/-- The account of accesses to properties: no variable is idle if all are tight, and none is used if all are
direct. -/
structure Accounted (ps : List Property) (outer idle : List String) : Prop where
  tight : idle = [] ↔ ∀ p ∈ ps, p.Tight
  direct : outer = [] ↔ ∀ p ∈ ps, p.Direct

theorem ownerVars_eq_nil (slot : String) (o : Owner) : ownerVars slot o = [] ↔ o = .running := by
  cases o <;> simp [ownerVars]

theorem accounted_nil : Accounted [] [] [] := by constructor <;> simp

theorem Accounted.cons {ps : List Property} (rest : Accounted ps outer idle)
    (p : Property) (slot : String) :
    Accounted (p :: ps) ((if p.viaOwner then ownerVars slot p.owner else []) ++ outer)
      ((if p.viaOwner then [] else ownerVars slot p.owner) ++ idle) where
  tight := by
    rw [append_eq_nil_iff, rest.tight, forall_mem_cons, Property.Tight, ← ownerVars_eq_nil slot]
    cases p.viaOwner <;> simp
  direct := by
    rw [append_eq_nil_iff, rest.direct, forall_mem_cons, Property.Direct, ← ownerVars_eq_nil slot]
    cases p.viaOwner <;> simp

/-- Reading a variable leaves none idle if its properties are tight, and uses none if they are direct.
-/
theorem ledger_readVariable : ∀ (v : Variable) (slot : String), ∃ outer idle,
    Ledger (x.readVariable v slot).value.pre [(x.readVariable v slot).value.expr] [] [] outer idle ∧
      Accounted v.properties outer idle
  | .const native value, slot => by
      have names := (tidy_constant x native value slot fun _ => False).reach
      rw [pre_constant] at names
      refine ⟨[], [], ?_, accounted_nil⟩
      rw [readVariable, pre_constant]
      exact .nothing (by simpa using names)
  | .property p, slot => by
      have none : Ledger [] [] [] [] [] [] := .nothing (nil_subset _)
      obtain ⟨used, introduced, names⟩ := x.used_readFrom p (x.ownerOf p slot).value.2 Option.none
      have read := (x.ledger_ownerOf p slot).access none p.viaOwner ⟨used, introduced⟩
        (by simpa [indexNames] using names)
      rw [List.append_nil] at read
      exact ⟨_, _, read, accounted_nil.cons p slot⟩
  | .element p index, slot => by
      obtain ⟨outer, idle, inside, account⟩ := ledger_readVariable index (indexSlot slot)
      obtain ⟨used, introduced, names⟩ := x.used_readFrom p (x.ownerOf p slot).value.2
        (some (x.readVariable index (indexSlot slot)).value.expr)
      have read := (x.ledger_ownerOf p slot).access inside p.viaOwner ⟨used, introduced⟩
        (by simpa [indexNames] using names)
      rw [readVariable]
      simp only [Emit.value_bind, Emit.value_pure, bind_readVariable]
      exact ⟨_, _, read, account.cons p slot⟩

/-- Storing leaves no variable idle exactly if the properties on the way are tight. -/
theorem storeLedger_writeVariable (place : v.isConst = false) (value : Expr) (slot : String) :
    ∃ inner idle, StoreLedger (x.writeVariable v value slot).value value inner idle ∧
      (idle = [] ↔ ∀ p ∈ v.properties, p.Tight) := by
  cases v with
  | const native constant => cases place
  | property p =>
    have none : Ledger [] [] [] [] [] [] := .nothing (nil_subset _)
    obtain ⟨introduced, used⟩ := x.used_writeTo p (x.ownerOf p slot).value.2 Option.none value
    have write := StoreLedger.access (x.ledger_ownerOf p slot) none p.viaOwner introduced
      (by simpa [indexNames] using used)
    rw [List.append_nil] at write
    exact ⟨_, _, write, (accounted_nil.cons p slot).tight⟩
  | element p index =>
    obtain ⟨outer, idle, inside, account⟩ := x.ledger_readVariable index (indexSlot slot)
    obtain ⟨introduced, used⟩ := x.used_writeTo p (x.ownerOf p slot).value.2
      (some (x.readVariable index (indexSlot slot)).value.expr) value
    have write := StoreLedger.access (x.ledger_ownerOf p slot) inside p.viaOwner introduced
      (by simpa [indexNames] using used)
    rw [writeVariable]
    simp only [Emit.value_bind, Emit.value_pure, bind_readVariable]
    exact ⟨_, _, write, (account.cons p slot).tight⟩

end Context

/-! ### Calls -/

/-- The operand is evaluated without variables: all agents are the running one, as far as they are used, and no
argument is passed by reference. -/
inductive Operand.Direct : Operand → Prop
  | var {v : Variable} (h : ∀ p ∈ v.properties, p.Direct) : Direct (.var v)
  | call {m : Method} {args : List (Option Operand)} (own : m.owner = .running)
      (byValue : ∀ p o i, ((p, some o), i) ∈ Call.bindings (m, args) → p.isByRef = false)
      (direct : ∀ p o i, ((p, some o), i) ∈ Call.bindings (m, args) → Direct o) : Direct (.call m args)

/-- No owner is looked for in vain in the operand. -/
def Operand.Tight (o : Operand) : Prop := ∀ v, Operand.Within (.var v) o → ∀ p ∈ v.properties, p.Tight

namespace Operand

theorem tight_var : (Operand.var v).Tight ↔ ∀ p ∈ v.properties, p.Tight := by
  constructor
  · intro h
    exact h v .refl
  · intro h w within
    cases within
    exact h

theorem tight_call {m : Method} {args : List (Option Operand)} : (Operand.call m args).Tight ↔
    ∀ b ∈ Call.bindings (m, args), ∀ o, b.1.2 = some o → o.Tight := by
  constructor
  · rintro h ⟨⟨p, o'⟩, i⟩ hb o rfl v within
    exact h v (.argument hb within)
  · intro h v within
    generalize whole : Operand.call m args = o at within
    cases within with
    | refl => cases whole
    | @argument c p o i bound rest =>
      obtain ⟨rfl, rfl⟩ := Operand.call.inj whole
      exact h _ bound o rfl v rest

theorem direct_var : (Operand.var v).Direct ↔ ∀ p ∈ v.properties, p.Direct := by
  constructor
  · rintro ⟨h⟩
    exact h
  · exact .var

theorem direct_call {m : Method} {args : List (Option Operand)} : (Operand.call m args).Direct ↔
    m.owner = .running ∧ ∀ b ∈ Call.bindings (m, args), ∀ o, b.1.2 = some o → b.1.1.isByRef = false ∧
    o.Direct := by
  constructor
  · rintro (_ | ⟨own, byValue, direct⟩)
    refine ⟨own, ?_⟩
    rintro ⟨⟨p, o'⟩, i⟩ hb o rfl
    exact ⟨byValue p o i hb, direct p o i hb⟩
  · rintro ⟨own, h⟩
    exact .call own (fun p o i hb => (h _ hb o rfl).1) fun p o i hb => (h _ hb o rfl).2

end Operand

/-- There is an account of the parts. No variable is idle exactly in the first case, and no variable is
left to the expressions and the later steps exactly in the second case. -/
def Accounts (pre : List Step) (es : List Expr) (post : List Step) (tight direct : Prop) : Prop :=
  ∃ inner outer idle, Ledger pre es post inner outer idle ∧ (idle = [] ↔ tight) ∧
    (outer = [] ∧ post = [] ↔ direct)

namespace Accounts

variable {pre pre' post post' : List Step} {es es' : List Expr} {tight tight' direct direct' : Prop}

theorem nothing (h : Expr.allNames es ⊆ ambient) : Accounts [] es [] True True :=
  ⟨[], [], [], .nothing h, by simp, by simp⟩

theorem append (t : Accounts pre es post tight direct) (t' : Accounts pre' es' post' tight' direct') :
    Accounts (pre ++ pre') (es ++ es') (post ++ post') (tight ∧ tight') (direct ∧ direct') := by
  obtain ⟨inner, outer, idle, ledger, ht, hd⟩ := t
  obtain ⟨inner', outer', idle', ledger', ht', hd'⟩ := t'
  refine ⟨_, _, _, ledger.append ledger', ?_, ?_⟩
  · rw [append_eq_nil_iff, ht, ht']
  · rw [append_eq_nil_iff, append_eq_nil_iff, ← hd, ← hd']
    tauto

theorem congr (t : Accounts pre es post tight direct) (names : Expr.allNames es' = Expr.allNames es)
    (ht : tight ↔ tight') (hd : direct ↔ direct') : Accounts pre es' post tight' direct' := by
  obtain ⟨inner, outer, idle, ledger, hi, ho⟩ := t
  refine ⟨inner, outer, idle, { ledger with reach := ?_, held := ?_ }, hi.trans ht, ho.trans hd⟩
  · rw [names]
    exact ledger.reach
  · rw [names]
    exact ledger.held

/-- The value held in a variable. -/
theorem hold (t : Accounts pre [e] post tight direct) (y : String) (name : e'.names = [y]) :
    Accounts (pre ++ [.define y e] ++ post) [e'] [] tight False := by
  obtain ⟨inner, outer, idle, ledger, hi, _⟩ := t
  exact ⟨_, _, _, ledger.hold y name, hi, by simp⟩

/-- The value is not used. -/
theorem eval (t : Accounts pre [e] post tight direct) :
    Accounts (pre ++ [.eval e] ++ post) [] [] tight True := by
  obtain ⟨inner, outer, idle, ledger, hi, _⟩ := t
  exact ⟨_, _, _, ledger.eval, hi, by simp⟩

end Accounts

theorem Emission.accounts_bind {e : Emission} {tight direct : Prop}
    (t : Accounts e.pre [e.expr] e.post tight direct) (name : String) :
    Accounts (e.bind name).1 [(e.bind name).2] [] tight direct := by
  obtain ⟨inner, outer, idle, ledger, hi, ho⟩ := t
  obtain ⟨inner', outer', bound, left⟩ := Emission.ledger_bind ledger name
  exact ⟨inner', outer', idle, bound, hi, by rw [← ho, ← left]; simp⟩

namespace Context

variable (x : Context)

theorem accounts_readVariable (v : Variable) (slot : String) :
    Accounts (x.readVariable v slot).value.pre [(x.readVariable v slot).value.expr] []
      (∀ p ∈ v.properties, p.Tight) (∀ p ∈ v.properties, p.Direct) := by
  obtain ⟨outer, idle, ledger, account⟩ := x.ledger_readVariable v slot
  exact ⟨[], outer, idle, ledger, account.tight, by simpa using account.direct⟩

theorem accounts_byReference (place : v.isConst = false) (slot : String) (writable : Bool) :
    Accounts ((x.readVariable v slot).value.pre ++ [.define slot (x.readVariable v slot).value.expr])
      [.address slot] (if writable then (x.writeVariable v (.name slot) (slot ++ "Out")).value else [])
      (∀ p ∈ v.properties, p.Tight) False := by
  obtain ⟨outer, idle, read, account⟩ := x.ledger_readVariable v slot
  have held : Ledger _ [.address slot] [] _ [slot] idle := read.hold slot rfl
  rw [List.append_nil] at held
  cases writable with
  | false => exact ⟨_, _, _, held, account.tight, by simp⟩
  | true =>
    obtain ⟨inner', idle', write, tight⟩ := x.storeLedger_writeVariable place (.name slot) (slot ++ "Out")
    refine ⟨_, _, _, held.follow write fun y hy => hy, ?_, by simp⟩
    rw [append_eq_nil_iff, account.tight, tight, and_self]

/-- What a parameter adds to a call. -/
theorem accounts_argumentAt (slot : String) (b : Binding)
    (nested : ∀ o, b.1.2 = some o → ∀ s, Accounts (x.operand o s).value.pre [(x.operand o s).value.expr]
      (x.operand o s).value.post o.Tight o.Direct) :
    Accounts (x.argumentAt slot b).pre (x.argumentAt slot b).exprs (x.argumentAt slot b).post
      (∀ o, b.1.2 = some o → o.Tight) (∀ o, b.1.2 = some o → b.1.1.isByRef = false ∧ o.Direct) := by
  obtain ⟨⟨p, o⟩, i⟩ := b
  cases o with
  | none =>
    have none := x.names_defaultLiteral p.type
    have default : Accounts [] (x.unboundArgument p).value.exprs [] True True :=
      .nothing (by simp [unboundArgument, none])
    exact default.congr rfl (by simp) (by simp)
  | some o =>
    have operand := nested o rfl (argSlot slot i)
    simp only [Option.some.injEq, forall_eq']
    rw [argumentAt]
    fun_cases givenArgument x p o (argSlot slot i) with
    | case1 native value =>
      have field : Accounts [] [(x.capture native value (argSlot slot i)).value] [] True True :=
        .nothing (by simp [names_capture, ambient])
      have tight : True ↔ (Operand.var (.const native value)).Tight := by
        simp [Operand.tight_var, Variable.properties]
      rw [value_constArgument]
      split
      · next byRef => exact (field.hold (argSlot slot i) rfl).congr rfl tight (by simp [byRef])
      · next byValue =>
        refine field.congr rfl tight ?_
        simp [Operand.direct_var, Variable.properties, byValue]
    | case2 v notConst =>
      have place : v.isConst = false := by
        cases v with
        | const native value => exact absurd rfl (notConst native value)
        | _ => rfl
      rw [Emit.value_bind, value_variableArgument]
      split
      · next byRef =>
        have passed := x.accounts_byReference place (argSlot slot i) (isWritable v)
        exact passed.congr rfl Operand.tight_var.symm (by simp [byRef])
      · next byValue =>
        refine (x.accounts_readVariable v (argSlot slot i)).congr rfl Operand.tight_var.symm ?_
        simp [Operand.direct_var, byValue]
    | case3 m args =>
      rw [Emit.value_bind, Emit.value_pure, callArgument_eq]
      split
      · next byRef => exact (operand.hold (argSlot slot i) rfl).congr rfl .rfl (by simp [byRef])
      · next byValue =>
        exact (Emission.accounts_bind operand (argSlot slot i)).congr rfl .rfl (by simp [byValue])

theorem accounts_argumentsAt (slot : String) : ∀ bs : List Binding,
    (∀ b ∈ bs, Accounts (x.argumentAt slot b).pre (x.argumentAt slot b).exprs (x.argumentAt slot b).post
      (∀ o, b.1.2 = some o → o.Tight) (∀ o, b.1.2 = some o → b.1.1.isByRef = false ∧ o.Direct)) →
    Accounts (x.argumentsAt slot bs).pre (x.argumentsAt slot bs).exprs (x.argumentsAt slot bs).post
      (∀ b ∈ bs, ∀ o, b.1.2 = some o → o.Tight)
      (∀ b ∈ bs, ∀ o, b.1.2 = some o → b.1.1.isByRef = false ∧ o.Direct)
  | [], _ => (Accounts.nothing (nil_subset _)).congr rfl (by simp) (by simp)
  | b :: bs, h => by
      have rest := accounts_argumentsAt slot bs fun b' hb' => h b' (mem_cons_of_mem _ hb')
      exact ((h b mem_cons_self).append rest).congr rfl (by rw [forall_mem_cons])
        (by rw [forall_mem_cons])

theorem accounts_callee (m : Method) (slot : String) :
    Accounts (x.callee m slot).1 [(x.callee m slot).2] [] True (m.owner = .running) := by
  rw [callee]
  cases m.owner with
  | running =>
    have own : Accounts [] [.select (receiver m.className).value (memberName m.name)] [] True True :=
      .nothing (by simp [names_receiver, ambient])
    exact own.congr rfl .rfl (by simp)
  | named a =>
    have found := x.ledger_namedAgent a m.className slot
    have method : Accounts _ [(x.namedAgent a m.className slot).value.2] [] True False :=
      ⟨_, _, _, found, by simp, by simp⟩
    exact method.congr (by simp) .rfl (by simp)

/-- An operand, whatever is nested in it. -/
theorem accounts_operand (o : Operand) : ∀ slot, Accounts (x.operand o slot).value.pre
    [(x.operand o slot).value.expr] (x.operand o slot).value.post o.Tight o.Direct := by
  induction o using Operand.nested_induction with
  | var v =>
    intro slot
    have read := x.accounts_readVariable v slot
    rw [operand, post_readVariable]
    exact read.congr rfl Operand.tight_var.symm Operand.direct_var.symm
  | call m args ih =>
    intro slot
    have given := x.accounts_argumentsAt slot (Call.bindings (m, args)) fun b hb =>
      x.accounts_argumentAt slot b fun o bound => ih o (by
        obtain ⟨⟨p, o'⟩, i⟩ := b
        obtain rfl : o' = some o := bound
        exact mem_of_getElem? (Option.join_eq_some_iff.mp (Call.mem_bindings.mp hb).2))
    have call := (x.accounts_callee m slot).append given
    have value := x.value_callMethod (m, args) slot
    rw [callMethod] at value
    rw [value]
    refine call.congr (by simp) ?_ Operand.direct_call.symm
    rw [true_and, Operand.tight_call]

end Context

end GoTrees
