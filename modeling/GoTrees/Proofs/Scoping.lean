import GoTrees.Go.Code
import Mathlib.Data.List.Nodup
import Mathlib.Data.List.Perm.Basic

/-!
# Scopes of generated methods

A method body is well scoped if it refers only to its receiver, its parameters, what Go itself declares
and the variables that an earlier statement in scope introduced, and if it introduces every variable once
and under a new name.

An operand is checked in three parts: the steps before it, the names that its expression refers to, and
the steps after it. `Tidy` says that the parts are in scope and that every variable they introduce is
introduced once and is one of a given set of names. Tidy parts can be put together when their sets are
disjoint.
-/

namespace GoTrees.Go

open List

variable {known : List String}

/-! ### References and definitions -/

mutual

/-- The variables that an expression refers to. -/
def Expr.names : Expr → List String
  | .name x | .address x => [x]
  | .select e _ | .asserted e _ | .converted _ e | .not e => e.names
  | .call f args => f.names ++ Expr.allNames args
  | .index e i => e.names ++ i.names
  | .binary l _ r => l.names ++ r.names
  | .slice _ items => Expr.allNames items
  | .literal _ | .string _ | .member .. | .path _ | .empty _ | .new _ => []

/-- The variables that expressions refer to. -/
def Expr.allNames : List Expr → List String
  | [] => []
  | e :: es => e.names ++ Expr.allNames es

end

attribute [simp] Expr.names Expr.allNames

@[simp] theorem Expr.allNames_append : ∀ as bs : List Expr,
    Expr.allNames (as ++ bs) = Expr.allNames as ++ Expr.allNames bs
  | [], _ => rfl
  | a :: as, bs => by simp [Expr.allNames_append as bs]

/-- The step refers to known variables only. A line as it was given could refer to anything. -/
def Step.InScope (known : List String) : Step → Prop
  | .define _ e | .eval e | .ret e => e.names ⊆ known
  | .assign target e => target.names ⊆ known ∧ e.names ⊆ known
  | .comment _ => True
  | .verbatim _ => False

def Step.introduced : Step → List String
  | .define x _ => [x]
  | .assign .. | .eval _ | .ret _ | .comment _ | .verbatim _ => []

def introduced (ss : List Step) : List String := ss.flatMap Step.introduced

/-- Every step refers to known variables and to those of earlier steps only. -/
def Scoped (known : List String) : List Step → Prop
  | [] => True
  | s :: ss => s.InScope known ∧ Scoped (known ++ s.introduced) ss

@[simp] theorem introduced_nil : introduced [] = [] := rfl

@[simp] theorem introduced_cons (s : Step) (ss : List Step) :
    introduced (s :: ss) = s.introduced ++ introduced ss := rfl

@[simp] theorem introduced_append (as bs : List Step) :
    introduced (as ++ bs) = introduced as ++ introduced bs := flatMap_append

theorem Step.InScope.mono {more : List String} (sub : known ⊆ more) :
    ∀ {s : Step}, s.InScope known → s.InScope more
  | .define .., h | .eval _, h | .ret _, h => List.Subset.trans h sub
  | .assign .., h => ⟨List.Subset.trans h.1 sub, List.Subset.trans h.2 sub⟩
  | .comment _, _ => trivial
  | .verbatim _, h => h

theorem append_subset_append {more : List String} (sub : known ⊆ more) (xs : List String) :
    known ++ xs ⊆ more ++ xs :=
  append_subset.mpr ⟨subset_append_of_subset_left xs sub, subset_append_right more xs⟩

theorem Scoped.mono {known more : List String} (sub : known ⊆ more) : ∀ {ss : List Step},
    Scoped known ss → Scoped more ss
  | [], _ => trivial
  | _ :: _, h => ⟨h.1.mono sub, h.2.mono (append_subset_append sub _)⟩

theorem scoped_append {as bs : List Step} :
    Scoped known (as ++ bs) ↔ Scoped known as ∧ Scoped (known ++ introduced as) bs := by
  induction as generalizing known with
  | nil => simp [Scoped]
  | cons a as ih => simp [Scoped, ih, and_assoc]

/-! ### Bodies -/

mutual

/-- The variables that a statement introduces, also those inside its blocks. -/
def Stmt.introduced : Stmt → List String
  | .step s => s.introduced
  | .block body | .ifThen _ body => Stmt.allIntroduced body

/-- The variables that statements introduce. -/
def Stmt.allIntroduced : List Stmt → List String
  | [] => []
  | s :: ss => s.introduced ++ Stmt.allIntroduced ss

end

/-- The variables that a statement introduces for those after it; a block keeps its own. -/
def Stmt.opened : Stmt → List String
  | .step s => s.introduced
  | .block _ | .ifThen .. => []

mutual

/-- The statement refers to known variables only. -/
def Stmt.InScope : List String → Stmt → Prop
  | known, .step s => s.InScope known
  | known, .block body => Stmt.AllInScope known body
  | known, .ifThen condition body => condition.names ⊆ known ∧ Stmt.AllInScope known body

/-- Every statement refers to known variables and to those of earlier statements in scope only. -/
def Stmt.AllInScope : List String → List Stmt → Prop
  | _, [] => True
  | known, s :: ss => s.InScope known ∧ Stmt.AllInScope (known ++ s.opened) ss

end

/-- What a function binds before its body. -/
def Func.bound (f : Func) : List String := f.receiver.toList.map (·.1) ++ f.params.map (·.1)

/-- The functions used here that Go itself declares. -/
def predeclared : List String := ["panic"]

/-- The body introduces every variable once and under a new name, and refers only to variables in
scope. -/
structure Func.WellScoped (f : Func) : Prop where
  distinct : (predeclared ++ f.bound ++ Stmt.allIntroduced f.body).Nodup
  inScope : Stmt.AllInScope (predeclared ++ f.bound) f.body

theorem Stmt.allIntroduced_append : ∀ as bs : List Stmt,
    Stmt.allIntroduced (as ++ bs) = Stmt.allIntroduced as ++ Stmt.allIntroduced bs
  | [], _ => rfl
  | a :: as, bs => by simp [Stmt.allIntroduced, Stmt.allIntroduced_append as bs]

theorem Stmt.allIntroduced_steps : ∀ ss : List Step,
    Stmt.allIntroduced (ss.map .step) = Go.introduced ss
  | [] => rfl
  | s :: ss => by
      rw [map_cons, Stmt.allIntroduced, Stmt.allIntroduced_steps ss, introduced_cons]
      rfl

/-- The variables that statements introduce for those after them. -/
def Stmt.allOpened (ss : List Stmt) : List String := ss.flatMap Stmt.opened

theorem Stmt.allOpened_steps : ∀ ss : List Step, Stmt.allOpened (ss.map .step) = Go.introduced ss
  | [] => rfl
  | s :: ss => congrArg (s.introduced ++ ·) (Stmt.allOpened_steps ss)

theorem Stmt.allInScope_append {as bs : List Stmt} :
    Stmt.AllInScope known (as ++ bs) ↔
      Stmt.AllInScope known as ∧ Stmt.AllInScope (known ++ Stmt.allOpened as) bs := by
  induction as generalizing known with
  | nil => simp [Stmt.AllInScope, Stmt.allOpened]
  | cons a as ih => simp [Stmt.AllInScope, ih, Stmt.allOpened, and_assoc]

theorem Stmt.allInScope_steps {ss : List Step} :
    Stmt.AllInScope known (ss.map .step) ↔ Scoped known ss := by
  induction ss generalizing known with
  | nil => simp [Scoped, Stmt.AllInScope]
  | cons s ss ih => simp [Stmt.AllInScope, Scoped, Stmt.InScope, Stmt.opened, ih]

/-! ### Tidy parts -/

/-- Steps, the names used after them and later steps, against some known variables: all is in scope, and
every variable is introduced once and belongs to the set. -/
structure Tidy (known : List String) (own : String → Prop) (pre : List Step) (uses : List String)
    (post : List Step) : Prop where
  before : Scoped known pre
  reach : uses ⊆ known ++ introduced pre
  after : Scoped (known ++ introduced pre) post
  fresh : (introduced pre ++ introduced post).Nodup
  owned : ∀ x ∈ introduced pre ++ introduced post, own x

namespace Tidy

variable {known more uses uses' : List String} {own own' : String → Prop}
  {pre pre' post post' : List Step}

theorem nothing (h : uses ⊆ known) : Tidy known own [] uses [] :=
  ⟨trivial, by simpa using h, trivial, .nil, by simp⟩

theorem define {x : String} {e : Expr} (h : e.names ⊆ known) :
    Tidy known (· = x) [.define x e] [x] [] :=
  ⟨⟨h, trivial⟩, by simp [Step.introduced], trivial, by simp [Step.introduced],
   by simp [Step.introduced]⟩

theorem step {s : Step} (h : s.InScope known) (none : s.introduced = []) :
    Tidy known own [s] [] [] :=
  ⟨⟨h, trivial⟩, nil_subset _, trivial, by simp [none], by simp [none]⟩

theorem mono (sub : known ⊆ more) (t : Tidy known own pre uses post) :
    Tidy more own pre uses post where
  before := t.before.mono sub
  reach := List.Subset.trans t.reach (append_subset_append sub _)
  after := t.after.mono (append_subset_append sub _)
  fresh := t.fresh
  owned := t.owned

theorem widen (sub : ∀ x, own x → own' x) (t : Tidy known own pre uses post) :
    Tidy known own' pre uses post :=
  { t with owned := fun x hx => sub x (t.owned x hx) }

/-- What is known or used is in scope after the first steps. -/
theorem known_append_uses (t : Tidy known own pre uses post) :
    known ++ uses ⊆ known ++ introduced pre :=
  append_subset.mpr ⟨subset_append_left _ _, t.reach⟩

/-- Other names can be used if they are known or used already. -/
theorem use (sub : uses' ⊆ known ++ uses) (t : Tidy known own pre uses post) :
    Tidy known own pre uses' post :=
  { t with reach := List.Subset.trans sub t.known_append_uses }

/-- One part after the other, where the second may use what the first gives. -/
theorem seq (t : Tidy known own pre uses post) (t' : Tidy (known ++ uses) own' pre' uses' post')
    (apart : ∀ x, own x → ¬ own' x) :
    Tidy known (fun x => own x ∨ own' x) (pre ++ pre') (uses ++ uses') (post ++ post') := by
  have t' := t'.mono t.known_append_uses
  -- the later steps of both parts come last, so the names are those of the parts in another order
  have names : (introduced (pre ++ pre') ++ introduced (post ++ post')).Perm
      ((introduced pre ++ introduced post) ++ (introduced pre' ++ introduced post')) := by
    have swap : (introduced pre' ++ introduced post).Perm (introduced post ++ introduced pre') :=
      perm_append_comm
    simpa using (swap.append_right (introduced post')).append_left (introduced pre)
  have scope : known ++ introduced (pre ++ pre') = known ++ introduced pre ++ introduced pre' := by simp
  refine ⟨scoped_append.mpr ⟨t.before, t'.before⟩, ?_, ?_, ?_, ?_⟩
  · rw [scope]
    exact append_subset.mpr ⟨subset_append_of_subset_left _ t.reach, t'.reach⟩
  · rw [scope, scoped_append]
    exact ⟨t.after.mono (subset_append_left _ _),
      t'.after.mono (subset_append_left _ _)⟩
  · rw [names.nodup_iff]
    exact List.Nodup.append t.fresh t'.fresh fun x hx hx' => apart x (t.owned x hx) (t'.owned x hx')
  · intro x hx
    rcases mem_append.mp (names.mem_iff.mp hx) with hx | hx
    · exact .inl (t.owned x hx)
    · exact .inr (t'.owned x hx)

/-- Parts that do not use each other. -/
theorem append (t : Tidy known own pre uses post) (t' : Tidy known own' pre' uses' post')
    (apart : ∀ x, own x → ¬ own' x) :
    Tidy known (fun x => own x ∨ own' x) (pre ++ pre') (uses ++ uses') (post ++ post') :=
  t.seq (t'.mono (subset_append_left _ _)) apart

/-- More steps that introduce nothing. -/
theorem finish (t : Tidy known own pre uses post)
    (t' : Tidy (known ++ uses) (fun _ => False) pre' uses' []) :
    Tidy known own (pre ++ pre') uses' post := by
  have whole := t.seq t' fun _ _ => id
  simp only [or_false, List.append_nil] at whole
  exact whole.use fun x hx => by simp [hx]

/-- A part as the later steps of another. -/
theorem follow (t : Tidy known own pre uses []) (t' : Tidy (known ++ uses) own' post uses' [])
    (apart : ∀ x, own x → ¬ own' x) : Tidy known (fun x => own x ∨ own' x) pre uses post := by
  have t' := t'.mono t.known_append_uses
  have fresh := t.fresh
  have fresh' := t'.fresh
  simp only [introduced_nil, List.append_nil] at fresh fresh'
  refine ⟨t.before, t.reach, t'.before, ?_, ?_⟩
  · exact fresh.append fresh' fun x hx hx' => apart x (t.owned x (by simpa)) (t'.owned x (by simpa))
  · intro x hx
    rcases mem_append.mp hx with hx | hx
    · exact .inl (t.owned x (by simpa))
    · exact .inr (t'.owned x (by simpa))

/-- The later steps moved to the end of the first ones. -/
theorem settle (t : Tidy known own pre uses post) : Tidy known own (pre ++ post) uses [] where
  before := scoped_append.mpr ⟨t.before, t.after⟩
  reach := by
    rw [introduced_append, ← List.append_assoc]
    exact subset_append_of_subset_left _ t.reach
  after := trivial
  fresh := by simpa using t.fresh
  owned := by simpa using t.owned

end Tidy

/-- Statements against some known variables: all is in scope, and every variable is introduced once and
belongs to the set. -/
structure TidyBody (known : List String) (own : String → Prop) (body : List Stmt) : Prop where
  inScope : Stmt.AllInScope known body
  fresh : (Stmt.allIntroduced body).Nodup
  owned : ∀ x ∈ Stmt.allIntroduced body, own x

namespace TidyBody

variable {known : List String} {own own' : String → Prop} {body body' : List Stmt}

theorem ofSteps {steps : List Step} {uses : List String} (t : Tidy known own steps uses []) :
    TidyBody known own (steps.map .step) where
  inScope := Stmt.allInScope_steps.mpr t.before
  fresh := by simpa [Stmt.allIntroduced_steps] using t.fresh
  owned := by simpa [Stmt.allIntroduced_steps] using t.owned

theorem ifThen (condition : Expr) (h : condition.names ⊆ known) (t : TidyBody known own body) :
    TidyBody known own [.ifThen condition body] where
  inScope := ⟨⟨h, t.inScope⟩, trivial⟩
  fresh := by simpa [Stmt.allIntroduced, Stmt.introduced] using t.fresh
  owned := by simpa [Stmt.allIntroduced, Stmt.introduced] using t.owned

theorem append (t : TidyBody known own body)
    (t' : TidyBody (known ++ Stmt.allOpened body) own' body') (apart : ∀ x, own x → ¬ own' x) :
    TidyBody known (fun x => own x ∨ own' x) (body ++ body') where
  inScope := Stmt.allInScope_append.mpr ⟨t.inScope, t'.inScope⟩
  fresh := by
    rw [Stmt.allIntroduced_append]
    exact t.fresh.append t'.fresh fun x hx hx' => apart x (t.owned x hx) (t'.owned x hx')
  owned := by
    rw [Stmt.allIntroduced_append]
    intro x hx
    exact (mem_append.mp hx).imp (t.owned x) (t'.owned x)

theorem widen (sub : ∀ x, own x → own' x) (t : TidyBody known own body) : TidyBody known own' body :=
  { t with owned := fun x hx => sub x (t.owned x hx) }

/-- Statements after steps whose results they may use. -/
theorem afterSteps {steps : List Step} {uses : List String} (t : Tidy known own steps uses [])
    (t' : TidyBody (known ++ Go.introduced steps) own' body) (apart : ∀ x, own x → ¬ own' x) :
    TidyBody known (fun x => own x ∨ own' x) (steps.map .step ++ body) :=
  (ofSteps t).append (Stmt.allOpened_steps steps ▸ t') apart

end TidyBody

end GoTrees.Go
