import GoTrees.Proofs.Captures
import GoTrees.Proofs.Citations

/-!
# Contacts with agents

A contact is an access to a member of an agent: to a field, or to a method that is called. The running agent
is held in `agent`. Any other one is put in a variable `pAgent_{slot}` first:

    pAgent_opr := bt.GetParentAgent(agent, "king")    a global instance
    pAgent_opl := agent.(*types.Hero).Squire          a member of the running agent, which is a contact
    pAgent_opl.Gold = pAgent_opr.(*types.King).Gold   two contacts

`Func.contacts` finds the contacts of a body and follows the variables from their definitions to their uses,
so that each contact says which agent it is made with. In a body that introduces every variable once, this is
the same as to resolve all variables with one table that is right about every definition.
-/

namespace GoTrees

open List

namespace Go

/-! ### Contacts -/

/-- An agent that code can reach. -/
inductive Holder where
  /-- The one that runs the tree. -/
  | running
  /-- A global instance, asked for by name. -/
  | global (name : String)
  /-- A member of the running one. -/
  | member (field : String)
  deriving DecidableEq

abbrev Agents := String → Option Holder

/-- Is it the name of a variable that holds an agent? -/
def isAgentName (y : String) : Bool := "pAgent_".toList.isPrefixOf y.toList

/-- The agent that an expression stands for, perhaps as an instance of a class. -/
def Expr.agent? (h : Agents) : Expr → Option Holder
  | .name y => if y = "agent" then some .running else if isAgentName y then h y else none
  | .asserted e _ => e.agent? h
  | _ => none

/-- The agent that a variable gets by the expression. -/
def Expr.origin? : Expr → Option Holder
  | .call (.member package item) [.name y, .string asked] =>
    if package = "bt" ∧ item = "GetParentAgent" ∧ y = "agent" then some (.global asked) else none
  | .select e field => if e.agent? (fun _ => none) = some .running then some (.member field) else none
  | _ => none

/-- An access to a member of an agent. -/
structure Contact where
  /-- The agent, if the code tells which one it is. -/
  agent : Option Holder
  member : String
  /-- The name that is passed to a method of a store. -/
  key : String
  deriving DecidableEq

/-- The name that a call passes first, empty if there is none. -/
def keyOf : List Expr → String
  | .string name :: _ => name
  | _ => ""

mutual

/-- The contacts of an expression. If it is called, `key` is the name that is passed. The fields of the
receiver `n` belong to no agent. -/
def Expr.contacts (h : Agents) (key : String) : Expr → List Contact
  | .select e field => (if e.isReceiver then [] else [⟨e.agent? h, field, key⟩]) ++ e.contacts h ""
  | .call f args => f.contacts h (keyOf args) ++ Expr.allContacts h args
  | .asserted e _ | .converted _ e | .not e => e.contacts h ""
  | .index e i => e.contacts h "" ++ i.contacts h ""
  | .binary l _ r => l.contacts h "" ++ r.contacts h ""
  | .slice _ items => Expr.allContacts h items
  | .name _ | .address _ | .literal _ | .string _ | .member .. | .path _ | .empty _ | .new _ => []

def Expr.allContacts (h : Agents) : List Expr → List Contact
  | [] => []
  | e :: es => e.contacts h "" ++ Expr.allContacts h es

end

attribute [simp] Expr.contacts Expr.allContacts

@[simp] theorem Expr.allContacts_append (h : Agents) : ∀ as bs : List Expr,
    Expr.allContacts h (as ++ bs) = Expr.allContacts h as ++ Expr.allContacts h bs
  | [], _ => rfl
  | a :: as, bs => by simp [Expr.allContacts_append h as bs]

def Step.contacts (h : Agents) : Step → List Contact
  | .define _ e | .eval e | .ret e => e.contacts h ""
  | .assign target e => target.contacts h "" ++ e.contacts h ""
  | .comment _ | .verbatim _ => []

attribute [simp] Step.contacts

/-- What the variables hold after a step. -/
def Step.agents (h : Agents) : Step → Agents
  | .define y e => fun z => if z = y then e.origin? else h z
  | .assign .. | .eval _ | .ret _ | .comment _ | .verbatim _ => h

/-- What the variables hold after a statement; a block keeps its own. -/
def Stmt.agents (h : Agents) : Stmt → Agents
  | .step s => s.agents h
  | .block _ | .ifThen .. => h

mutual

def Stmt.contacts (h : Agents) : Stmt → List Contact
  | .step s => s.contacts h
  | .block body => Stmt.allContacts h body
  | .ifThen condition body => condition.contacts h "" ++ Stmt.allContacts h body

/-- The contacts of statements, one after the other. -/
def Stmt.allContacts (h : Agents) : List Stmt → List Contact
  | [] => []
  | s :: ss => s.contacts h ++ Stmt.allContacts (s.agents h) ss

end

/-- The contacts of a function, where no variable holds an agent at first. -/
def Func.contacts (f : Func) : List Contact := Stmt.allContacts (fun _ => none) f.body

/-! ### Definitions all at once

A variable is introduced once, so what it holds does not change. All contacts can be found with one table of
what the variables hold, if the table is right about every definition. -/

/-- The table is right about the variables that the steps define. -/
def Honest (g : Agents) (ss : List Step) : Prop :=
  ∀ y e, .define y e ∈ ss → isAgentName y = true → g y = e.origin?

theorem Honest.mono {g : Agents} {ss ss' : List Step} (sub : ss' ⊆ ss) (h : Honest g ss) : Honest g ss' :=
  fun y e mem => h y e (sub mem)

theorem honest_append {g : Agents} {as bs : List Step} :
    Honest g (as ++ bs) ↔ Honest g as ∧ Honest g bs := by
  constructor
  · intro h
    exact ⟨h.mono (subset_append_left as bs), h.mono (subset_append_right as bs)⟩
  · rintro ⟨ha, hb⟩ y e mem
    exact (mem_append.mp mem).elim (ha y e) (hb y e)

theorem honest_nil (g : Agents) : Honest g [] := fun _ _ mem => absurd mem not_mem_nil

/-- There is a table that is right about variables which are introduced once, and knows no others. -/
theorem exists_honest : ∀ ss : List Step, (introduced ss).Nodup →
    ∃ g, Honest g ss ∧ ∀ y, y ∉ introduced ss → g y = none
  | [], _ => ⟨fun _ => none, honest_nil _, fun _ _ => rfl⟩
  | s :: ss, distinct => by
      rw [introduced_cons, nodup_append] at distinct
      obtain ⟨g, honest, unknown⟩ := exists_honest ss distinct.2.1
      have kept {y : String} (older : y ∉ s.introduced) : s.agents g y = g y := by
        cases s with
        | define z e => simp [Step.agents, ne_of_not_mem_cons older]
        | _ => rfl
      refine ⟨s.agents g, fun y e mem named => ?_, fun y absent => ?_⟩
      · rcases mem_cons.mp mem with rfl | mem
        · simp [Step.agents]
        · have later : y ∈ introduced ss := mem_flatMap.mpr ⟨_, mem, mem_singleton_self y⟩
          rw [kept fun first => distinct.2.2 y first y later rfl, honest y e mem named]
      · rw [introduced_cons, mem_append, not_or] at absent
        rw [kept absent.1, unknown y absent.2]

mutual

theorem Stmt.introduced_inner : ∀ s : Stmt, Go.introduced s.inner = s.introduced
  | .step s => by simp [Stmt.inner, Stmt.introduced]
  | .block body => Stmt.introduced_allInner body
  | .ifThen _ body => Stmt.introduced_allInner body

theorem Stmt.introduced_allInner : ∀ body : List Stmt,
    Go.introduced (Stmt.allInner body) = Stmt.allIntroduced body
  | [] => rfl
  | s :: ss => by
      rw [Stmt.allInner, introduced_append, Stmt.introduced_inner s, Stmt.introduced_allInner ss]
      rfl

end

mutual

/-- The contacts of a statement by a table. -/
def Stmt.contactsBy (g : Agents) : Stmt → List Contact
  | .step s => s.contacts g
  | .block body => Stmt.allContactsBy g body
  | .ifThen condition body => condition.contacts g "" ++ Stmt.allContactsBy g body

/-- The contacts of statements by a table. -/
def Stmt.allContactsBy (g : Agents) : List Stmt → List Contact
  | [] => []
  | s :: ss => s.contactsBy g ++ Stmt.allContactsBy g ss

end

attribute [simp] Stmt.contactsBy Stmt.allContactsBy

@[simp] theorem Stmt.allContactsBy_append (g : Agents) : ∀ as bs : List Stmt,
    Stmt.allContactsBy g (as ++ bs) = Stmt.allContactsBy g as ++ Stmt.allContactsBy g bs
  | [], _ => rfl
  | a :: as, bs => by simp [Stmt.allContactsBy_append g as bs]

def stepContacts (g : Agents) (ss : List Step) : List Contact := ss.flatMap (Step.contacts g)

@[simp] theorem stepContacts_nil (g : Agents) : stepContacts g [] = [] := rfl

@[simp] theorem stepContacts_cons (g : Agents) (s : Step) (ss : List Step) :
    stepContacts g (s :: ss) = s.contacts g ++ stepContacts g ss := rfl

@[simp] theorem stepContacts_append (g : Agents) (as bs : List Step) :
    stepContacts g (as ++ bs) = stepContacts g as ++ stepContacts g bs := flatMap_append

@[simp] theorem Stmt.allContactsBy_steps (g : Agents) : ∀ ss : List Step,
    Stmt.allContactsBy g (ss.map .step) = stepContacts g ss
  | [] => rfl
  | s :: ss => by simp [Stmt.allContactsBy_steps g ss]

/-- The tables hold the same agents in the variables. -/
def SameAgents (h g : Agents) (names : List String) : Prop := ∀ y ∈ names, isAgentName y = true → h y = g y

theorem SameAgents.mono {h g : Agents} {names names' : List String} (sub : names' ⊆ names)
    (same : SameAgents h g names) : SameAgents h g names' := fun y hy => same y (sub hy)

theorem sameAgents_append {h g : Agents} {names names' : List String} :
    SameAgents h g (names ++ names') ↔ SameAgents h g names ∧ SameAgents h g names' := by
  simp only [SameAgents, forall_mem_append]

section Tables

variable {h g : Agents}

theorem Expr.agent?_congr : ∀ {e : Expr}, SameAgents h g e.names → e.agent? h = e.agent? g
  | .name y, same => by
      rw [Expr.agent?, Expr.agent?]
      split_ifs with running named
      · rfl
      · exact same y (mem_singleton_self y) named
      · rfl
  | .asserted e _, same => Expr.agent?_congr (e := e) same
  | .literal _, _ | .string _, _ | .member .., _ | .path _, _ | .select .., _ | .call .., _ | .index .., _
  | .converted .., _ | .address _, _ | .binary .., _ | .not _, _ | .slice .., _ | .empty _, _ | .new _, _ =>
    rfl

mutual

/-- The contacts of an expression depend on the agents that its names stand for. -/
theorem Expr.contacts_congr : ∀ {e : Expr} {key : String}, SameAgents h g e.names →
    e.contacts h key = e.contacts g key
  | .select e _, _, same => by
      simp only [Expr.contacts, Expr.agent?_congr (e := e) same, Expr.contacts_congr (e := e) same]
  | .call f args, _, same => by
      obtain ⟨callee, rest⟩ := sameAgents_append.mp same
      simp only [Expr.contacts, Expr.contacts_congr callee, Expr.allContacts_congr rest]
  | .asserted e _, _, same | .converted _ e, _, same | .not e, _, same => by
      simp only [Expr.contacts, Expr.contacts_congr (e := e) same]
  | .index e i, _, same => by
      obtain ⟨array, index⟩ := sameAgents_append.mp same
      simp only [Expr.contacts, Expr.contacts_congr array, Expr.contacts_congr index]
  | .binary l _ r, _, same => by
      obtain ⟨left, right⟩ := sameAgents_append.mp same
      simp only [Expr.contacts, Expr.contacts_congr left, Expr.contacts_congr right]
  | .slice _ items, _, same => by
      have each : Expr.allContacts h items = Expr.allContacts g items := Expr.allContacts_congr same
      simp only [Expr.contacts, each]
  | .name _, _, _ | .address _, _, _ | .literal _, _, _ | .string _, _, _ | .member .., _, _ | .path _, _, _
  | .empty _, _, _ | .new _, _, _ => by simp only [Expr.contacts]

theorem Expr.allContacts_congr : ∀ {es : List Expr}, SameAgents h g (Expr.allNames es) →
    Expr.allContacts h es = Expr.allContacts g es
  | [], _ => rfl
  | e :: es, same => by
      obtain ⟨first, rest⟩ := sameAgents_append.mp same
      simp only [Expr.allContacts, Expr.contacts_congr first, Expr.allContacts_congr rest]

end

theorem Step.contacts_congr {known : List String} (same : SameAgents h g known) : ∀ {s : Step},
    s.InScope known → s.contacts h = s.contacts g
  | .define _ _, scope | .eval _, scope | .ret _, scope => Expr.contacts_congr (same.mono scope)
  | .assign _ _, scope => by
      rw [Step.contacts, Step.contacts, Expr.contacts_congr (same.mono scope.1),
        Expr.contacts_congr (same.mono scope.2)]
  | .comment _, _ | .verbatim _, _ => rfl

/-- What the variables hold after a statement agrees with a table that is right about it. -/
theorem Stmt.sameAgents_agents {known : List String} (same : SameAgents h g known) (s : Stmt)
    (honest : Honest g s.inner) : SameAgents (s.agents h) g (known ++ s.opened) := by
  cases s with
  | step s =>
    cases s with
    | define z e =>
      intro y hy named
      by_cases redefined : y = z
      · subst redefined
        simp [Stmt.agents, Step.agents, honest y e (mem_singleton_self _) named]
      · have older : y ∈ known := by simpa [Stmt.opened, Step.introduced, redefined] using hy
        simpa [Stmt.agents, Step.agents, redefined] using same y older named
    | _ => simpa [Stmt.agents, Step.agents, Stmt.opened, Step.introduced] using same
  | block body => simpa [Stmt.agents, Stmt.opened] using same
  | ifThen condition body => simpa [Stmt.agents, Stmt.opened] using same

mutual

theorem Stmt.contacts_eq {known : List String} : ∀ {s : Stmt} {h : Agents}, SameAgents h g known →
    s.InScope known → Honest g s.inner → s.contacts h = s.contactsBy g
  | .step _, _, same, scope, _ => Step.contacts_congr same scope
  | .block body, _, same, scope, honest => Stmt.allContacts_eq same scope honest
  | .ifThen condition body, _, same, scope, honest => by
      simp only [Stmt.contacts, Stmt.contactsBy, Expr.contacts_congr (same.mono scope.1),
        Stmt.allContacts_eq same scope.2 honest]

/-- In a body whose variables are in scope the contacts are those by a table that is right about it. -/
theorem Stmt.allContacts_eq {known : List String} : ∀ {body : List Stmt} {h : Agents},
    SameAgents h g known → Stmt.AllInScope known body → Honest g (Stmt.allInner body) →
    Stmt.allContacts h body = Stmt.allContactsBy g body
  | [], _, _, _, _ => rfl
  | s :: ss, h, same, scope, honest => by
      obtain ⟨first, rest⟩ := honest_append.mp honest
      rw [Stmt.allContacts, Stmt.allContactsBy, Stmt.contacts_eq same scope.1 first,
        Stmt.allContacts_eq (Stmt.sameAgents_agents same s first) scope.2 rest]

end

end Tables

theorem Func.contacts_eq {f : Func} (scope : f.WellScoped) :
    ∃ g, Honest g (Stmt.allInner f.body) ∧ f.contacts = Stmt.allContactsBy g f.body := by
  obtain ⟨_, distinct, apart⟩ := nodup_append.mp scope.distinct
  rw [← Stmt.introduced_allInner] at distinct apart
  obtain ⟨g, honest, unknown⟩ := exists_honest (Stmt.allInner f.body) distinct
  have same : SameAgents (fun _ => none) g (predeclared ++ f.bound) := fun y hy _ =>
    (unknown y fun later => apart y hy y later rfl).symm
  exact ⟨g, honest, Stmt.allContacts_eq same scope.inScope honest⟩

end Go

end GoTrees
