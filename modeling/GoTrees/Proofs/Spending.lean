import GoTrees.Proofs.Ledgers
import GoTrees.Proofs.Owners

/-!
# Variables that methods leave unused

The body of a method is assembled from its operands, and the account of its variables from theirs: every
value is used by the statement that is made of it. So a method leaves no variable unused but those of
owners that it looks for in vain, unless it stores in a constant. Then what it has read is dropped.
-/

namespace GoTrees

open Go Slot List

variable {v : Variable} {e : Expr} {ss : List Step} {x : Context} {f : Func} {native className : String}
  {value : Value}

/-! ### Bodies -/

/-- The use looks for no owner in vain. -/
def Use.Tight (u : Use) : Prop := ∀ p, u.Reads p ∨ u.Writes p → p.Tight

theorem Operand.Within.trans {a b c : Operand} (first : Operand.Within a b) (second : Operand.Within b c) :
    Operand.Within a c := by
  induction second with
  | refl => exact first
  | argument bound _ ih => exact .argument bound ih

theorem Use.tight_read {o : Operand} : (Use.read o).Tight ↔ o.Tight := by
  constructor
  · intro h v within p hp
    exact h p (.inl ⟨v, within, hp⟩)
  · rintro h p (⟨v, within, hp⟩ | ⟨c, param, i, within, bound, _, _⟩)
    · exact h v within p hp
    · -- what is written back was passed to the call
      have passed : Operand.Within (.var (.property p)) o :=
        Operand.Within.trans (.argument bound .refl) within
      exact h _ passed p (mem_singleton_self p)

theorem Use.tight_store : (Use.store v).Tight ↔ ∀ p ∈ v.properties, p.Tight := by
  cases v with
  | const native value => simp [Use.Tight, Use.Reads, Use.Writes, Variable.properties]
  | property q => simp [Use.Tight, Use.Reads, Use.Writes, Variable.properties]
  | element q index => simp [Use.Tight, Use.Reads, Use.Writes]

theorem Use.tight_apply (m : Method) : (Use.apply m).Tight := by simp [Use.Tight, Use.Reads, Use.Writes]

/-- The variables that a value uses. -/
structure Holds (e : Expr) (ys : List String) : Prop where
  reach : ∀ y ∈ e.names, y ∈ ambient ∨ y ∈ ys
  held : ∀ y ∈ ys, y ∈ e.names

theorem holds_name (y : String) : Holds (.name y) [y] := ⟨fun _ h => .inr h, fun _ h => h⟩

theorem Holds.functorCall {m : Method} {y : String} {ys : List String} (h : Holds (.name y) ys) :
    Holds (functorCall m y) ys := by
  constructor
  · intro z hz
    simp only [GoTrees.functorCall, Expr.names, Context.names_receiver, Expr.allNames, List.append_nil] at hz
    rcases mem_append.mp hz with hz | hz
    · exact .inl (by simp_all [ambient])
    · exact h.reach z hz
  · intro z hz
    simp only [GoTrees.functorCall, Expr.names, Expr.allNames, List.append_nil]
    exact mem_append_right _ (h.held z hz)

theorem forall₂_append {α β : Type} {R : α → β → Prop} {as bs : List α} {cs : List β}
    (h : List.Forall₂ R (as ++ bs) cs) :
    ∃ cs₁ cs₂, cs = cs₁ ++ cs₂ ∧ List.Forall₂ R as cs₁ ∧ List.Forall₂ R bs cs₂ := by
  induction as generalizing cs with
  | nil => exact ⟨[], cs, rfl, .nil, h⟩
  | cons a as ih =>
    cases h with
    | @cons _ c _ _ first rest =>
      obtain ⟨cs₁, cs₂, rfl, left, right⟩ := ih rest
      exact ⟨c :: cs₁, cs₂, rfl, .cons first left, right⟩

/-- What is made of values uses their variables. -/
theorem Built.holds {used : List Expr} (built : Built used e) : ∀ {yss : List (List String)},
    List.Forall₂ Holds used yss → Holds e yss.flatten := by
  induction built with
  | value e =>
    intro yss h
    obtain ⟨ys, rfl, hy⟩ : ∃ ys, yss = [ys] ∧ Holds e ys := by
      cases h with
      | cons first rest => cases rest; exact ⟨_, rfl, first⟩
    simpa using hy
  | literal _ | string _ | status _ | running =>
    intro yss h
    cases h
    exact ⟨by simp [agentVar, ambient, Status.expr], by simp⟩
  | converted type part ih | not part ih =>
    intro yss h
    exact ⟨(ih h).reach, (ih h).held⟩
  | binary operator left right ihLeft ihRight =>
    intro yss h
    obtain ⟨rs, ls, rfl, hr, hl⟩ := forall₂_append h
    have first := ihLeft hl
    have second := ihRight hr
    constructor
    · intro y hy
      rw [flatten_append, mem_append]
      rcases mem_append.mp hy with hy | hy
      · exact (first.reach y hy).imp id .inr
      · exact (second.reach y hy).imp id .inl
    · intro y hy
      rw [flatten_append, mem_append] at hy
      exact mem_append.mpr (hy.symm.imp (first.held y) (second.held y))

/-- The statements and the values that they leave, with an account of all variables. -/
structure Settled (body : List Stmt) (es : List Expr) (inner : List String) (outer : List (List String))
    (idle : List String) : Prop where
  sorted : (Stmt.allIntroduced body).Perm (inner ++ outer.flatten ++ idle)
  uses : ∀ y ∈ Stmt.allUsed body, y ∈ ambient ∨ y ∈ inner
  spent : ∀ y ∈ inner, y ∈ Stmt.allUsed body
  held : List.Forall₂ Holds es outer
  owners : ∀ y ∈ idle, ∃ slot, y = agent slot

/-- What more statements do with the variables of the values that they use: they introduce variables of
their own, sorted in the same way, and leave values with new ones. -/
structure Continues (more : List Stmt) (es : List Expr) (used inner : List String) (outer : List (List String))
    (idle : List String) : Prop where
  sorted : (Stmt.allIntroduced more).Perm (inner ++ outer.flatten ++ idle)
  uses : ∀ y ∈ Stmt.allUsed more, y ∈ ambient ∨ y ∈ inner ∨ y ∈ used
  spent : ∀ y ∈ inner, y ∈ Stmt.allUsed more
  taken : ∀ y ∈ used, y ∈ Stmt.allUsed more
  held : List.Forall₂ Holds es outer
  owners : ∀ y ∈ idle, ∃ slot, y = agent slot

section Bodies

variable {body more : List Stmt} {es es' used : List Expr} {inner inner' idle idle' ys : List String}
  {outer outer' yss : List (List String)}

/-- Code that goes on with values uses the variables that they hold. -/
theorem Settled.continue (t : Settled body (used ++ es) inner (yss ++ outer) idle)
    (h : List.Forall₂ Holds es outer) (c : Continues more es' yss.flatten inner' outer' idle') :
    Settled (body ++ more) (es' ++ es) (inner ++ yss.flatten ++ inner') (outer' ++ outer) (idle ++ idle') where
  sorted := by
    refine perm_iff_count.mpr fun y => ?_
    have first := t.sorted.count_eq y
    have second := c.sorted.count_eq y
    simp only [Stmt.allIntroduced_append, flatten_append, count_append] at first second ⊢
    omega
  uses y hy := by
    simp only [Stmt.allUsed_append, mem_append] at hy ⊢
    rcases hy with hy | hy
    · exact (t.uses y hy).imp id (.inl ∘ .inl)
    · rcases c.uses y hy with old | own | taken
      · exact .inl old
      · exact .inr (.inr own)
      · exact .inr (.inl (.inr taken))
  spent y hy := by
    simp only [Stmt.allUsed_append, mem_append] at hy ⊢
    rcases hy with (hy | hy) | hy
    · exact .inl (t.spent y hy)
    · exact .inr (c.taken y hy)
    · exact .inr (c.spent y hy)
  held := rel_append c.held h
  owners y hy := (mem_append.mp hy).elim (t.owners y) (c.owners y)

/-- Statements that use no value. -/
theorem Settled.extend (t : Settled body es inner outer idle) (c : Continues more es' [] inner' outer' idle') :
    Settled (body ++ more) (es' ++ es) (inner ++ inner') (outer' ++ outer) (idle ++ idle') := by
  have next : Settled (body ++ more) (es' ++ es) (inner ++ [].flatten ++ inner') _ _ :=
    Settled.continue (show Settled body ([] ++ es) inner ([] ++ outer) idle from t) t.held c
  rwa [flatten_nil, List.append_nil] at next

/-- Statements that use what is made of the first values. -/
theorem Settled.spend {tight : Prop} (t : Settled body (used ++ es) inner outer idle)
    (built : Built used e) (next : ∀ ys, Holds e ys → ∃ inner' outer' idle',
      Continues more es' ys inner' outer' idle' ∧ (idle' = [] ↔ tight)) :
    ∃ inner' outer' idle', Settled (body ++ more) (es' ++ es) inner' outer' (idle ++ idle') ∧
      (idle' = [] ↔ tight) := by
  obtain ⟨yss, rest, rfl, taken, left⟩ := forall₂_append t.held
  obtain ⟨inner', outer', idle', c, h⟩ := next _ (built.holds taken)
  exact ⟨_, _, _, t.continue left c, h⟩

/-- The steps of an operand, with the value that they leave. -/
theorem Ledger.continues (t : Ledger ss [e] [] inner ys idle) :
    Continues (ss.map .step) [e] [] inner [ys] idle where
  sorted := by simpa [Stmt.allIntroduced_steps] using t.sorted
  uses y hy := by
    rw [Stmt.allUsed_steps] at hy
    exact (t.before y hy).imp id .inl
  spent y hy := by simpa using t.spent y hy
  taken := by simp
  held := .cons ⟨by simpa using t.reach, by simpa using t.held⟩ .nil
  owners := t.owners

/-- Steps that leave no value. -/
theorem Ledger.continues_nil (t : Ledger ss [] [] inner [] idle) :
    Continues (ss.map .step) [] [] inner [] idle where
  sorted := by simpa [Stmt.allIntroduced_steps] using t.sorted
  uses y hy := by
    rw [Stmt.allUsed_steps] at hy
    exact (t.before y hy).imp id .inl
  spent y hy := by simpa using t.spent y hy
  taken := by simp
  held := .nil
  owners := t.owners

theorem StoreLedger.continues (t : StoreLedger ss e inner idle) (h : Holds e ys) :
    Continues (ss.map .step) [] ys inner [] idle where
  sorted := by simpa [Stmt.allIntroduced_steps] using t.sorted
  uses y hy := by
    rw [Stmt.allUsed_steps] at hy
    rcases t.uses y hy with old | own | value
    · exact .inl old
    · exact .inr (.inl own)
    · exact (h.reach y value).imp id .inr
  spent y hy := by simpa using t.spent y hy
  taken y hy := by simpa using t.stored y (h.held y hy)
  held := .nil
  owners := t.owners

/-- A statement that uses a value. What it introduces is left as another value. -/
theorem Holds.continues {s : Stmt} (h : Holds e ys) (uses : s.used = e.names)
    (sorted : s.introduced = yss.flatten) (held : List.Forall₂ Holds es yss) :
    Continues [s] es ys [] yss [] where
  sorted := by simp [Stmt.allIntroduced, sorted]
  uses y hy := by
    rw [Stmt.allUsed, Stmt.allUsed, List.append_nil, uses] at hy
    exact (h.reach y hy).imp id .inr
  spent := by simp
  taken y hy := by
    rw [Stmt.allUsed, Stmt.allUsed, List.append_nil, uses]
    exact h.held y hy
  held := held
  owners := by simp

theorem Settled.statement {s : Stmt} (t : Settled body (used ++ es) inner outer idle)
    (built : Built used e) (uses : s.used = e.names) (sorted : s.introduced = yss.flatten)
    (held : List.Forall₂ Holds es' yss) :
    ∃ inner' outer', Settled (body ++ [s]) (es' ++ es) inner' outer' idle := by
  obtain ⟨zss, rest, rfl, taken, left⟩ := forall₂_append t.held
  have next := t.continue left ((built.holds taken).continues uses sorted held)
  simp only [List.append_nil] at next
  exact ⟨_, _, next⟩

/-- A block that leaves no value, under a condition that uses one. -/
theorem Settled.branch (t : Settled more [] inner [] idle) (h : Holds e ys) :
    Continues [.ifThen e more] [] ys inner [] idle where
  sorted := by simpa [Stmt.allIntroduced, Stmt.introduced] using t.sorted
  uses y hy := by
    simp only [Stmt.allUsed, Stmt.used, List.append_nil] at hy
    rcases mem_append.mp hy with hy | hy
    · exact (h.reach y hy).imp id .inr
    · exact (t.uses y hy).imp id .inl
  spent y hy := by
    simp only [Stmt.allUsed, Stmt.used, List.append_nil]
    exact mem_append_right _ (t.spent y hy)
  taken y hy := by
    simp only [Stmt.allUsed, Stmt.used, List.append_nil]
    exact mem_append_left _ (h.held y hy)
  held := .nil
  owners := t.owners

end Bodies

/-- A body that is assembled from its operands accounts for all variables, if no value is dropped. -/
theorem Assembled.settled {us : List Use} {body : List Stmt} {es : List Expr}
    (h : Assembled x us body es) (placed : Placed us) : ∃ inner outer idle,
      Settled body es inner outer idle ∧ (idle = [] ↔ ∀ u ∈ us, u.Tight) := by
  induction h with
  | nil => exact ⟨[], [], [], ⟨.nil, by simp, by simp, .nil, by simp⟩, by simp⟩
  | read part o slot name ih =>
    obtain ⟨inner, outer, idle, t, tight⟩ := ih placed.left
    obtain ⟨inner', ys, idle', ledger, tight', _⟩ := Emission.accounts_bind (x.accounts_operand o slot) name
    refine ⟨_, _, _, t.extend ledger.continues, ?_⟩
    simp [tight, tight', or_imp, forall_and, Use.tight_read]
  | keep part c slot y ih =>
    obtain ⟨inner, outer, idle, t, tight⟩ := ih placed.left
    have call : Accounts _ [.name y] [] _ _ := (x.accounts_operand (.call c.1 c.2) slot).hold y rfl
    obtain ⟨inner', ys, idle', ledger, tight', _⟩ := call
    refine ⟨_, _, _, t.extend ledger.continues, ?_⟩
    simp [tight, tight', or_imp, forall_and, Use.tight_read]
  | perform part c slot ih =>
    obtain ⟨inner, outer, idle, t, tight⟩ := ih placed.left
    obtain ⟨inner', ys, idle', ledger, tight', left⟩ := (x.accounts_operand (.call c.1 c.2) slot).eval
    obtain rfl : ys = [] := (left.mpr trivial).1
    refine ⟨_, _, _, t.extend ledger.continues_nil, ?_⟩
    simp [tight, tight', or_imp, forall_and, Use.tight_read]
  | @store us body used es e part built v slot ih =>
    obtain ⟨inner, outer, idle, t, tight⟩ := ih placed.left
    have place : v.isConst = false := placed v (mem_append_right us (mem_singleton_self _))
    obtain ⟨inner', outer', idle', t', tight'⟩ := t.spend built fun ys held => by
      obtain ⟨inner', idle', write, tight'⟩ := x.storeLedger_writeVariable place e slot
      exact ⟨inner', [], idle', write.continues held, tight'⟩
    refine ⟨_, _, _, t', ?_⟩
    simp [tight, tight', or_imp, forall_and, Use.tight_store]
  | @apply us body es y part m ih =>
    obtain ⟨inner, outer, idle, t, tight⟩ := ih placed.left
    refine ⟨inner, outer, idle, { t with held := ?_ }, ?_⟩
    · cases t.held with
      | cons first rest => exact .cons first.functorCall rest
    · simp [tight, or_imp, forall_and, Use.tight_apply]
  | @define _ _ _ _ e part built y ih =>
    obtain ⟨inner, outer, idle, t, tight⟩ := ih placed
    obtain ⟨inner', outer', next⟩ := t.statement (s := .step (.define y e)) built rfl rfl
      (.cons (holds_name y) .nil)
    exact ⟨inner', outer', idle, next, tight⟩
  | @assign _ _ _ _ e part built y ih =>
    obtain ⟨inner, outer, idle, t, tight⟩ := ih placed
    obtain ⟨inner', outer', next⟩ := t.statement (s := .step (.assign (.name y) e)) built rfl rfl .nil
    exact ⟨inner', outer', idle, next, tight⟩
  | @ret _ _ _ _ e part built ih =>
    obtain ⟨inner, outer, idle, t, tight⟩ := ih placed
    obtain ⟨inner', outer', next⟩ := t.statement (s := .step (.ret e)) built rfl rfl .nil
    exact ⟨inner', outer', idle, next, tight⟩
  | @giveUp _ _ es part message ih =>
    obtain ⟨inner, outer, idle, t, tight⟩ := ih placed
    have panic : Ledger [.eval (.call (.name "panic") [.string message])] [] [] [] [] [] := by
      have call : Ledger [] [.call (.name "panic") [.string message]] [] [] [] [] :=
        .nothing (by simp [ambient])
      exact call.eval
    have next := t.extend panic.continues_nil
    rw [List.append_nil, List.append_nil] at next
    exact ⟨inner, outer, idle, next, tight⟩
  | @ifThen us us' body block used es e part built branch ih ihBranch =>
    obtain ⟨inner, outer, idle, t, tight⟩ := ih placed.left
    obtain ⟨inner', outer', idle', t', tight'⟩ := ihBranch placed.right
    obtain rfl : outer' = [] := forall₂_nil_left_iff.mp t'.held
    obtain ⟨_, _, _, next, nested⟩ := t.spend built fun ys held => ⟨_, _, _, t'.branch held, tight'⟩
    refine ⟨_, _, _, next, ?_⟩
    simp only [append_eq_nil_iff, tight, nested, mem_append, or_imp, forall_and]

theorem agent_not_mem_ambient (slot : String) : agent slot ∉ ambient := by
  intro h
  simp only [ambient, mem_cons, not_mem_nil, or_false] at h
  rcases h with h | h | h <;> simpa [agent, String.toList_append] using congrArg String.toList h

/-- If a body uses all variables but some, then it is spent exactly if there are none of these. -/
theorem Go.Func.WellScoped.allSpent_iff_nil (scope : f.WellScoped) {inner waste : List String}
    (sorted : (Stmt.allIntroduced f.body).Perm (inner ++ waste))
    (uses : ∀ y ∈ Stmt.allUsed f.body, y ∈ ambient ∨ y ∈ inner)
    (spent : ∀ y ∈ inner, y ∈ Stmt.allUsed f.body) (new : ∀ y ∈ waste, y ∉ ambient) :
    Stmt.AllSpent f.body ↔ waste = [] := by
  have distinct := sorted.nodup_iff.mp (nodup_append.mp scope.distinct).2.1
  rw [scope.allSpent_iff]
  constructor
  · intro all
    refine eq_nil_iff_forall_not_mem.mpr fun y hy => ?_
    rcases uses y (all (sorted.mem_iff.mpr (mem_append_right inner hy))) with old | own
    · exact new y hy old
    · exact (nodup_append.mp distinct).2.2 y own y hy rfl
  · rintro rfl y hy
    exact spent y (by simpa using sorted.mem_iff.mp hy)

/-! ### Values that are dropped -/

/-- The steps that read operands, each at a slot. -/
def Context.gathered (x : Context) (os : List (Operand × String)) : List Step :=
  os.flatMap fun o => ((x.operand o.1 o.2).value.bind o.2).1

theorem Context.accounts_gathered (x : Context) : ∀ os : List (Operand × String), ∃ es,
    Accounts (x.gathered os) es [] (∀ o ∈ os, o.1.Tight) (∀ o ∈ os, o.1.Direct)
  | [] => ⟨[], (Accounts.nothing (nil_subset _)).congr rfl (by simp) (by simp)⟩
  | o :: os => by
      obtain ⟨es, rest⟩ := accounts_gathered x os
      have first := Emission.accounts_bind (x.accounts_operand o.1 o.2) o.2
      exact ⟨_, (first.append rest).congr rfl (by rw [forall_mem_cons]) (by rw [forall_mem_cons])⟩

/-- The body reads operands and stores what is made of them in a constant, that is nowhere. An attachment
answers that it has succeeded. -/
inductive Drops (x : Context) : List Use → List Stmt → Prop
  | node (os : List (Operand × String)) (native : String) (value : Value) :
      Drops x (os.map (fun o => .read o.1) ++ [.store (.const native value)]) ((x.gathered os).map .step)
  | attachment (os : List (Operand × String)) (native : String) (value : Value) :
      Drops x (os.map (fun o => .read o.1) ++ [.store (.const native value)])
        ([.step (.define "result" Status.success.expr)] ++ (x.gathered os).map .step ++
          [.step (.ret (.name "result"))])

theorem Drops.uses {os : List (Operand × String)} :
    ((∀ u ∈ os.map (fun o => Use.read o.1) ++ [.store (.const native value)], u.Tight) ↔ ∀ o ∈ os, o.1.Tight) ∧
    ((∀ o, Use.read o ∈ os.map (fun o => Use.read o.1) ++ [.store (.const native value)] → o.Direct) ↔
      ∀ o ∈ os, o.1.Direct) := by
  constructor
  · rw [forall_mem_append, forall_mem_singleton, forall_mem_map]
    simp [Use.tight_read, Use.tight_store, Variable.properties]
  · simp

/-- Code that drops its values spends all variables exactly if its uses are tight and direct. -/
theorem Drops.allSpent_iff {us : List Use} (drops : Drops x us f.body)
    (scope : f.WellScoped) (bound : f.bound = ["n", "agent"]) :
    Stmt.AllSpent f.body ↔ (∀ u ∈ us, u.Tight) ∧ ∀ o, .read o ∈ us → o.Direct := by
  have new : ∀ y ∈ Stmt.allIntroduced f.body, y ∉ ambient := by
    intro y hy old
    have known : y ∈ predeclared ++ f.bound := by
      rw [bound]
      exact old
    exact (nodup_append.mp scope.distinct).2.2 y known y hy rfl
  generalize shape : f.body = body at drops
  cases drops with
  | node os native value =>
    obtain ⟨es, inner, outer, idle, ledger, tight, direct⟩ := x.accounts_gathered os
    have sorted : (Stmt.allIntroduced f.body).Perm (inner ++ (outer ++ idle)) := by
      rw [shape, Stmt.allIntroduced_steps]
      simpa using ledger.sorted
    have all := scope.allSpent_iff_nil sorted (by simpa [shape] using ledger.before)
      (by simpa [shape] using ledger.spent) fun y hy => new y (sorted.mem_iff.mpr (mem_append_right inner hy))
    rw [← shape, all, append_eq_nil_iff, Drops.uses.1, Drops.uses.2, ← tight, ← direct]
    simp [and_comm]
  | attachment os native value =>
    obtain ⟨es, inner, outer, idle, ledger, tight, direct⟩ := x.accounts_gathered os
    have introduced : Stmt.allIntroduced f.body = "result" :: introduced (x.gathered os) := by
      simp [shape, Stmt.allIntroduced_append, Stmt.allIntroduced_steps, Stmt.allIntroduced, Stmt.introduced,
        Step.introduced]
    have used : Stmt.allUsed f.body = stepUsed (x.gathered os) ++ ["result"] := by
      simp [shape, Step.used, Status.expr]
    have sorted : (Stmt.allIntroduced f.body).Perm ("result" :: inner ++ (outer ++ idle)) := by
      rw [introduced]
      simpa using ledger.sorted
    have all := scope.allSpent_iff_nil sorted
      (fun y hy => by
        rw [used, mem_append, mem_singleton] at hy
        rw [mem_cons]
        exact hy.elim (fun h => (ledger.before y h).imp id .inr) fun h => .inr (.inl h))
      (fun y hy => by
        rw [used, mem_append, mem_singleton]
        exact (mem_cons.mp hy).symm.imp (fun h => by simpa using ledger.spent y h) id)
      fun y hy => new y (sorted.mem_iff.mpr (mem_append_right _ hy))
    rw [← shape, all, append_eq_nil_iff, Drops.uses.1, Drops.uses.2, ← tight, ← direct]
    simp [and_comm]

theorem Action.store_not_mem (x : Context) (a : Action) (v : Variable) : .store v ∉ a.uses x := by
  rw [Action.uses]
  split
  · simp
  · rw [Action.functorUses]
    repeat' split
    all_goals simp

theorem NodeKind.uses_store {k : NodeKind} : .store v ∈ k.uses x →
    (∃ source casting, k = .assignment { target := some v, source := some source, casting }) ∨
      ∃ first operator second,
        k = .compute { target := some v, first := some first, operator, second := some second } := by
  fun_cases NodeKind.uses x k <;>
    first | exact fun h => absurd h (Action.store_not_mem x _ v) | simp +contextual

theorem AttachAction.uses_store {a : AttachAction} : .store v ∈ a.uses →
    (∃ second, a.classify = .assign ∧ a.target = some (.var v) ∧ a.second = some second) ∨
      ∃ operator first second, a.classify = .compute operator ∧ a.target = some (.var v) ∧
        a.first = some first ∧ a.second = some second := by
  fun_cases AttachAction.uses a <;> simp_all

namespace Generation

theorem bound_of_mem_methodDecls {name : String} {result : Option String} {body : List Stmt}
    (mem : .func f ∈ methodDecls className name result body) :
    f.bound = ["n", "agent"] ∧ f.body = body := by
  obtain rfl := eq_of_mem_methodDecls mem
  exact ⟨rfl, rfl⟩

/-- A node that stores in a constant drops what it has read. -/
theorem drops_node {n : Node} (mem : .func f ∈ ((Item.node n).methods x className).value)
    (stored : .store (.const native value) ∈ n.kind.uses x) :
    f.bound = ["n", "agent"] ∧ Drops x (n.kind.uses x) f.body := by
  rcases NodeKind.uses_store stored with ⟨source, casting, kind⟩ | ⟨first, operator, second, kind⟩
  · have recipe : Registry.builtin.node n.tag = .assignment := by
      rw [Node.tag, kind]
      rfl
    simp only [Item.methods, recipe, NodeRecipe.assignment, kind, Emit.value_bind, Emit.value_pure] at mem
    obtain ⟨bound, body⟩ := bound_of_mem_methodDecls mem
    have shape : f.body = (x.gathered [(source, "opr")]).map .step := by
      rw [body]
      cases casting <;> simp [NodeRecipe.assignmentBody, Context.gathered, Context.writeVariable]
    rw [shape, kind]
    exact ⟨bound, .node [(source, "opr")] native value⟩
  · have recipe : Registry.builtin.node n.tag = .compute := by
      rw [Node.tag, kind]
      rfl
    simp only [Item.methods, recipe, NodeRecipe.compute, kind, Emit.value_bind, Emit.value_pure] at mem
    obtain ⟨bound, body⟩ := bound_of_mem_methodDecls mem
    have shape : f.body = (x.gathered [(first, "opr1"), (second, "opr2")]).map .step := by
      rw [body]
      simp [NodeRecipe.computeBody, Context.gathered, Context.writeVariable]
    rw [shape, kind]
    exact ⟨bound, .node [(first, "opr1"), (second, "opr2")] native value⟩

/-- An attachment that stores in a constant drops what it has read. -/
theorem drops_attachment {a : Attachment} (mem : .func f ∈ ((Item.attachment a).methods x className).value)
    (stored : .store (.const native value) ∈ Item.uses x (.attachment a)) :
    f.bound = ["n", "agent"] ∧ Drops x (Item.uses x (.attachment a)) f.body := by
  rw [Item.uses] at stored ⊢
  cases has : a.kind.action? with
  | none =>
    rw [has] at stored
    cases stored
  | some action =>
    rw [has] at stored
    simp only [Item.methods_of_action has, AttachmentRecipe.updateMethod, Emit.value_bind,
      Emit.value_pure] at mem
    obtain ⟨bound, body⟩ := bound_of_mem_methodDecls mem
    rw [body]
    refine ⟨bound, ?_⟩
    rcases AttachAction.uses_store stored with
      ⟨second, meaning, target, right⟩ | ⟨operator, first, second, meaning, target, left, right⟩
    · have shape : (AttachmentRecipe.actionBody x action).value =
          (x.gathered [(second, "opr2")]).map .step := by
        simp [AttachmentRecipe.actionBody, meaning, target, right, AttachmentRecipe.assignBody,
          Context.gathered, Context.writeVariable]
      have uses : AttachAction.uses action = [.read second, .store (.const native value)] := by
        simp [AttachAction.uses, meaning, target, right]
      rw [shape, Option.elim_some, uses]
      exact .attachment [(second, "opr2")] native value
    · have shape : (AttachmentRecipe.actionBody x action).value =
          (x.gathered [(first, "opr1"), (second, "opr2")]).map .step := by
        simp [AttachmentRecipe.actionBody, meaning, target, left, right, AttachmentRecipe.computeBody,
          Context.gathered, Context.writeVariable]
      have uses : AttachAction.uses action = [.read first, .read second, .store (.const native value)] := by
        simp [AttachAction.uses, meaning, target, left, right]
      rw [shape, Option.elim_some, uses]
      exact .attachment [(first, "opr1"), (second, "opr2")] native value

/-- A method whose variable is a constant drops what it is to store. -/
theorem drops_method {i : Item} (mem : .func f ∈ (declareItem { toContext := x } (i, className)).value)
    (method : f.receiver.isSome) (unplaced : ¬ Placed (i.uses x)) :
    f.bound = ["n", "agent"] ∧ Drops x (i.uses x) f.body := by
  simp only [Placed, not_forall, Bool.not_eq_false] at unplaced
  obtain ⟨v, stored, const⟩ := unplaced
  cases v with
  | property p => cases const
  | element p index => cases const
  | const native value =>
    cases i with
    | node n => exact drops_node (mem_methods mem method) stored
    | attachment a => exact drops_attachment (mem_methods mem method) stored

/-- Every variable that a method of a node or an attachment introduces is used later, whatever the operands and
however deep they are nested, with two exceptions. The owner of a static property, which is reached through
its class, is looked up in vain if it is not the running agent. And what is to be stored in a constant is
dropped, with the variables that its operands need. -/
theorem methods_spent_iff (x : Context) (i : Item) (className : String) (f : Func)
    (mem : .func f ∈ (declareItem { toContext := x } (i, className)).value) (method : f.receiver.isSome) :
    Stmt.AllSpent f.body ↔
      (∀ u ∈ i.uses x, u.Tight) ∧ (¬ Placed (i.uses x) → ∀ o, .read o ∈ i.uses x → o.Direct) := by
  have scope := wellScoped_method mem method
  by_cases placed : Placed (i.uses x)
  · obtain ⟨inner, outer, idle, t, tight⟩ := (assembled_method mem method).settled placed
    obtain rfl : outer = [] := forall₂_nil_left_iff.mp t.held
    have sorted : (Stmt.allIntroduced f.body).Perm (inner ++ idle) := by simpa using t.sorted
    have owned : ∀ y ∈ idle, y ∉ ambient := by
      intro y hy
      obtain ⟨slot, rfl⟩ := t.owners y hy
      exact agent_not_mem_ambient slot
    rw [scope.allSpent_iff_nil sorted t.uses t.spent owned, tight]
    simp [placed]
  · obtain ⟨bound, drops⟩ := drops_method mem method placed
    simp only [drops.allSpent_iff scope bound, placed, not_false_eq_true, true_imp_iff]

/-- An attachment that adds what a harvest yields to what is stored. The harvest is done by a member of the
running agent, which changes the fields that it gets, and what is stored is an element of an array that the
farm has, at an index that it keeps itself. -/
def harvest : Attachment where
  id := 1
  kind := .effector .both {
    target := some (.var (.element
      { name := "stores", className := "Farm", owner := .named "farm", isElement := true }
      (.property { name := "year", className := "Farm", owner := .named "farm" }))),
    operator := .arithmetic .add,
    first := some (.call
      { name := "reap", className := "Farmer", owner := .named "farmer", params := [{ isRef := true }] }
      [some (.var (.property { name := "fields", className := "Duke", owner := .named "duke" }))]),
    second := some (.var (.property { name := "total", className := "Farm", isStatic := true })) }

/-- A world with a farm that is known by name. -/
def village : Context := { catalog := { instances := ["farm"] }, agentType := "Hero" }

theorem methods_spent_iff_harvest : ∃ f : Func,
    .func f ∈ (declareItem { toContext := village } (.attachment harvest, "Harvest")).value ∧
    f.receiver.isSome ∧
    Stmt.allIntroduced f.body = ["result", "pAgent_opr1", "pAgent_opr1P0", "opr1P0", "opr1",
      "pAgent_opr1P0Out",
      "pAgent_opl", "pAgent_oplIndex"] ∧ Stmt.AllSpent f.body := by
  have mem : .func _ ∈ (declareItem { toContext := village } (.attachment harvest, "Harvest")).value :=
    mem_append_right _ mem_cons_self
  have spent := methods_spent_iff village (.attachment harvest) "Harvest" _ mem rfl
  refine ⟨_, mem, rfl, by decide +kernel, spent.mpr ⟨?_, fun unplaced => absurd ?_ unplaced⟩⟩
  · simp [Item.uses, harvest, AttachmentKind.action?, AttachAction.uses, AttachAction.classify, Use.tight_read,
      Use.tight_store, Operand.tight_call, Operand.tight_var, Variable.properties, Property.Tight,
      Property.viaOwner, Call.bindings, bindings]
  · simp [Placed, Item.uses, harvest, AttachmentKind.action?, AttachAction.uses, AttachAction.classify,
      Variable.isConst]

/-- A condition on a total that all farms share. -/
def census : Node where
  id := 1
  kind := .condition {
    left := some
      (.var (.property { name := "total", className := "Farm", owner := .named "farm", isStatic := true })),
    operator := .relation .greater,
    right := some (.var (.const "int" (.int 0))) }

/-- The farm is looked up, and then the class is asked for the total. -/
theorem static_owner_unused : ∃ f : Func,
    .func f ∈ (declareItem { toContext := village } (.node census, "Census")).value ∧ f.receiver.isSome ∧
    Stmt.allIntroduced f.body = ["pAgent_opl", "opl", "opr"] ∧ Stmt.allUsed f.body = ["agent", "opl", "opr"] ∧
    ¬ Stmt.AllSpent f.body := by
  have mem : .func _ ∈ (declareItem { toContext := village } (.node census, "Census")).value :=
    mem_append_right _ mem_cons_self
  refine ⟨_, mem, rfl, by decide +kernel, by decide +kernel, fun spent => ?_⟩
  have later := spent.1 "pAgent_opl" (by decide +kernel)
  exact absurd later (by decide +kernel)

end Generation

end GoTrees
