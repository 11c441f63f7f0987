import GoTrees.Proofs.Characters
import GoTrees.Proofs.Lookups

/-!
# Lookups are checked

Before a method looks a property up in a store, it checks that the name and the id it passes belong together.
The check is a step of its own, while the lookup is often part of an expression that is evaluated later, in
the steps of a call around it, or in a write-back. `Parts` says that the lookups of an operand are checked by
the steps before them; operands are put together from such parts, and so are bodies.

A method of an agent can be named like one that reads or writes a store. The call of such a method is told
apart by its arguments: no argument of a call is the name of a property.
-/

namespace GoTrees

open Go List

variable {us : List Use} {u : Use} {known : List Step} {s : Step} {v : Variable}

/-! ### Sound lookups -/

/-- The lookup is made for a property that the uses read or write, by the method of its store and with its
name and the hash of the name, and a step before it has checked both. Or it is the call of a method of an
agent, which passes no name. -/
inductive Sound (us : List Use) (known : List Step) : Lookup → Prop
  | fetch {u : Use} {p : Property} {get set : String} (used : u ∈ us) (reads : u.Reads p)
      (store : p.store? = some (get, set)) (checked : p.check ∈ known) : Sound us known (p.lookup get [])
  | put {u : Use} {p : Property} {get set : String} {value : Expr} (used : u ∈ us) (writes : u.Writes p)
      (store : p.store? = some (get, set)) (checked : p.check ∈ known) : Sound us known (p.lookup set [value])
  | call {u : Use} {m : Method} {args : List Expr} (used : u ∈ us) (calls : u.Calls m)
      (nameless : ∀ name rest, args = .string name :: rest → name = "") :
      Sound us known ⟨memberName m.name, args⟩

/-- Every use of the second list is a part of one of the first. -/
structure Covers (us us' : List Use) : Prop where
  reads : ∀ u ∈ us', ∀ p, u.Reads p → ∃ w ∈ us, w.Reads p
  writes : ∀ u ∈ us', ∀ p, u.Writes p → ∃ w ∈ us, w.Writes p
  calls : ∀ u ∈ us', ∀ m, u.Calls m → ∃ w ∈ us, w.Calls m

theorem Covers.of_subset {us' : List Use} (sub : us' ⊆ us) : Covers us us' where
  reads u hu _ h := ⟨u, sub hu, h⟩
  writes u hu _ h := ⟨u, sub hu, h⟩
  calls u hu _ h := ⟨u, sub hu, h⟩

theorem Covers.single {w : Use} (reads : ∀ p, u.Reads p → w.Reads p) (writes : ∀ p, u.Writes p → w.Writes p)
    (calls : ∀ m, u.Calls m → w.Calls m) : Covers [w] [u] where
  reads := by simpa using reads
  writes := by simpa using writes
  calls := by simpa using calls

theorem Sound.mono {us' : List Use} {more : List Step} (covers : Covers us us') (sub : known ⊆ more)
    {l : Lookup} (h : Sound us' known l) : Sound us more l := by
  cases h with
  | fetch used reads store checked =>
    obtain ⟨w, hw, reads⟩ := covers.reads _ used _ reads
    exact .fetch hw reads store (sub checked)
  | put used writes store checked =>
    obtain ⟨w, hw, writes⟩ := covers.writes _ used _ writes
    exact .put hw writes store (sub checked)
  | call used calls nameless =>
    obtain ⟨w, hw, calls⟩ := covers.calls _ used _ calls
    exact .call hw calls nameless

/-- Every lookup in the steps is sound after those before it. -/
def Guarded (us : List Use) (known : List Step) : List Step → Prop
  | [] => True
  | s :: ss => (∀ l ∈ s.lookups, Sound us known l) ∧ Guarded us (known ++ [s]) ss

section Guarded

variable {us us' : List Use} {known more : List Step} {pre pre' post post' : List Step} {ls ls' : List Lookup}

theorem Covers.refl (us : List Use) : Covers us us := .of_subset (List.Subset.refl us)

theorem Guarded.mono (covers : Covers us us') : ∀ {ss known more : List Step}, known ⊆ more →
    Guarded us' known ss → Guarded us more ss
  | [], _, _, _, _ => trivial
  | s :: _, _, more, sub, h => by
      have longer := append_subset.mpr
        ⟨subset_append_of_subset_left [s] sub, subset_append_right more [s]⟩
      exact ⟨fun l hl => (h.1 l hl).mono covers sub, h.2.mono covers longer⟩

theorem guarded_append {as bs : List Step} :
    Guarded us known (as ++ bs) ↔ Guarded us known as ∧ Guarded us (known ++ as) bs := by
  induction as generalizing known with
  | nil => simp [Guarded]
  | cons a as ih => simp [Guarded, ih, and_assoc]

theorem guarded_singleton (h : ∀ l ∈ s.lookups, Sound us known l) : Guarded us known [s] :=
  ⟨h, trivial⟩

theorem guarded_of_nil : ∀ {ss known : List Step}, stepLookups ss = [] → Guarded us known ss
  | [], _, _ => trivial
  | s :: ss, _, h => by
      rw [stepLookups_cons, append_eq_nil_iff] at h
      exact ⟨by simp [h.1], guarded_of_nil h.2⟩

/-- Steps, the lookups after them and later steps: all lookups are sound. -/
structure Parts (us : List Use) (pre : List Step) (ls : List Lookup) (post : List Step) : Prop where
  before : Guarded us [] pre
  reach : ∀ l ∈ ls, Sound us pre l
  after : Guarded us pre post

namespace Parts

theorem quiet (h : stepLookups pre = []) : Parts us pre [] [] := ⟨guarded_of_nil h, nofun, trivial⟩

theorem widen (covers : Covers us us') (t : Parts us' pre ls post) : Parts us pre ls post where
  before := t.before.mono covers (List.Subset.refl _)
  reach l hl := (t.reach l hl).mono covers (List.Subset.refl _)
  after := t.after.mono covers (List.Subset.refl _)

theorem append (t : Parts us pre ls post) (t' : Parts us pre' ls' post') :
    Parts us (pre ++ pre') (ls ++ ls') (post ++ post') where
  before := guarded_append.mpr ⟨t.before, t'.before.mono (.refl us) (nil_subset _)⟩
  reach := by
    rw [forall_mem_append]
    exact ⟨fun l hl => (t.reach l hl).mono (.refl us) (subset_append_left _ _),
      fun l hl => (t'.reach l hl).mono (.refl us) (subset_append_right _ _)⟩
  after := by
    have first := t.after.mono (.refl us) (subset_append_left pre pre')
    have second := t'.after.mono (.refl us)
      (subset_append_of_subset_left post (subset_append_right pre pre'))
    exact guarded_append.mpr ⟨first, second⟩

theorem step (t : Parts us pre ls post) (h : s.lookups = ls) :
    Parts us (pre ++ [s]) [] post where
  before := guarded_append.mpr ⟨t.before, guarded_singleton (h ▸ t.reach)⟩
  reach := nofun
  after := t.after.mono (.refl us) (subset_append_left _ _)

/-- The later steps moved to the end of the first ones. -/
theorem settle (t : Parts us pre ls post) : Parts us (pre ++ post) ls [] where
  before := guarded_append.mpr ⟨t.before, t.after⟩
  reach l hl := (t.reach l hl).mono (.refl us) (subset_append_left _ _)
  after := trivial

end Parts

end Guarded

theorem Emission.parts_bind {e : Emission} (t : Parts us e.pre e.expr.lookups e.post)
    (name : String) : Parts us (e.bind name).1 (e.bind name).2.lookups [] := by
  rw [Emission.bind]
  split
  · next h =>
    rw [List.isEmpty_iff.mp h] at t
    exact t
  · exact (t.step (s := .define name e.expr) rfl).settle

namespace Context

variable (x : Context)

/-! ### Variables -/

theorem mem_store {p : Property} {methods : String × String} (h : methods ∈ p.store?.toList) :
    p.store? = some (methods.1, methods.2) ∧ p.check ∈ p.checks := by
  have store : p.store? = some methods := Option.mem_toList.mp h
  exact ⟨store, by simp [Property.checks, store]⟩

theorem sound_fetches (used : u ∈ us) (reads : ∀ p ∈ v.properties, u.Reads p)
    (checked : ∀ p ∈ v.properties, p.checks ⊆ known) : ∀ l ∈ v.fetches, Sound us known l := by
  intro l hl
  obtain ⟨p, hp, hl⟩ := mem_flatMap.mp hl
  obtain ⟨methods, hm, rfl⟩ := mem_map.mp hl
  obtain ⟨store, check⟩ := mem_store hm
  exact .fetch used (reads p hp) store (checked p hp check)

theorem parts_readVariable (v : Variable) (slot : String) :
    Parts [.read (.var v)] (x.readVariable v slot).value.pre (x.readVariable v slot).value.expr.lookups
      (x.readVariable v slot).value.post := by
  obtain ⟨quiet, checked, lookups⟩ := x.lookups_readVariable v slot
  rw [post_readVariable, lookups]
  have reads : ∀ p ∈ v.properties, Use.Reads (.read (.var v)) p := fun p hp => ⟨v, .refl, hp⟩
  exact ⟨guarded_of_nil quiet, sound_fetches (mem_singleton_self _) reads checked, trivial⟩

theorem sound_puts (checked : ∀ p ∈ v.properties, p.checks ⊆ known)
    (value : Expr) : ∀ l ∈ v.puts value, Sound [.store v] known l := by
  cases v with
  | const native constant => exact nofun
  | property p =>
    intro l hl
    obtain ⟨methods, hm, rfl⟩ := mem_map.mp hl
    obtain ⟨store, check⟩ := mem_store hm
    exact .put (mem_singleton_self _) rfl store (checked p (mem_singleton_self _) check)
  | element p index => exact sound_fetches (mem_singleton_self _) (fun q hq => hq) checked

/-- Storing checks the ids of what it stores in first. -/
theorem guarded_writeVariable (covers : Covers us [.store v]) {value : Expr}
    (sound : ∀ l ∈ value.lookups, Sound us known l)
    (slot : String) : Guarded us known (x.writeVariable v value slot).value := by
  cases place : v.isConst with
  | true =>
    cases v with
    | const native constant => exact trivial
    | property p => cases place
    | element p index => cases place
  | false =>
    obtain ⟨setup, s, write, quiet, checked, lookups⟩ := x.lookups_writeVariable place value slot
    have checks : ∀ p ∈ v.properties, p.checks ⊆ known ++ setup := fun p hp =>
      subset_append_of_subset_right _ (checked p hp)
    rw [write, guarded_append]
    refine ⟨guarded_of_nil quiet, guarded_singleton ?_⟩
    rw [lookups, forall_mem_append]
    exact ⟨fun l hl => (sound_puts checks value l hl).mono covers (List.Subset.refl _),
      fun l hl => (sound l hl).mono (.refl us) (subset_append_left _ _)⟩

/-! ### Calls -/

section Call

variable {c : Call} {p : Param} {i : Nat}

theorem covers_argument {o : Operand} (bound : ((p, some o), i) ∈ Call.bindings c) :
    Covers [.read (.call c.1 c.2)] [.read o] := by
  refine .single ?_ ?_ ?_
  · rintro q ⟨v, within, hq⟩
    exact ⟨v, .argument bound within, hq⟩
  · rintro q ⟨c', p', i', within, rest⟩
    exact ⟨c', p', i', .argument bound within, rest⟩
  · rintro m ⟨args, within⟩
    exact ⟨args, .argument bound within⟩

theorem covers_writeBack (bound : ((p, some (.var v)), i) ∈ Call.bindings c)
    (byRef : p.isByRef = true) (writable : isWritable v = true) :
    Covers [.read (.call c.1 c.2)] [.store v] := by
  refine .single (fun q hq => ?_) (fun q hq => ?_) nofun
  · cases v with
    | element q' index => exact ⟨_, .argument bound .refl, hq⟩
    | _ => cases hq
  · obtain rfl : v = .property q := hq
    have unlocked : q.isReadonly = false := by simpa [isWritable, Variable.property?] using writable
    exact ⟨c, p, i, .refl, bound, byRef, unlocked⟩

/-- The lookups of an argument are sound for the call that it is passed to. -/
theorem parts_argumentAt (slot : String) {b : Binding} (hb : b ∈ Call.bindings c)
    (nested : ∀ o, b.1.2 = some o → ∀ s, Parts [.read o] (x.operand o s).value.pre
      (x.operand o s).value.expr.lookups (x.operand o s).value.post) :
    Parts [.read (.call c.1 c.2)] (x.argumentAt slot b).pre (Expr.allLookups (x.argumentAt slot b).exprs)
      (x.argumentAt slot b).post := by
  obtain ⟨⟨p, o⟩, i⟩ := b
  cases o with
  | none =>
    have none := lookups_getD (lookups_literalFor (x.catalog.classify p.type) (x.goType p.type).value none)
    rw [← value_defaultLiteral] at none
    have nothing : Parts [.read (.call c.1 c.2)] [] [] [] := .quiet rfl
    simpa [argumentAt, unboundArgument, none] using nothing
  | some o =>
    have operand := (nested o rfl (argSlot slot i)).widen (covers_argument hb)
    rw [argumentAt]
    fun_cases givenArgument x p o (argSlot slot i) with
    | case1 native value =>
      have field := x.lookups_capture native value (argSlot slot i)
      rw [value_constArgument]
      split
      · exact .quiet (by simp [field])
      · have nothing : Parts [.read (.call c.1 c.2)] [] [] [] := .quiet rfl
        simpa [field] using nothing
    | case2 v =>
      rw [Context.operand, post_readVariable] at operand
      rw [Emit.value_bind, value_variableArgument]
      split
      · next byRef =>
        have held := operand.step (s := .define (argSlot slot i) _) rfl
        split
        · next writable =>
          -- the write-back has checks of its own, so it needs none of those before the call
          have covers := covers_writeBack hb byRef writable
          refine ⟨held.before, by simp, ?_⟩
          exact x.guarded_writeVariable covers (by simp) _
        · simpa using held
      · simpa using operand
    | case3 m args =>
      rw [Emit.value_bind, Emit.value_pure, callArgument_eq]
      split
      · simpa using (operand.step (s := .define (argSlot slot i) _) rfl).settle
      · simpa using Emission.parts_bind operand (argSlot slot i)

theorem parts_argumentsAt (us : List Use) (slot : String) : ∀ bs : List Binding,
    (∀ b ∈ bs, Parts us (x.argumentAt slot b).pre (Expr.allLookups (x.argumentAt slot b).exprs)
      (x.argumentAt slot b).post) →
    Parts us (x.argumentsAt slot bs).pre (Expr.allLookups (x.argumentsAt slot bs).exprs)
      (x.argumentsAt slot bs).post
  | [], _ => .quiet rfl
  | b :: bs, h => by
      have both := (h b mem_cons_self).append
        (parts_argumentsAt us slot bs fun b' hb' => h b' (mem_cons_of_mem _ hb'))
      rw [← Expr.allLookups_append] at both
      exact both

theorem lookups_callee (m : Method) (slot : String) :
    stepLookups (x.callee m slot).1 = [] ∧ (x.callee m slot).2.lookups = [] ∧
      ∃ agent, (x.callee m slot).2 = .select agent (memberName m.name) := by
  rw [callee]
  split
  · exact ⟨rfl, lookups_receiver m.className, _, rfl⟩
  · have found := x.lookups_namedAgent
    exact ⟨(found _ _ slot).1, (found _ _ slot).2, _, rfl⟩

theorem readFrom_ne_string (q : Property) (owner : Expr) (i : Option Expr) (name : String) :
    (x.readFrom q owner i).value.2 ≠ .string name := by
  rw [readFrom]
  split
  · cases i <;> exact Expr.noConfusion
  · rw [memberAccess]
    cases i <;> split <;> exact Expr.noConfusion

theorem readVariable_ne_string (place : ∀ native value, v ≠ .const native value)
    (slot name : String) : (x.readVariable v slot).value.expr ≠ .string name := by
  cases v with
  | const native value => exact absurd rfl (place native value)
  | property q => exact x.readFrom_ne_string q _ _ name
  | element q index => exact x.readFrom_ne_string q _ _ name

/-- The text that a parameter gets without an argument is empty. -/
theorem nameless_literalFor (ty : ValueType) (type : String) {name : String}
    (h : (literalFor ty type none).getD .nil = .string name) : name = "" := by
  cases ty with
  | string => exact (Expr.string.inj h).symm
  | struct native isRef => cases isRef <;> exact Expr.noConfusion h
  | _ => exact Expr.noConfusion h

/-- A bound parameter never gets a text: constants are captured in fields. -/
theorem givenArgument_ne_string (p : Param) (o : Operand) (slot name : String) :
    .string name ∉ (x.givenArgument p o slot).value.exprs := by
  fun_cases givenArgument x p o slot with
  | case1 native value =>
    rw [value_constArgument]
    split <;> simp [capture]
  | case2 v notConst =>
    have read := x.readVariable_ne_string notConst slot name
    rw [Emit.value_bind, value_variableArgument]
    split <;> simp [read.symm]
  | case3 m args =>
    have call : (x.operand (.call m args) slot).value.expr ≠ .string name := fun h =>
      Expr.noConfusion ((congrArg Emission.expr (x.value_callMethod (m, args) slot)).symm.trans h)
    rw [Emit.value_bind, Emit.value_pure, callArgument_eq, Emission.bind]
    split_ifs <;> simp [call.symm]

/-- No argument of a call is a text, but that of an unbound parameter may be the empty one. -/
theorem nameless_argument (slot : String) (b : Binding) {name : String}
    (h : x.argumentExpr slot b = .string name) : name = "" := by
  have exprs := (x.exprs_argumentAt slot b).1
  obtain ⟨⟨p, o⟩, i⟩ := b
  cases o with
  | none =>
    refine nameless_literalFor (x.catalog.classify p.type) (x.goType p.type).value ?_
    rw [← value_defaultLiteral]
    exact h
  | some o =>
    rw [h] at exprs
    have absent := x.givenArgument_ne_string p o (argSlot slot i) name
    exact absurd (exprs ▸ mem_singleton_self _) absent

/-- The lookups of a call are sound if those of its arguments are. -/
theorem parts_callMethod (slot : String) (nested : ∀ b ∈ Call.bindings c, ∀ o, b.1.2 = some o → ∀ s,
      Parts [.read o] (x.operand o s).value.pre (x.operand o s).value.expr.lookups
        (x.operand o s).value.post) :
    Parts [.read (.call c.1 c.2)] (x.callMethod c slot).value.pre (x.callMethod c slot).value.expr.lookups
      (x.callMethod c slot).value.post := by
  obtain ⟨quiet, none, agent, select⟩ := x.lookups_callee c.1 slot
  have args := x.parts_argumentsAt [.read (.call c.1 c.2)] slot (Call.bindings c) fun b hb =>
    x.parts_argumentAt slot hb (nested b hb)
  have whole := (Parts.quiet quiet).append args
  have own : ∀ l ∈ lookupOf (x.callee c.1 slot).2 (x.argumentsAt slot (Call.bindings c)).exprs,
      Sound [.read (.call c.1 c.2)] [] l := by
    rw [select, lookupOf]
    split
    · rw [forall_mem_singleton]
      refine .call (mem_singleton_self _) ⟨c.2, .refl⟩ fun name rest h => ?_
      rw [exprs_argumentsAt] at h
      obtain ⟨b, bs, _, first, _⟩ := map_eq_cons_iff.mp h
      exact x.nameless_argument slot b first
    · exact forall_mem_nil _
  rw [value_callMethod]
  refine ⟨whole.before, ?_, whole.after⟩
  rw [Expr.lookups, none, List.append_nil, forall_mem_append]
  exact ⟨fun l hl => (own l hl).mono (.refl _) (nil_subset _), whole.reach⟩

end Call

theorem parts_operand (o : Operand) : ∀ slot, Parts [.read o] (x.operand o slot).value.pre
    (x.operand o slot).value.expr.lookups (x.operand o slot).value.post := by
  induction o using Operand.nested_induction with
  | var v => exact x.parts_readVariable v
  | call m args ih =>
    intro slot
    refine x.parts_callMethod (c := (m, args)) slot ?_
    rintro ⟨⟨p, o'⟩, i⟩ hb o rfl
    exact ih o (mem_of_getElem? (Option.join_eq_some_iff.mp (Call.mem_bindings.mp hb).2))

end Context

/-! ### Bodies -/

/-- What a statement does before those after it, however it is left. -/
def Go.Stmt.steps : Stmt → List Step
  | .step s => [s]
  | .block _ | .ifThen .. => []

mutual

/-- Every lookup in the statement is sound after the known steps. -/
def StmtGuarded (us : List Use) : List Step → Stmt → Prop
  | known, .step s => ∀ l ∈ s.lookups, Sound us known l
  | known, .block body => BodyGuarded us known body
  | known, .ifThen condition body => (∀ l ∈ condition.lookups, Sound us known l) ∧ BodyGuarded us known body

/-- Every lookup in the statements is sound after the known steps and those before it. -/
def BodyGuarded (us : List Use) : List Step → List Stmt → Prop
  | _, [] => True
  | known, s :: ss => StmtGuarded us known s ∧ BodyGuarded us (known ++ s.steps) ss

end

section Bodies

variable {us us' : List Use} {known more : List Step}

theorem bodyGuarded_append {as bs : List Stmt} : BodyGuarded us known (as ++ bs) ↔
    BodyGuarded us known as ∧ BodyGuarded us (known ++ as.flatMap Stmt.steps) bs := by
  induction as generalizing known with
  | nil => simp [BodyGuarded]
  | cons a as ih => simp [BodyGuarded, ih, and_assoc]

theorem bodyGuarded_steps {ss : List Step} : BodyGuarded us known (ss.map .step) ↔ Guarded us known ss := by
  induction ss generalizing known with
  | nil => simp [BodyGuarded, Guarded]
  | cons s ss ih => simp [BodyGuarded, Guarded, StmtGuarded, Stmt.steps, ih]

mutual

theorem StmtGuarded.mono (covers : Covers us us') : ∀ {s : Stmt} {known more : List Step}, known ⊆ more →
    StmtGuarded us' known s → StmtGuarded us more s
  | .step _, _, _, sub, h => fun l hl => (h l hl).mono covers sub
  | .block _, _, _, sub, h => BodyGuarded.mono covers sub h
  | .ifThen _ _, _, _, sub, h =>
    ⟨fun l hl => (h.1 l hl).mono covers sub, BodyGuarded.mono covers sub h.2⟩

theorem BodyGuarded.mono (covers : Covers us us') : ∀ {ss : List Stmt} {known more : List Step},
    known ⊆ more → BodyGuarded us' known ss → BodyGuarded us more ss
  | [], _, _, _, _ => trivial
  | s :: _, _, more, sub, h => by
      have longer := append_subset.mpr
        ⟨subset_append_of_subset_left s.steps sub, subset_append_right more s.steps⟩
      exact ⟨h.1.mono covers sub, h.2.mono covers longer⟩

end

/-- The steps that statements do before those after them. -/
def allSteps (body : List Stmt) : List Step := body.flatMap Stmt.steps

@[simp] theorem allSteps_append (as bs : List Stmt) : allSteps (as ++ bs) = allSteps as ++ allSteps bs :=
  flatMap_append

theorem allSteps_steps : ∀ ss : List Step, allSteps (ss.map .step) = ss
  | [] => rfl
  | s :: ss => congrArg (s :: ·) (allSteps_steps ss)

/-- The lookups of the statements and of the values that they leave are sound. -/
structure Kept (us : List Use) (body : List Stmt) (es : List Expr) : Prop where
  guarded : BodyGuarded us [] body
  left : ∀ l ∈ Expr.allLookups es, Sound us (allSteps body) l

namespace Kept

variable {body more : List Stmt} {es es' used : List Expr} {e : Expr}

theorem append (k : Kept us' body es) (sub : us' ⊆ us) (guarded : BodyGuarded us (allSteps body) more)
    (left : ∀ l ∈ Expr.allLookups es',
      l ∈ Expr.allLookups es ∨ Sound us (allSteps body ++ allSteps more) l) :
    Kept us (body ++ more) es' where
  guarded := bodyGuarded_append.mpr ⟨k.guarded.mono (.of_subset sub) (nil_subset _), guarded⟩
  left := by
    intro l hl
    rw [allSteps_append]
    exact (left l hl).elim
      (fun hl => (k.left l hl).mono (.of_subset sub) (subset_append_left _ _)) id

theorem use (k : Kept us body (used ++ es)) (built : Built used e) (h : s.lookups = e.lookups)
    (left : Expr.allLookups es' = Expr.allLookups es) : Kept us (body ++ [.step s]) es' := by
  have sound : ∀ l ∈ s.lookups, Sound us (allSteps body) l := by
    rw [h]
    intro l hl
    exact k.left l (by simp [(built.lookups_iff l).mp hl])
  exact k.append (List.Subset.refl us) ⟨sound, trivial⟩ fun l hl => .inl (by simp [← left, hl])

/-- The parts of an operand that is used. -/
theorem parts {pre : List Step} {ls : List Lookup} (k : Kept us body es)
    (t : Parts [u] pre ls []) (left : ∀ l ∈ Expr.allLookups es', l ∈ Expr.allLookups es ∨ l ∈ ls) :
    Kept (us ++ [u]) (body ++ pre.map .step) es' := by
  have covers : Covers (us ++ [u]) [u] := .of_subset (subset_append_right us [u])
  refine k.append (subset_append_left us [u]) ?_ fun l hl => ?_
  · exact bodyGuarded_steps.mpr (t.before.mono covers (nil_subset _))
  · rw [allSteps_steps]
    exact (left l hl).imp id fun hl => (t.reach l hl).mono covers (subset_append_right _ _)

end Kept

/-- A body that is assembled from its operands makes no unsound lookup. -/
theorem Assembled.kept {x : Context} {body : List Stmt} {es : List Expr}
    (h : Assembled x us body es) : Kept us body es := by
  -- the checks of a value stay in front of it, however late it is used
  induction h with
  | nil => exact ⟨trivial, forall_mem_nil _⟩
  | read part o slot name ih =>
    exact ih.parts (Emission.parts_bind (x.parts_operand o slot) name) fun l hl => by
      simpa [or_comm] using hl
  | keep part c slot y ih =>
    have t := x.parts_operand (.call c.1 c.2) slot
    exact ih.parts (t.step (s := .define y _) rfl).settle fun l hl => .inl hl
  | perform part c slot ih =>
    have t := x.parts_operand (.call c.1 c.2) slot
    exact ih.parts (t.step (s := .eval _) rfl).settle fun l hl => .inl hl
  | @store us _ _ _ e part built v slot ih =>
    have covers : Covers (us ++ [.store v]) [.store v] := .of_subset (subset_append_right us _)
    have older : Covers (us ++ [.store v]) us := .of_subset (subset_append_left us _)
    refine ih.append (subset_append_left us _) ?_ fun l hl => .inl (by simp [hl])
    refine bodyGuarded_steps.mpr (x.guarded_writeVariable covers (fun l hl => ?_) slot)
    exact (ih.left l (by simp [(built.lookups_iff l).mp hl])).mono older (List.Subset.refl _)
  | @apply us _ es y part m ih =>
    have older : Covers (us ++ [.apply m]) us := .of_subset (subset_append_left us _)
    refine ⟨ih.guarded.mono older (List.Subset.refl _), ?_⟩
    rw [Expr.allLookups, forall_mem_append]
    refine ⟨?_, fun l hl => (ih.left l hl).mono older (List.Subset.refl _)⟩
    rw [functorCall, Expr.lookups, Expr.lookups, Context.lookups_receiver, lookupOf]
    split
    · simp only [Expr.allLookups, Expr.lookups, List.append_nil, forall_mem_singleton]
      exact .call (u := .apply m) (by simp) rfl fun _ _ h => by cases h
    · exact forall_mem_nil _
  | define part built y ih => exact ih.use built rfl rfl
  | assign part built y ih => exact ih.use built rfl rfl
  | ret part built ih => exact ih.use built rfl rfl
  | giveUp part message ih =>
    exact ih.append (List.Subset.refl _) ⟨forall_mem_nil _, trivial⟩ fun l => .inl
  | @ifThen us us' _ _ _ _ e part built branch ih ihBranch =>
    have older : Covers (us ++ us') us := .of_subset (subset_append_left us us')
    have newer : Covers (us ++ us') us' := .of_subset (subset_append_right us us')
    refine ih.append (subset_append_left us us') ⟨⟨fun l hl => ?_, ?_⟩, trivial⟩
      fun l hl => .inl (by simp [hl])
    · exact (ih.left l (by simp [(built.lookups_iff l).mp hl])).mono older (List.Subset.refl _)
    · exact ihBranch.guarded.mono newer (nil_subset _)

end Bodies

/-! ### Methods -/

/-- The statements look properties up in stores by their names and ids. -/
structure HashBound (us : List Use) (body : List Stmt) : Prop where
  /-- Every lookup is for a property of the store, after a check of its name and id. -/
  checked : BodyGuarded us [] body
  /-- The name that a property is looked up by is its own without the marks of arrays. -/
  named : ∀ u ∈ us, ∀ p, u.Reads p ∨ u.Writes p → Text.Stripped "[]" p.name p.basicName
  /-- Every property of a store that is read is looked up there, if no value is dropped. -/
  fetched : Placed us → ∀ u ∈ us, ∀ p, u.Reads p → ∀ get set, p.store? = some (get, set) →
    p.lookup get [] ∈ Stmt.allLookups body
  /-- Every property of a store that is written is looked up there, if no value is dropped. -/
  stored : Placed us → ∀ u ∈ us, ∀ p, u.Writes p → ∀ get set, p.store? = some (get, set) →
    ∃ value, p.lookup set [value] ∈ Stmt.allLookups body

namespace Generation

/-- Every method of the class of a node or an attachment looks the properties of stores up by their names
and ids, whatever the operands. -/
theorem methods_hashBound (x : Context) (i : Item) (className : String) (f : Func)
    (mem : .func f ∈ (declareItem { toContext := x } (i, className)).value) (method : f.receiver.isSome) :
    HashBound (i.uses x) f.body := by
  have assembled := assembled_method mem method
  refine ⟨assembled.kept.guarded, fun _ _ p _ => Text.stripped_dropTails p.name (by decide), ?_, ?_⟩
  · intro placed u hu p reads get set store
    obtain ⟨l, found | left, rfl⟩ := assembled.makes placed u hu (x.performs_reads reads store)
    · exact found
    · cases left
  · intro placed u hu p writes get set store
    obtain ⟨l, found | left, value, rfl⟩ := assembled.makes placed u hu (x.performs_writes writes store)
    · exact ⟨value, found⟩
    · cases left

/-- An assignment from a call with a local of the tree by reference, to an element of a customized array whose
index is a local. -/
def tithe : Node where
  id := 1
  kind := .assignment {
    target := some (.element { name := "Gold[]", isElement := true, isCustomized := true }
      (.property { name := "Turn", isLocal := true })),
    source := some (.call { name := "Collect", params := [{ isRef := true }] }
      [some (.var (.property { name := "Farms", isLocal := true }))]) }

theorem methods_hashBound_tithe : ∃ f : Func,
    .func f ∈ (declareItem { catalog := {} } (.node tithe, "Tithe")).value ∧ f.receiver.isSome ∧
    (Stmt.allLookups f.body).map Lookup.method = ["GetLocal", "SetLocal", "GetVariable", "GetLocal"] ∧
    Placed (Item.uses { catalog := {} } (.node tithe)) ∧
    HashBound (Item.uses { catalog := {} } (.node tithe)) f.body := by
  have mem : .func _ ∈ (declareItem { catalog := {} } (.node tithe, "Tithe")).value :=
    mem_append_right _ mem_cons_self
  have placed : Placed (Item.uses { catalog := {} } (.node tithe)) := by
    intro v hv
    simp only [Item.uses, tithe, NodeKind.uses, mem_cons, not_mem_nil, or_false, reduceCtorEq,
      false_or, Use.store.injEq] at hv
    subst hv
    rfl
  exact ⟨_, mem, rfl, by decide, placed, methods_hashBound _ _ _ _ mem rfl⟩

end Generation

end GoTrees
