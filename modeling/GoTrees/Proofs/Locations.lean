import GoTrees.Proofs.Memory

/-!
# Where variables are

A variable of a tree stands for a place in a store: a property for a field or an entry of its owner or a
variable of a package, an element for an item of the array that its property holds, at the value of its index.
Which place that is depends on the store, through the places that are consulted to find it:

    a            the owner of a, if it is held by a field
    a[i]         besides, the array a itself, the index i, and what i is found through

The code that reads a variable gives the value at its place, and the code that writes it changes that place
and no other.
-/

namespace GoTrees

open Go Slot List

variable {e : Expr} {m : Memory} {s : Store} {v : Variable} {l : Place} {u o : Val} {p : Property} {y : String}

def Go.Expr.constantIn (s : Store) : Expr → Option Val
  | .literal t => some (.literal t)
  | .string t => some (.string t)
  | .member package item => some (.literal (package ++ "." ++ item))
  | .path t => s (.global t)
  | _ => none

theorem Go.Expr.valueIn_of_constantIn {w : World} {b : Bool} {v : Val}
    (h : e.constantIn m.store = some v) : e.valueIn w b m = some (v, m) := by
  cases e with
  | literal t => cases h; rfl
  | string t => cases h; rfl
  | member package item => cases h; rfl
  | path t => simp only [constantIn] at h; simp [valueIn, h]
  | _ => cases h

namespace Context

variable (x : Context) (w : World)

/-! ### Places of variables -/

/-- The agent that an owner stands for. -/
def ownerValue? (s : Store) : Owner → Option Val
  | .running => some (.object w.agent)
  | .named agent =>
    if x.catalog.isInstance agent then w.parent w.agent agent else s (.field w.agent (memberName agent))

def base? (s : Store) (p : Property) : Option Place :=
  (x.ownerValue? w s p.owner).bind fun o =>
    if p.isLateBound then o.object?.map fun i => .entry i p.isLocal p.basicName
    else if p.isStatic then some (.global ((classPath p.className).value ++ memberName p.basicName))
    else o.object?.map fun i => .field i (memberName p.basicName)

/-- The expression for a constant that is not captured in a field. -/
def constantExpr? (native : String) : Value → Option Expr
  | .array [] => some .nil
  | .array (_ :: _) | .struct _ => none
  | value => some ((x.scalar native value).value.getD .nil)

def valueOf? (s : Store) : Variable → Option Val
  | .const native value => (x.constantExpr? native value).bind (Expr.constantIn s)
  | .property p => (x.base? w s p).bind s
  | .element p index => ((x.base? w s p).bind s).bind fun a => a.object?.bind fun a =>
    (valueOf? s index).bind fun i => s (.item a i)

def place? (s : Store) : Variable → Option Place
  | .const .. => none
  | .property p => x.base? w s p
  | .element p index => ((x.base? w s p).bind s).bind fun a => a.object?.bind fun a =>
    (x.valueOf? w s index).map fun i => .item a i

theorem valueOf?_of_place? (h : x.place? w s v = some l) :
    x.valueOf? w s v = s l := by
  cases v with
  | const native value => cases h
  | property p => simp only [place?] at h; simp [valueOf?, h]
  | element p index =>
    obtain ⟨a, ha, h⟩ := Option.bind_eq_some_iff.mp h
    obtain ⟨i, hi, h⟩ := Option.bind_eq_some_iff.mp h
    obtain ⟨j, hj, rfl⟩ := Option.map_eq_some_iff.mp h
    simp [valueOf?, ha, hi, hj]

theorem place?_of_valueOf? (h : x.valueOf? w s v = some u)
    (place : v.isConst = false) : ∃ l, x.place? w s v = some l ∧ s l = some u := by
  cases v with
  | const native value => cases place
  | property p => exact Option.bind_eq_some_iff.mp h
  | element p index =>
    obtain ⟨a, ha, h⟩ := Option.bind_eq_some_iff.mp h
    obtain ⟨i, hi, h⟩ := Option.bind_eq_some_iff.mp h
    obtain ⟨j, hj, h⟩ := Option.bind_eq_some_iff.mp h
    exact ⟨.item i j, by simp [place?, ha, hi, hj], h⟩

/-! ### Places that are consulted -/

/-- The places that decide on the owner of a property. A variable of a package has no owner. -/
def ownerPlaces (p : Property) : List Place :=
  match p.owner with
  | .running => []
  | .named agent =>
    if x.catalog.isInstance agent || (p.isStatic && !p.isLateBound) then []
    else [.field w.agent (memberName agent)]

def consulted (s : Store) : Variable → List Place
  | .const native value =>
    match x.constantExpr? native value with
    | some (.path t) => [.global t]
    | _ => []
  | .property p => x.ownerPlaces w p
  | .element p index => x.ownerPlaces w p ++ (x.base? w s p).toList ++ consulted s index
    ++ (x.place? w s index).toList

variable {x w} {s s' : Store}

theorem isSome_ownerValue? (held : ∀ q, (s q).isSome → (s' q).isSome) {owner : Owner}
    (found : x.ownerValue? w s owner = some o) : (x.ownerValue? w s' owner).isSome := by
  cases owner with
  | running => rfl
  | named agent =>
    simp only [ownerValue?] at found ⊢
    split
    · next inst => rw [if_pos inst] at found; simp [found]
    · next inst => rw [if_neg inst] at found; exact held _ (by simp [found])

/-- The owner of a field or an entry is the same while the place that decides on it is. -/
theorem ownerValue?_stable (found : x.ownerValue? w s p.owner = some o)
    (owned : (p.isStatic && !p.isLateBound) = false) (agree : ∀ q ∈ x.ownerPlaces w p, s' q = s q) :
    x.ownerValue? w s' p.owner = some o := by
  cases owner : p.owner with
  | running => rwa [owner] at found
  | named agent =>
    rw [owner] at found
    simp only [ownerValue?] at found ⊢
    split
    · next inst => rwa [if_pos inst] at found
    · next inst =>
      rw [if_neg inst] at found
      rw [← found]
      exact agree _ (by simp [ownerPlaces, owner, inst, owned])

theorem base?_stable (held : ∀ q, (s q).isSome → (s' q).isSome) (found : x.base? w s p = some l)
    (agree : ∀ q ∈ x.ownerPlaces w p, s' q = s q) : x.base? w s' p = some l := by
  obtain ⟨o, ho, h⟩ := Option.bind_eq_some_iff.mp found
  cases owned : p.isStatic && !p.isLateBound with
  | true =>
    -- the owner is looked for, but which one it is does not matter
    obtain ⟨global, early⟩ : p.isStatic = true ∧ p.isLateBound = false := by simpa using owned
    obtain ⟨o', ho'⟩ := Option.isSome_iff_exists.mp (isSome_ownerValue? held ho)
    simpa [base?, ho', global, early] using h
  | false => simpa [base?, ownerValue?_stable ho owned agree] using h

/-- A variable keeps its value as long as what is consulted for it stays. -/
theorem valueOf?_stable (found : x.valueOf? w s v = some u)
    (agree : ∀ q ∈ x.consulted w s v ++ (x.place? w s v).toList, s' q = s q)
    (stays : ∀ l, x.place? w s v = some l → x.place? w s' v = some l) : x.valueOf? w s' v = some u := by
  have moved (place : v.isConst = false) : x.valueOf? w s' v = some u := by
    obtain ⟨l, place, value⟩ := x.place?_of_valueOf? w found place
    rw [x.valueOf?_of_place? w (stays l place), ← value]
    exact agree l (by simp [place])
  cases v with
  | const native value =>
    obtain ⟨e, he, h⟩ := Option.bind_eq_some_iff.mp found
    rw [valueOf?, he, Option.bind_some]
    cases e with
    | path t =>
      have same : s' (.global t) = s (.global t) := agree _ (by simp [consulted, he])
      rw [← h]
      exact same
    | _ => exact h
  | property p => exact moved rfl
  | element p index => exact moved rfl

theorem place?_stable (held : ∀ q, (s q).isSome → (s' q).isSome) (found : x.place? w s v = some l)
    (agree : ∀ q ∈ x.consulted w s v, s' q = s q) : x.place? w s' v = some l := by
  induction v generalizing l with
  | const native value => cases found
  | property p => exact base?_stable held found agree
  | element p index ih =>
    simp only [consulted, forall_mem_append] at agree
    obtain ⟨⟨⟨owner, array⟩, places⟩, value⟩ := agree
    obtain ⟨a, ha, h⟩ := Option.bind_eq_some_iff.mp found
    obtain ⟨b, hb, ha⟩ := Option.bind_eq_some_iff.mp ha
    obtain ⟨i, hi, h⟩ := Option.bind_eq_some_iff.mp h
    obtain ⟨j, hj, rfl⟩ := Option.map_eq_some_iff.mp h
    have same : s' b = some a := (array b (by simp [hb])).trans ha
    have index := valueOf?_stable hj (forall_mem_append.mpr ⟨places, value⟩) fun l hl => ih hl places
    simp [place?, base?_stable held hb owner, same, hi, index]

/-! ### Code that finds a variable -/

theorem agent_ne_parameter (slot : String) : agent slot ≠ "agent" ∧ agent slot ≠ "n" := by
  constructor <;> intro h <;> simpa [agent] using congrArg (·.toList.head?) h

theorem look_of_ne (h : y ≠ "agent" ∧ y ≠ "n") : m.look w y = m.vars y := by
  rw [Memory.look, if_neg h.1, if_neg h.2]

theorem valueIn_receiver (className : String) (b : Bool) (m : Memory) :
    (receiver className).value.valueIn w b m = some (.object w.agent, m) := by
  rw [receiver, assertedAgent]
  split <;> rfl

theorem valueIn_assertedAgent (h : y ≠ "agent" ∧ y ≠ "n") (held : m.vars y = some o)
    (className : String) (b : Bool) :
    (assertedAgent (.name y) className).value.valueIn w b m = some (o, m) := by
  have value (b : Bool) : (Expr.name y).valueIn w b m = some (o, m) := by
    rw [Expr.valueIn, look_of_ne h, held]
    rfl
  rw [assertedAgent]
  split
  · exact value b
  · exact value true

/-- The steps that find an owner bind it to one variable at most, and the expression then has it as its
value. -/
theorem performs_ownerOf (found : x.ownerValue? w m.store p.owner = some o)
    (slot : String) : ∃ m', performAll w (x.ownerOf p slot).value.1 m = some m' ∧ m'.store = m.store ∧
      (∀ y ≠ agent slot, m'.vars y = m.vars y) ∧
      ∀ m'', m''.vars (agent slot) = m'.vars (agent slot) →
        (x.ownerOf p slot).value.2.valueIn w false m'' = some (o, m'') := by
  have own := agent_ne_parameter slot
  rw [ownerOf]
  cases owner : p.owner with
  | running =>
    rw [owner] at found
    cases found
    exact ⟨m, rfl, rfl, fun _ _ => rfl, fun m'' _ => valueIn_receiver _ false m''⟩
  | named name =>
    rw [owner] at found
    -- the agent is bound to its variable, and stays there while the variable does
    have bound {e : Expr} (he : e.valueIn w false m = some (o, m)) :
        performAll w [.define (agent slot) e] m = some (m.bind (agent slot) o) := by
      simp [performAll, Step.perform, own, he]
    refine ⟨m.bind (agent slot) o, ?_, rfl, fun y hy => m.vars_bind_of_ne hy o, fun m'' same => ?_⟩
    · simp only [namedAgent]
      simp only [ownerValue?] at found
      split
      · next inst =>
        rw [if_pos inst] at found
        refine bound ?_
        simp [Expr.valueIn, Expr.valuesIn, agentVar, Memory.look, World.runtime, found]
      · next inst =>
        rw [if_neg inst] at found
        refine bound ?_
        simp [Expr.valueIn, valueIn_receiver, Val.object?, found]
    · have here : m''.vars (agent slot) = some o := same.trans (m.vars_bind_self _ o)
      simp only [namedAgent]
      split
      · exact valueIn_assertedAgent own here _ false
      · simp only [Emit.value_bind, Emit.value_pure]
        rw [Expr.valueIn]
        exact (look_of_ne own).trans here ▸ rfl

theorem performs_checkId (p : Property) (m : Memory) : (checkId p).value.perform w m = some m := by
  simp [checkId, Step.perform, Expr.effectIn, Expr.valueIn, Expr.valuesIn, World.runtime, lookupArgs,
    Property.variableId]

theorem lookup?_getter (p : Property) : lookup? (getter p) (lookupArgs p) = some (p.isLocal, p.basicName) := by
  rw [getter]
  split <;> simp [lookup?, lookupArgs, *]

theorem setting?_setter (p : Property) (value : Expr) :
    setting? (setter p) (lookupArgs p ++ [value]) = some (p.isLocal, p.basicName, value) := by
  rw [setter]
  split <;> simp [setting?, lookupArgs, *]

variable {p : Property} {owner : Expr} {m : Memory} {o : Val} {l : Place}

theorem valueIn_stored (late : p.isLateBound = true) (found : x.ownerValue? w m.store p.owner = some o)
    (base : x.base? w m.store p = some l) (value : owner.valueIn w false m = some (o, m)) (type : String) :
    (stored p owner type).valueIn w false m = (m.store l).map fun v => (v, m) := by
  simp only [base?, found, late, if_true, Option.bind_some] at base
  obtain ⟨i, hi, rfl⟩ := Option.map_eq_some_iff.mp base
  simp [stored, Expr.valueIn, value, lookup?_getter, hi]

/-- Any other property is a place that can be read and assigned to. -/
theorem placeIn_memberAccess (early : p.isLateBound = false) (found : x.ownerValue? w m.store p.owner = some o)
    (base : x.base? w m.store p = some l) (value : owner.valueIn w false m = some (o, m)) :
    (memberAccess p owner).value.placeIn w m = some (l, m) ∧
      (memberAccess p owner).value.valueIn w false m = (m.store l).map fun v => (v, m) := by
  rw [memberAccess]
  by_cases global : p.isStatic = true
  · simp only [base?, found, early, global, if_true, Option.bind_some] at base
    cases base
    simp [global, Expr.placeIn, Expr.valueIn]
  · simp only [base?, found, early, global, Option.bind_some] at base
    obtain ⟨i, hi, rfl⟩ := Option.map_eq_some_iff.mp base
    simp [global, Expr.placeIn, Expr.valueIn, value, hi]

theorem performs_readFrom (found : x.ownerValue? w m.store p.owner = some o)
    (base : x.base? w m.store p = some l) (value : owner.valueIn w false m = some (o, m))
    (held : m.store l = some u) : performAll w (x.readFrom p owner none).value.1 m = some m ∧
      (x.readFrom p owner none).value.2.valueIn w false m = some (u, m) := by
  rw [readFrom]
  split
  · next late =>
    have read := valueIn_stored late found base value
      ((if p.isElement then "[]" else "") ++ (x.goType p.type).value)
    rw [held] at read
    exact ⟨by simp [performAll, performs_checkId], read⟩
  · next early =>
    have read := (placeIn_memberAccess (by simpa using early) found base value).2
    rw [held] at read
    exact ⟨rfl, read⟩

theorem readFrom_index (x : Context) (p : Property) (owner e : Expr) : (x.readFrom p owner (some e)).value =
    ((x.readFrom p owner none).value.1, .index (x.readFrom p owner none).value.2 e) := by
  rw [readFrom, readFrom]
  split <;> rfl

theorem performs_readFrom_index (found : x.ownerValue? w m.store p.owner = some o)
    (base : x.base? w m.store p = some l) (value : owner.valueIn w false m = some (o, m)) {a : Val} {i : Nat}
    (held : m.store l = some a) (array : a.object? = some i) {j : Val}
    (index : e.valueIn w false m = some (j, m)) (item : m.store (.item i j) = some u) :
    performAll w (x.readFrom p owner (some e)).value.1 m = some m ∧
      (x.readFrom p owner (some e)).value.2.valueIn w false m = some (u, m) := by
  obtain ⟨checks, read⟩ := performs_readFrom found base value held
  rw [readFrom_index]
  exact ⟨checks, by simp [Expr.valueIn, read, array, index, item]⟩

/-! ### Code that reads and writes a variable -/

/-- The operand is evaluated to a value without a change to the store or to variables with shorter names than
those of the agents at the slot. -/
structure Fetched (w : World) (slot : String) (e : Emission) (m : Memory) (u : Val) (m' : Memory) : Prop where
  runs : performAll w e.pre m = some m'
  store_eq : m'.store = m.store
  vars_eq : ∀ y, y.toList.length < (agent slot).toList.length → m'.vars y = m.vars y
  value : e.expr.valueIn w false m' = some (u, m')

theorem expr_constant {native : String} {value : Value} (h : x.constantExpr? native value = some e)
    (slot : String) : (x.constant native value slot).value.expr = e := by
  cases value with
  | array items =>
    cases items with
    | nil => exact Option.some.inj h
    | cons item items => cases h
  | struct fields => cases h
  | _ => exact Option.some.inj h

theorem owner_of_base? (base : x.base? w s p = some l) : ∃ o, x.ownerValue? w s p.owner = some o :=
  (Option.bind_eq_some_iff.mp base).imp fun _ h => h.1

theorem length_agent_lt (slot : String) {k : String} (filled : k ≠ "") :
    (agent slot).toList.length < (agent (slot ++ k)).toList.length := by
  have positive : 0 < k.toList.length := length_pos_of_ne_nil (by simpa using filled)
  simp only [agent, String.toList_append, length_append]
  omega

/-- Reading a variable fetches its value and stores nothing. -/
theorem fetched_readVariable (found : x.valueOf? w m.store v = some u)
    (slot : String) : ∃ m', Fetched w slot (x.readVariable v slot).value m u m' := by
  induction v generalizing m u slot with
  | const native value =>
    obtain ⟨e, he, h⟩ := Option.bind_eq_some_iff.mp found
    refine ⟨m, ?_, rfl, fun _ _ => rfl, ?_⟩
    · rw [readVariable, pre_constant]
      rfl
    · rw [readVariable, expr_constant he]
      exact Expr.valueIn_of_constantIn h
  | property p =>
    obtain ⟨l, base, held⟩ := Option.bind_eq_some_iff.mp found
    obtain ⟨o, owner⟩ := owner_of_base? base
    obtain ⟨m', runs, store, vars, value⟩ := performs_ownerOf owner slot
    rw [← store] at owner base held
    obtain ⟨checks, read⟩ := performs_readFrom owner base (value m' rfl) held
    refine ⟨m', ?_, store, fun y hy => vars y fun same => by simp [same] at hy, read⟩
    rw [readVariable]
    simp only [Emit.value_bind, Emit.value_pure, performAll_append, runs, Option.bind_some, checks]
  | element p index ih =>
    obtain ⟨a, ha, h⟩ := Option.bind_eq_some_iff.mp found
    obtain ⟨l, base, held⟩ := Option.bind_eq_some_iff.mp ha
    obtain ⟨i, array, h⟩ := Option.bind_eq_some_iff.mp h
    obtain ⟨j, hj, item⟩ := Option.bind_eq_some_iff.mp h
    obtain ⟨o, owner⟩ := owner_of_base? base
    obtain ⟨m₁, runs, store, vars, value⟩ := performs_ownerOf owner slot
    rw [← store] at hj
    obtain ⟨m₂, inner⟩ := ih hj (indexSlot slot)
    have store₂ : m₂.store = m.store := inner.store_eq.trans store
    have longer := length_agent_lt slot (k := "Index") (by decide)
    have kept : m₂.vars (agent slot) = m₁.vars (agent slot) := inner.vars_eq _ longer
    rw [← store₂] at owner base held item
    obtain ⟨checks, read⟩ := performs_readFrom_index owner base (value m₂ kept) held array inner.value item
    refine ⟨m₂, ?_, store₂, fun y hy => ?_, ?_⟩
    · rw [readVariable]
      simp only [Emit.value_bind, Emit.value_pure, bind_readVariable, performAll_append, runs,
        Option.bind_some, inner.runs, checks]
    · have short : y ≠ agent slot := fun same => by simp [same] at hy
      exact (inner.vars_eq y (hy.trans longer)).trans (vars y short)
    · rw [readVariable]
      simpa only [Emit.value_bind, Emit.value_pure, bind_readVariable] using read

/-- Storing in a property puts the value at its place. -/
theorem performs_writeTo (found : x.ownerValue? w m.store p.owner = some o)
    (base : x.base? w m.store p = some l) (value : owner.valueIn w false m = some (o, m))
    (held : (m.store l).isSome) (new : e.valueIn w false m = some (u, m)) :
    performAll w (x.writeTo p owner none e).value m = some (m.put l u) := by
  rw [writeTo]
  split
  · next late =>
    simp only [base?, found, late, if_true, Option.bind_some] at base
    obtain ⟨i, hi, rfl⟩ := Option.map_eq_some_iff.mp base
    have set : (Step.eval (.call (.select owner (setter p)) (lookupArgs p ++ [e]))).perform w m =
        some (m.put (.entry i p.isLocal p.basicName) u) := by
      simp [Step.perform, Expr.effectIn, setting?_setter, value, hi, new]
    simp [performAll, performs_checkId, set]
  · next early =>
    have place := (placeIn_memberAccess (by simpa using early) found base value).1
    simp [performAll, Step.perform, indexed, place, new, held]

/-- Storing in an element puts the value at its place in the array. -/
theorem performs_writeTo_index (found : x.ownerValue? w m.store p.owner = some o)
    (base : x.base? w m.store p = some l) (value : owner.valueIn w false m = some (o, m)) {a : Val} {i : Nat}
    (held : m.store l = some a) (array : a.object? = some i) {e' : Expr} {j : Val}
    (index : e'.valueIn w false m = some (j, m)) (item : (m.store (.item i j)).isSome)
    (new : e.valueIn w false m = some (u, m)) :
    performAll w (x.writeTo p owner (some e') e).value m = some (m.put (.item i j) u) := by
  have assigned {b : Expr} (h : b.valueIn w false m = some (a, m)) :
      (Step.assign (.index b e') e).perform w m = some (m.put (.item i j) u) := by
    simp [Step.perform, Expr.placeIn, h, array, index, new, item]
  rw [writeTo]
  split
  · next late =>
    have read := valueIn_stored late found base value ("[]" ++ (x.goType p.type).value)
    rw [held] at read
    simp [performAll, performs_checkId, assigned read]
  · next early =>
    have read := (placeIn_memberAccess (by simpa using early) found base value).2
    rw [held] at read
    simp [performAll, indexed, assigned read]

/-- Storing in a variable puts the value at its place and nowhere else. -/
theorem performs_writeVariable (found : x.place? w m.store v = some l)
    (held : (m.store l).isSome) {slot : String} (cell : m.vars y = some u)
    (own : y ≠ "agent" ∧ y ≠ "n") (short : y.toList.length < (agent slot).toList.length) :
    ∃ m', performAll w (x.writeVariable v (.name y) slot).value m = some m' ∧
    m'.store = (m.put l u).store := by
  have new {m' : Memory} (same : m'.vars y = m.vars y) : (Expr.name y).valueIn w false m' = some (u, m') := by
    rw [Expr.valueIn, look_of_ne own, same, cell]
    rfl
  cases v with
  | const native value => cases found
  | property p =>
    obtain ⟨o, owner⟩ := owner_of_base? found
    obtain ⟨m', runs, store, vars, value⟩ := performs_ownerOf owner slot
    rw [← store] at owner held
    have base : x.base? w m'.store p = some l := by rw [store]; exact found
    have written := performs_writeTo owner base (value m' rfl) held
      (new (vars y fun same => by simp [same] at short))
    refine ⟨m'.put l u, ?_, ?_⟩
    · rw [writeVariable]
      simp only [Emit.value_bind, Emit.value_pure, performAll_append, runs, Option.bind_some]
      exact written
    · simp only [Memory.put, store]
  | element p index =>
    obtain ⟨a, ha, h⟩ := Option.bind_eq_some_iff.mp found
    obtain ⟨b, base, array⟩ := Option.bind_eq_some_iff.mp ha
    obtain ⟨i, hi, h⟩ := Option.bind_eq_some_iff.mp h
    obtain ⟨j, hj, rfl⟩ := Option.map_eq_some_iff.mp h
    obtain ⟨o, owner⟩ := owner_of_base? base
    obtain ⟨m₁, runs, store, vars, value⟩ := performs_ownerOf owner slot
    rw [← store] at hj
    obtain ⟨m₂, inner⟩ := fetched_readVariable hj (indexSlot slot)
    have store₂ : m₂.store = m.store := inner.store_eq.trans store
    have longer := length_agent_lt slot (k := "Index") (by decide)
    have kept : m₂.vars (agent slot) = m₁.vars (agent slot) := inner.vars_eq _ longer
    have same : m₂.vars y = m.vars y :=
      (inner.vars_eq y (short.trans longer)).trans (vars y fun same => by simp [same] at short)
    rw [← store₂] at owner base array held
    have written := performs_writeTo_index owner base (value m₂ kept) array hi inner.value held (new same)
    refine ⟨m₂.put (.item i j) u, ?_, ?_⟩
    · rw [writeVariable]
      simp only [Emit.value_bind, Emit.value_pure, bind_readVariable, performAll_append, runs,
        Option.bind_some, inner.runs]
      exact written
    · simp only [Memory.put, store₂]

end Context

end GoTrees
