import GoTrees.Proofs.Machine
import GoTrees.Proofs.WriteBacks

/-!
# Running code that reads and writes a store

The part of Go that operands are emitted in, run on variables and a store of places: fields of objects,
variables of packages, variables that an agent keeps by name, and items of arrays. A method that is called
changes nothing but the cells whose addresses it is given. The parameters `agent` and `n` of a generated
method are never assigned.
-/

namespace GoTrees.Go

open List

variable {y : String} {m m' : Memory}

/-- Where a value is kept. -/
inductive Place where
  | field (object : Nat) (name : String)
  /-- A variable of a package, by its whole path. -/
  | global (path : String)
  /-- A variable that an agent keeps by name, local to a tree or not. -/
  | entry (agent : Nat) (isLocal : Bool) (name : String)
  | item (array : Nat) (index : Val)
  deriving DecidableEq, Repr

/-- The values at the places that exist. -/
abbrev Store := Place → Option Val

/-- The variables of a running method, and the store. -/
structure Memory where
  vars : String → Option Val
  store : Store

namespace Memory

def bind (m : Memory) (y : String) (v : Val) : Memory :=
  { m with vars := fun z => if z = y then some v else m.vars z }

def put (m : Memory) (p : Place) (v : Val) : Memory :=
  { m with store := fun q => if q = p then some v else m.store q }

@[simp] theorem vars_bind_self (m : Memory) (y : String) (v : Val) : (m.bind y v).vars y = some v := if_pos rfl

theorem vars_bind_of_ne (m : Memory) {z : String} (h : z ≠ y) (v : Val) : (m.bind y v).vars z = m.vars z :=
  if_neg h

@[simp] theorem store_bind (m : Memory) (y : String) (v : Val) : (m.bind y v).store = m.store := rfl

@[simp] theorem store_put_self (m : Memory) (p : Place) (v : Val) : (m.put p v).store p = some v := if_pos rfl

theorem store_put_of_ne (m : Memory) {p q : Place} (h : q ≠ p) (v : Val) : (m.put p v).store q = m.store q :=
  if_neg h

@[simp] theorem vars_put (m : Memory) (p : Place) (v : Val) : (m.put p v).vars = m.vars := rfl

end Memory

/-- The object that a value is. -/
def Val.object? : Val → Option Nat
  | .object i => some i
  | _ => none

/-- What generated code runs in. -/
structure World where
  /-- The running agent. -/
  agent : Nat
  /-- The object of the generated class, which holds the captured constants. -/
  node : Nat
  /-- The agent that an agent finds under a global name. -/
  parent : Nat → String → Option Val
  /-- What a method answers on a store, and what it leaves in the cells that it is given, by the numbers of the
  arguments. -/
  method : Store → Val → String → List Val → Option (Val × (Nat → Val))
  /-- A value converted to a type. -/
  convert : String → Val → Val
  /-- A new zero value of a type. -/
  fresh : String → Val

/-- What a name denotes. -/
def Memory.look (w : World) (m : Memory) (y : String) : Option Val :=
  if y = "agent" then some (.object w.agent) else if y = "n" then some (.object w.node) else m.vars y

/-- What a function of the runtime answers. -/
def World.runtime (w : World) (package item : String) (args : List Val) : Option Val :=
  match package, item, args with
  | "bt", "GetParentAgent", [.object i, .string key] => w.parent i key
  | "bt", "CheckVariableId", [.string key, .literal id] =>
    if id = toString (VariableId.ofName key) then some (.literal "nil") else none
  | _, _, _ => none

/-- The variable that an asserted call asks an agent for. -/
def lookup? (method : String) (args : List Expr) : Option (Bool × String) :=
  match method, args with
  | "GetLocal", [.string key, .literal _] => some (true, key)
  | "GetVariable", [.string key, .literal _] => some (false, key)
  | _, _ => none

/-- The variable of an agent that a call sets, and the value. -/
def setting? (method : String) (args : List Expr) : Option (Bool × String × Expr) :=
  match method, args with
  | "SetLocal", [.string key, .literal _, value] => some (true, key, value)
  | "SetVariable", [.string key, .literal _, value] => some (false, key, value)
  | _, _ => none

/-- The memory after a call, with what it left in the cells. -/
def Memory.leave (left : Nat → Val) : List Expr → Nat → Memory → Memory
  | [], _, m => m
  | .address y :: args, i, m => leave left args (i + 1) (m.bind y (left i))
  | _ :: args, i, m => leave left args (i + 1) m

mutual

/-- The value of an expression, and the memory after it. The address of a variable stands for what its cell
holds. A call that is asserted to a type may ask an agent for one of its variables. -/
def Expr.valueIn (w : World) (asserted : Bool) : Expr → Memory → Option (Val × Memory)
  | .name y, m => (m.look w y).map fun v => (v, m)
  | .literal t, m => some (.literal t, m)
  | .string s, m => some (.string s, m)
  | .member package item, m => some (.literal (package ++ "." ++ item), m)
  | .path t, m => (m.store (.global t)).map fun v => (v, m)
  | .address y, m => (m.vars y).map fun v => (v, m)
  | .new type, m => some (w.fresh type, m)
  | .converted type e, m => (e.valueIn w false m).map fun r => (w.convert type r.1, r.2)
  | .asserted e _, m => e.valueIn w true m
  | .select e field, m => (e.valueIn w false m).bind fun r => r.1.object?.bind fun i =>
    (r.2.store (.field i field)).map fun v => (v, r.2)
  | .index e i, m => (e.valueIn w false m).bind fun r => r.1.object?.bind fun a =>
    (i.valueIn w false r.2).bind fun r => (r.2.store (.item a r.1)).map fun v => (v, r.2)
  | .call (.member package item) args, m => (Expr.valuesIn w args m).bind fun r =>
    (w.runtime package item r.1).map fun v => (v, r.2)
  | .call (.select e method) args, m => (e.valueIn w false m).bind fun r =>
    match asserted, lookup? method args with
    | true, some (isLocal, key) => r.1.object?.bind fun i =>
      (r.2.store (.entry i isLocal key)).map fun v => (v, r.2)
    | _, _ => (Expr.valuesIn w args r.2).bind fun s =>
      (w.method s.2.store r.1 method s.1).map fun a => (a.1, s.2.leave a.2 args 0)
  | _, _ => none

/-- The values of expressions from left to right. -/
def Expr.valuesIn (w : World) : List Expr → Memory → Option (List Val × Memory)
  | [], m => some ([], m)
  | e :: es, m => (e.valueIn w false m).bind fun r => (Expr.valuesIn w es r.2).map fun s => (r.1 :: s.1, s.2)

end

/-- The place that an expression stands for as the target of an assignment. -/
def Expr.placeIn (w : World) : Expr → Memory → Option (Place × Memory)
  | .path t, m => some (.global t, m)
  | .select e field, m => (e.valueIn w false m).bind fun r => r.1.object?.map fun i => (.field i field, r.2)
  | .index e i, m => (e.valueIn w false m).bind fun r => r.1.object?.bind fun a =>
    (i.valueIn w false r.2).map fun s => (.item a s.1, s.2)
  | _, _ => none

/-- Evaluates an expression for what it does; a call may set a variable of an agent. -/
def Expr.effectIn (w : World) : Expr → Memory → Option Memory
  | .call (.select o method) args, m =>
    match setting? method args with
    | some (isLocal, key, value) => (o.valueIn w false m).bind fun r => r.1.object?.bind fun i =>
      (value.valueIn w false r.2).map fun s => s.2.put (.entry i isLocal key) s.1
    | none => ((Expr.call (.select o method) args).valueIn w false m).map Prod.snd
  | e, m => (e.valueIn w false m).map Prod.snd

/-- Runs a step. Only what exists is assigned to. -/
def Step.perform (w : World) : Step → Memory → Option Memory
  | .define y e, m =>
    if y = "agent" ∨ y = "n" then none else (e.valueIn w false m).map fun r => r.2.bind y r.1
  | .assign target e, m => (target.placeIn w m).bind fun t => (e.valueIn w false t.2).bind fun r =>
    if (r.2.store t.1).isSome then some (r.2.put t.1 r.1) else none
  | .eval e, m => e.effectIn w m
  | .comment _, m => some m
  | _, _ => none

/-- Runs steps one after the other. -/
def performAll (w : World) : List Step → Memory → Option Memory
  | [], m => some m
  | s :: ss, m => (s.perform w m).bind (performAll w ss)

/-! ### What is left as it is -/

/-- The store is the same, only the variables of the list may differ, and none is lost. -/
structure Memory.Kept (ys : List String) (m m' : Memory) : Prop where
  store_eq : m'.store = m.store
  vars_eq : ∀ y ∉ ys, m'.vars y = m.vars y
  known : ∀ y, (m.vars y).isSome → (m'.vars y).isSome

namespace Memory.Kept

variable {ys zs : List String} {m m' m'' : Memory}

theorem refl (ys : List String) (m : Memory) : Kept ys m m := ⟨rfl, fun _ _ => rfl, fun _ => id⟩

theorem trans (h : Kept ys m m') (h' : Kept zs m' m'') : Kept (ys ++ zs) m m'' where
  store_eq := h'.store_eq.trans h.store_eq
  vars_eq y hy := by
    rw [mem_append, not_or] at hy
    exact (h'.vars_eq y hy.2).trans (h.vars_eq y hy.1)
  known y hy := h'.known y (h.known y hy)

theorem mono (h : Kept ys m m') (sub : ys ⊆ zs) : Kept zs m m' where
  store_eq := h.store_eq
  vars_eq y hy := h.vars_eq y fun mem => hy (sub mem)
  known := h.known

theorem bind (m : Memory) (y : String) (v : Val) : Kept [y] m (m.bind y v) where
  store_eq := rfl
  vars_eq z hz := m.vars_bind_of_ne (by simpa using hz) v
  known z hz := by
    by_cases same : z = y
    · simp [same]
    · rwa [m.vars_bind_of_ne same]

theorem leave (left : Nat → Val) : ∀ (args : List Expr) (i : Nat) (m : Memory),
    Kept (Expr.allNames args) m (m.leave left args i) := by
  intro args
  induction args with
  | nil => exact fun i m => refl _ m
  | cons e args ih =>
    intro i m
    have skip : Kept (Expr.allNames (e :: args)) m (m.leave left args (i + 1)) :=
      (ih (i + 1) m).mono (subset_append_right _ _)
    cases e with
    | address y => exact (bind m y (left i)).trans (ih (i + 1) _)
    | _ => exact skip

end Memory.Kept

mutual

/-- Evaluating an expression changes nothing but cells that it names. -/
theorem Expr.kept_valueIn (w : World) : ∀ (e : Expr) {b : Bool} {m m' : Memory} {v : Val},
    e.valueIn w b m = some (v, m') → Memory.Kept e.names m m'
  | .literal _, _, m, _, _, h | .string _, _, m, _, _, h | .member _ _, _, m, _, _, h |
      .new _, _, m, _, _, h => by
      rw [valueIn] at h
      cases h
      exact .refl _ m
  | .name _, _, m, _, _, h | .path _, _, m, _, _, h | .address _, _, m, _, _, h => by
      rw [valueIn] at h
      obtain ⟨u, -, same⟩ := Option.map_eq_some_iff.mp h
      cases same
      exact .refl _ m
  | .converted type e, b, m, m', v, h => by
      rw [valueIn] at h
      obtain ⟨⟨u, m₁⟩, he, same⟩ := Option.map_eq_some_iff.mp h
      cases same
      exact kept_valueIn w e he
  | .asserted e type, b, m, m', v, h => by
      rw [valueIn] at h
      exact kept_valueIn w e h
  | .select e field, b, m, m', v, h => by
      rw [valueIn] at h
      obtain ⟨⟨o, m₁⟩, he, h⟩ := Option.bind_eq_some_iff.mp h
      obtain ⟨i, -, h⟩ := Option.bind_eq_some_iff.mp h
      obtain ⟨u, -, same⟩ := Option.map_eq_some_iff.mp h
      cases same
      exact kept_valueIn w e he
  | .index e i, b, m, m', v, h => by
      rw [valueIn] at h
      obtain ⟨⟨o, m₁⟩, he, h⟩ := Option.bind_eq_some_iff.mp h
      obtain ⟨a, -, h⟩ := Option.bind_eq_some_iff.mp h
      obtain ⟨⟨j, m₂⟩, hi, h⟩ := Option.bind_eq_some_iff.mp h
      obtain ⟨u, -, same⟩ := Option.map_eq_some_iff.mp h
      cases same
      exact (kept_valueIn w e he).trans (kept_valueIn w i hi)
  | .call (.member package item) args, b, m, m', v, h => by
      rw [valueIn] at h
      obtain ⟨⟨vs, m₁⟩, hargs, h⟩ := Option.bind_eq_some_iff.mp h
      obtain ⟨u, -, same⟩ := Option.map_eq_some_iff.mp h
      cases same
      exact (kept_valuesIn w args hargs).mono (subset_append_right _ _)
  | .call (.select e method) args, b, m, m', v, h => by
      rw [valueIn] at h
      obtain ⟨⟨o, m₁⟩, he, h⟩ := Option.bind_eq_some_iff.mp h
      have target := kept_valueIn w e he
      split at h
      · obtain ⟨i, -, h⟩ := Option.bind_eq_some_iff.mp h
        obtain ⟨u, -, same⟩ := Option.map_eq_some_iff.mp h
        cases same
        exact target.mono (subset_append_left _ _)
      · obtain ⟨⟨vs, m₂⟩, hargs, h⟩ := Option.bind_eq_some_iff.mp h
        obtain ⟨⟨r, left⟩, -, same⟩ := Option.map_eq_some_iff.mp h
        cases same
        refine (target.trans ((kept_valuesIn w args hargs).trans (.leave left args 0 m₂))).mono ?_
        simp
  | .call (.name _) _, _, _, _, _, h | .call (.literal _) _, _, _, _, _, h
  | .call (.string _) _, _, _, _, _, h | .call (.path _) _, _, _, _, _, h
  | .call (.call _ _) _, _, _, _, _, h | .call (.index _ _) _, _, _, _, _, h
  | .call (.asserted _ _) _, _, _, _, _, h | .call (.converted _ _) _, _, _, _, _, h
  | .call (.address _) _, _, _, _, _, h | .call (.binary _ _ _) _, _, _, _, _, h
  | .call (.not _) _, _, _, _, _, h | .call (.slice _ _) _, _, _, _, _, h
  | .call (.empty _) _, _, _, _, _, h | .call (.new _) _, _, _, _, _, h
  | .binary _ _ _, _, _, _, _, h | .not _, _, _, _, _, h | .slice _ _, _, _, _, _, h
  | .empty _, _, _, _, _, h => by simp [valueIn] at h

theorem Expr.kept_valuesIn (w : World) : ∀ (es : List Expr) {m m' : Memory} {vs : List Val},
    Expr.valuesIn w es m = some (vs, m') → Memory.Kept (Expr.allNames es) m m'
  | [], m, m', vs, h => by
      rw [valuesIn] at h
      cases h
      exact .refl _ m
  | e :: es, m, m', vs, h => by
      rw [valuesIn] at h
      obtain ⟨⟨v, m₁⟩, he, h⟩ := Option.bind_eq_some_iff.mp h
      obtain ⟨⟨us, m₂⟩, hes, same⟩ := Option.map_eq_some_iff.mp h
      cases same
      exact (kept_valueIn w e he).trans (kept_valuesIn w es hes)

end

/-- An argument that is a cell has what the cell holds, if the arguments before it leave the cell alone. -/
theorem Expr.getElem?_valuesIn (w : World) (after : List Expr) : ∀ {front : List Expr} {m m' : Memory}
    {vs : List Val}, Expr.valuesIn w (front ++ .address y :: after) m = some (vs, m') →
    y ∉ Expr.allNames front → vs[front.length]? = m.vars y := by
  intro front
  induction front with
  | nil =>
    intro m m' vs h _
    obtain ⟨⟨v, m₁⟩, he, h⟩ := Option.bind_eq_some_iff.mp h
    obtain ⟨⟨us, m₂⟩, -, same⟩ := Option.map_eq_some_iff.mp h
    cases same
    rw [valueIn] at he
    obtain ⟨u, hu, same⟩ := Option.map_eq_some_iff.mp he
    cases same
    simp [hu]
  | cons e front ih =>
    intro m m' vs h absent
    rw [Expr.allNames, mem_append, not_or] at absent
    obtain ⟨⟨v, m₁⟩, he, h⟩ := Option.bind_eq_some_iff.mp h
    obtain ⟨⟨us, m₂⟩, hes, same⟩ := Option.map_eq_some_iff.mp h
    cases same
    rw [length_cons, getElem?_cons_succ, ih hes absent.2]
    exact (e.kept_valueIn w he).vars_eq y absent.1

/-- A cell holds what the call left in it, if no later argument is the same cell. -/
theorem Memory.vars_leave (left : Nat → Val) {after : List Expr} (alone : y ∉ Expr.allNames after) :
    ∀ (front : List Expr) (k : Nat) (m : Memory),
      (m.leave left (front ++ .address y :: after) k).vars y = some (left (k + front.length)) := by
  intro front
  induction front with
  | nil =>
    intro k m
    have kept := (Memory.Kept.leave left after (k + 1) (m.bind y (left k))).vars_eq y alone
    exact kept.trans (m.vars_bind_self y (left k))
  | cons e front ih =>
    intro k m
    have rest (m : Memory) : (m.leave left (front ++ .address y :: after) (k + 1)).vars y =
        some (left (k + (e :: front).length)) := by
      rw [ih (k + 1) m, length_cons, Nat.add_right_comm, Nat.add_assoc]
    cases e with
    | address z => exact rest _
    | _ => exact rest m

/-- Finding a place changes nothing but cells that are named. -/
theorem Expr.kept_placeIn (w : World) (e : Expr) {m m' : Memory} {p : Place}
    (h : e.placeIn w m = some (p, m')) : Memory.Kept e.names m m' := by
  cases e with
  | path t =>
    cases h
    exact .refl _ m
  | select e field =>
    obtain ⟨⟨o, m₁⟩, he, h⟩ := Option.bind_eq_some_iff.mp h
    obtain ⟨i, -, same⟩ := Option.map_eq_some_iff.mp h
    cases same
    exact kept_valueIn w e he
  | index e i =>
    obtain ⟨⟨o, m₁⟩, he, h⟩ := Option.bind_eq_some_iff.mp h
    obtain ⟨a, -, h⟩ := Option.bind_eq_some_iff.mp h
    obtain ⟨⟨j, m₂⟩, hi, same⟩ := Option.map_eq_some_iff.mp h
    cases same
    exact (kept_valueIn w e he).trans (kept_valueIn w i hi)
  | _ => cases h

/-- Only the variables of the list may differ, and neither a variable nor a place is lost. -/
structure Memory.Grown (ys : List String) (m m' : Memory) : Prop where
  vars_eq : ∀ y ∉ ys, m'.vars y = m.vars y
  known : ∀ y, (m.vars y).isSome → (m'.vars y).isSome
  held : ∀ q, (m.store q).isSome → (m'.store q).isSome

namespace Memory

variable {ys zs : List String} {m m' m'' : Memory}

theorem Kept.grown (h : Kept ys m m') : Grown ys m m' :=
  ⟨h.vars_eq, h.known, fun q hq => by rwa [h.store_eq]⟩

theorem Grown.trans (h : Grown ys m m') (h' : Grown zs m' m'') : Grown (ys ++ zs) m m'' where
  vars_eq y hy := by
    rw [mem_append, not_or] at hy
    exact (h'.vars_eq y hy.2).trans (h.vars_eq y hy.1)
  known y hy := h'.known y (h.known y hy)
  held q hq := h'.held q (h.held q hq)

theorem Grown.mono (h : Grown ys m m') (sub : ys ⊆ zs) : Grown zs m m' :=
  ⟨fun y hy => h.vars_eq y fun mem => hy (sub mem), h.known, h.held⟩

theorem Grown.put (m : Memory) (p : Place) (v : Val) : Grown [] m (m.put p v) where
  vars_eq _ _ := rfl
  known _ := id
  held q hq := by
    by_cases same : q = p
    · simp [same]
    · rwa [m.store_put_of_ne same]

end Memory

theorem setting?_subset {method key : String} {args : List Expr} {isLocal : Bool} {value : Expr}
    (h : setting? method args = some (isLocal, key, value)) :
    value.names ⊆ Expr.allNames args ∧ (method = "SetLocal" ∨ method = "SetVariable") := by
  unfold setting? at h
  split at h
  · cases h
    simp
  · cases h
    simp
  · cases h

/-- An expression that sets no variable is only evaluated. -/
theorem Expr.effectIn_cases (w : World) {e : Expr} (h : e.effectIn w m = some m') :
    (∃ v, e.valueIn w false m = some (v, m')) ∨
    ∃ o method args isLocal key value a i v m₁ m₂, e = .call (.select o method) args ∧
      setting? method args = some (isLocal, key, value) ∧ o.valueIn w false m = some (a, m₁) ∧
      value.valueIn w false m₁ = some (v, m₂) ∧ m' = m₂.put (.entry i isLocal key) v := by
  have plain (h : (e.valueIn w false m).map Prod.snd = some m') : ∃ v, e.valueIn w false m = some (v, m') := by
    obtain ⟨⟨v, m₁⟩, he, rfl⟩ := Option.map_eq_some_iff.mp h
    exact ⟨v, he⟩
  cases e with
  | call f args =>
    cases f with
    | select o method =>
      rw [effectIn] at h
      split at h
      · next isLocal key value set =>
        obtain ⟨⟨a, m₁⟩, ho, h⟩ := Option.bind_eq_some_iff.mp h
        obtain ⟨i, -, h⟩ := Option.bind_eq_some_iff.mp h
        obtain ⟨⟨v, m₂⟩, hv, rfl⟩ := Option.map_eq_some_iff.mp h
        exact .inr ⟨o, method, args, isLocal, key, value, a, i, v, m₁, m₂, rfl, set, ho, hv, rfl⟩
      · exact .inl (plain h)
    | _ => exact .inl (plain h)
  | _ => exact .inl (plain h)

/-- A step keeps all cells that it does not name. -/
theorem Step.grown_perform (w : World) {s : Step} {m m' : Memory} (h : s.perform w m = some m') :
    Memory.Grown s.names m m' := by
  cases s with
  | define y e =>
    rw [perform] at h
    split at h
    · cases h
    · obtain ⟨⟨v, m₁⟩, he, rfl⟩ := Option.map_eq_some_iff.mp h
      exact ((e.kept_valueIn w he).trans (.bind m₁ y v)).grown.mono (by simp)
  | assign target e =>
    obtain ⟨⟨p, m₁⟩, ht, h⟩ := Option.bind_eq_some_iff.mp h
    obtain ⟨⟨v, m₂⟩, he, h⟩ := Option.bind_eq_some_iff.mp h
    split at h
    · cases h
      have read := (target.kept_placeIn w ht).trans (e.kept_valueIn w he)
      exact (read.grown.trans (.put m₂ p v)).mono (by simp)
    · cases h
  | eval e =>
    rcases e.effectIn_cases w h with ⟨v, he⟩ | ⟨o, method, args, isLocal, key, value, a, i, v, m₁,
      m₂, rfl, set, ho, hv, rfl⟩
    · exact (e.kept_valueIn w he).grown
    · have read := (o.kept_valueIn w ho).trans (value.kept_valueIn w hv)
      refine (read.grown.trans (.put m₂ _ v)).mono ?_
      simpa using subset_append_of_subset_right _ (setting?_subset set).1
  | ret e => cases h
  | comment t =>
    cases h
    exact (Memory.Kept.refl _ m).grown
  | verbatim line => cases h

/-- A step that stores nothing leaves the store as it is. -/
theorem Step.store_perform (w : World) {s : Step} (quiet : Context.storing s = false)
    (h : s.perform w m = some m') : m'.store = m.store := by
  cases s with
  | define y e =>
    rw [perform] at h
    split at h
    · cases h
    · obtain ⟨⟨v, m₁⟩, he, rfl⟩ := Option.map_eq_some_iff.mp h
      exact (e.kept_valueIn w he).store_eq
  | assign target e => cases quiet
  | eval e =>
    rcases e.effectIn_cases w h with ⟨v, he⟩ | ⟨o, method, args, isLocal, key, value, a, i, v, m₁,
      m₂, rfl, set, ho, hv, rfl⟩
    · exact (e.kept_valueIn w he).store_eq
    · have setter := (setting?_subset set).2
      simp [Context.storing] at quiet
      tauto
  | ret e => cases h
  | comment t =>
    cases h
    rfl
  | verbatim line => cases h

theorem performAll_append (w : World) (as bs : List Step) (m : Memory) :
    performAll w (as ++ bs) m = (performAll w as m).bind (performAll w bs) := by
  induction as generalizing m with
  | nil => rfl
  | cons s as ih =>
    rw [cons_append, performAll, performAll, Option.bind_assoc]
    exact congrArg _ (funext ih)

/-- Steps keep all cells that they do not name. -/
theorem grown_performAll (w : World) {ss : List Step} (h : performAll w ss m = some m') :
    Memory.Grown (stepNames ss) m m' := by
  induction ss generalizing m with
  | nil =>
    cases h
    exact (Memory.Kept.refl _ _).grown
  | cons s ss ih =>
    obtain ⟨m₁, hs, h⟩ := Option.bind_eq_some_iff.mp h
    exact (Step.grown_perform w hs).trans (ih h)

/-- Steps that store nothing leave the store as it is. -/
theorem store_performAll (w : World) {ss : List Step} (quiet : ∀ s ∈ ss, Context.storing s = false)
    (h : performAll w ss m = some m') : m'.store = m.store := by
  induction ss generalizing m with
  | nil =>
    cases h
    rfl
  | cons s ss ih =>
    obtain ⟨first, rest⟩ := forall_mem_cons.mp quiet
    obtain ⟨m₁, hs, h⟩ := Option.bind_eq_some_iff.mp h
    exact (ih rest h).trans (Step.store_perform w first hs)

end GoTrees.Go
