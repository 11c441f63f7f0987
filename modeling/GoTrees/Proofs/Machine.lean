import GoTrees.Go.Code
import Mathlib.Data.List.Perm.Basic
import Mathlib.Data.List.Range

/-!
# Running code that builds objects

The part of Go that builds a tree, run on a heap of objects. A call of a function makes a new object; a
call of a method is added to the calls that its object has heard. Blocks are scopes: `:=` declares a name
in the innermost block, where it may be declared only once, and a name denotes what the innermost block
that declares it has bound it to.

A shape is what can be read off the heap from one value: the call that made an object, and the calls it
has heard, with the shapes of their arguments. `Shape.On` says that a value has a shape on a heap and
through which objects.
-/

namespace GoTrees.Go

open List

variable {h h' h₁ h₂ h₃ : Heap} {p : Nat} {acts : List Act} {told : Nat → List Message} {v : Val} {t : Shape}
  {method o : String} {vs : List Val} {ts : List Shape} {scopes : List Scope} {args es : List Expr}

/-- The value of an expression: an object, by its number on the heap, or data. -/
inductive Val where
  | object (i : Nat)
  | literal (text : String)
  | string (s : String)
  deriving DecidableEq, Repr

/-- A call that took place: the function or method, and the values of the arguments. -/
structure Message where
  name : String
  args : List Val
  deriving DecidableEq, Repr

/-- An object: the call that made it, and the calls on it since, in order. -/
structure Object where
  made : Message
  heard : List Message := []
  deriving DecidableEq, Repr

/-- The object after more calls on it. -/
def Object.hear (o : Object) (es : List Message) : Object := { o with heard := o.heard ++ es }

/-- Objects by their number. -/
abbrev Heap := List Object

/-- The names declared in one block. -/
abbrev Scope := List (String × Val)

/-- What a name denotes, in scopes from the innermost out. -/
def denoted (x : String) : List Scope → Option Val
  | [] => none
  | scope :: outer => (scope.lookup x).or (denoted x outer)

/-- A running function: its scopes from the innermost out, the heap, and its answer once it returned. -/
structure State where
  scopes : List Scope
  heap : Heap := []
  answer : Option Val := none
  deriving DecidableEq, Repr

/-- The name of a function that is called by name or as a member of a package. -/
def Expr.function? : Expr → Option String
  | .name f => some f
  | .member package item => some (package ++ "." ++ item)
  | _ => none

mutual

/-- The value of an expression, and the heap with the objects that it made. -/
def Expr.eval (scopes : List Scope) : Expr → Heap → Option (Val × Heap)
  | .name x, h => (denoted x scopes).map fun v => (v, h)
  | .literal t, h => some (.literal t, h)
  | .string s, h => some (.string s, h)
  | .call f args, h => do
    let name ← f.function?
    let (vs, h) ← Expr.evalAll scopes args h
    return (.object h.length, h ++ [{ made := ⟨name, vs⟩ }])
  | _, _ => none

/-- The values of expressions from left to right. -/
def Expr.evalAll (scopes : List Scope) : List Expr → Heap → Option (List Val × Heap)
  | [], h => some ([], h)
  | e :: es, h => do
    let (v, h) ← e.eval scopes h
    let (vs, h) ← Expr.evalAll scopes es h
    return (v :: vs, h)

end

/-- The heap after a call on an object. -/
def Heap.tell (h : Heap) (i : Nat) (e : Message) : Heap := h.modify i (·.hear [e])

/-- Runs a step. A name is declared once in a block; a method is called on an object. -/
def Step.run : Step → State → Option State
  | .define x e, s =>
    match s.scopes with
    | [] => none
    | scope :: outer =>
      if (scope.lookup x).isSome then none
      else (e.eval s.scopes s.heap).map fun (v, h) =>
        { s with scopes := ((x, v) :: scope) :: outer, heap := h }
  | .eval (.call (.select (.name o) method) args), s =>
    match denoted o s.scopes with
    | some (.object i) =>
      (Expr.evalAll s.scopes args s.heap).map fun (vs, h) =>
        { s with heap := h.tell i ⟨method, vs⟩ }
    | _ => none
  | .ret e, s => (e.eval s.scopes s.heap).map fun (v, h) => { s with heap := h, answer := some v }
  | .comment _, s => some s
  | _, _ => none

mutual

/-- Runs a statement; a block has a scope of its own. -/
def Stmt.run : Stmt → State → Option State
  | .step s, st => s.run st
  | .block body, st =>
    (Stmt.runAll body { st with scopes := [] :: st.scopes }).map fun st' =>
      { st' with scopes := st'.scopes.tail }
  | .ifThen .., _ => none

/-- Runs statements until the function returns. -/
def Stmt.runAll : List Stmt → State → Option State
  | [], st => some st
  | s :: rest, st => if st.answer.isSome then some st else (s.run st).bind (Stmt.runAll rest)

end

/-- What a function without parameters answers, and the heap it leaves. -/
def call (body : List Stmt) : Option (Val × Heap) :=
  (Stmt.runAll body { scopes := [[]] }).bind fun s => s.answer.map fun v => (v, s.heap)

/-! ### Shapes -/

mutual

/-- A value with all that belongs to it. -/
inductive Shape where
  | object (made : Act) (heard : List Act)
  | literal (text : String)
  | string (s : String)

/-- A call with the shapes of its arguments. -/
inductive Act where
  | call (name : String) (args : List Shape)

end

/-- A truth value as data. -/
def Shape.bool (b : Bool) : Shape := .literal (if b then "true" else "false")

/-- A whole number as data. -/
def Shape.int (n : Int) : Shape := .literal (toString n)

mutual

/-- The value has the shape on the heap, and the objects met on the way are the listed ones. -/
def Shape.On (h : Heap) : Shape → Val → List Nat → Prop
  | .object made heard, v, met =>
    ∃ i o a b, v = .object i ∧ h[i]? = some o ∧ made.On h o.made a ∧ Act.AllOn h heard o.heard b ∧
      met = i :: (a ++ b)
  | .literal t, v, met => v = .literal t ∧ met = []
  | .string s, v, met => v = .string s ∧ met = []

/-- The call that took place is of this form. -/
def Act.On (h : Heap) : Act → Message → List Nat → Prop
  | .call name args, e, met => e.name = name ∧ Shape.AllOn h args e.args met

/-- The values have the shapes, one by one. -/
def Shape.AllOn (h : Heap) : List Shape → List Val → List Nat → Prop
  | [], vs, met => vs = [] ∧ met = []
  | t :: ts, vs, met => ∃ v rest a b, vs = v :: rest ∧ t.On h v a ∧ Shape.AllOn h ts rest b ∧
      met = a ++ b

/-- The calls that took place are of these forms, one by one. -/
def Act.AllOn (h : Heap) : List Act → List Message → List Nat → Prop
  | [], es, met => es = [] ∧ met = []
  | t :: ts, es, met => ∃ e rest a b, es = e :: rest ∧ t.On h e a ∧ Act.AllOn h ts rest b ∧
      met = a ++ b

end

mutual

theorem Shape.On.frame : ∀ (t : Shape) {v : Val} {met : List Nat}, t.On h v met →
    (∀ i ∈ met, h'[i]? = h[i]?) → t.On h' v met
  | .object made heard, v, met, ⟨i, o, a, b, hv, ho, hm, hh, hmet⟩, same => by
      subst hmet
      refine ⟨i, o, a, b, hv, (same i mem_cons_self).trans ho, ?_, ?_, rfl⟩
      · exact Act.On.frame made hm fun j hj => same j (by simp [hj])
      · exact Act.AllOn.frame heard hh fun j hj => same j (by simp [hj])
  | .literal _, _, _, ht, _ => ht
  | .string _, _, _, ht, _ => ht

theorem Act.On.frame : ∀ (t : Act) {e : Message} {met : List Nat}, t.On h e met →
    (∀ i ∈ met, h'[i]? = h[i]?) → t.On h' e met
  | .call _ args, _, _, ⟨hn, ha⟩, same => ⟨hn, Shape.AllOn.frame args ha same⟩

theorem Shape.AllOn.frame : ∀ (ts : List Shape) {vs : List Val} {met : List Nat},
    Shape.AllOn h ts vs met → (∀ i ∈ met, h'[i]? = h[i]?) → Shape.AllOn h' ts vs met
  | [], _, _, ht, _ => ht
  | t :: ts, _, _, ⟨v, rest, a, b, hvs, ht, hts, hmet⟩, same => by
      subst hmet
      refine ⟨v, rest, a, b, hvs, ?_, ?_, rfl⟩
      · exact Shape.On.frame t ht fun j hj => same j (mem_append_left _ hj)
      · exact Shape.AllOn.frame ts hts fun j hj => same j (mem_append_right _ hj)

theorem Act.AllOn.frame : ∀ (ts : List Act) {es : List Message} {met : List Nat},
    Act.AllOn h ts es met → (∀ i ∈ met, h'[i]? = h[i]?) → Act.AllOn h' ts es met
  | [], _, _, ht, _ => ht
  | t :: ts, _, _, ⟨e, rest, a, b, hes, ht, hts, hmet⟩, same => by
      subst hmet
      refine ⟨e, rest, a, b, hes, ?_, ?_, rfl⟩
      · exact Act.On.frame t ht fun j hj => same j (mem_append_left _ hj)
      · exact Act.AllOn.frame ts hts fun j hj => same j (mem_append_right _ hj)

end

theorem Act.AllOn.append : ∀ {ts us : List Act} {es fs : List Message} {a b : List Nat},
    Act.AllOn h ts es a → Act.AllOn h us fs b → Act.AllOn h (ts ++ us) (es ++ fs) (a ++ b)
  | [], _, _, _, _, _, ⟨rfl, rfl⟩, hu => hu
  | _ :: _, _, _, _, _, b, ⟨e, _, c, d, rfl, ht, hts, rfl⟩, hu =>
      ⟨e, _, c, d ++ b, rfl, ht, Act.AllOn.append hts hu, List.append_assoc ..⟩

/-! ### Heaps that grow -/

/-- The calls `es` on the object `p` and none on others. -/
def only (p : Nat) (es : List Message) (j : Nat) : List Message := if j = p then es else []

@[simp] theorem only_self (p : Nat) (es : List Message) : only p es p = es := by simp [only]

theorem only_of_ne {j : Nat} (es : List Message) (h : j ≠ p) : only p es j = [] := by simp [only, h]

@[simp] theorem only_nil (p j : Nat) : only p [] j = [] := by simp [only]

theorem only_append (p : Nat) (es fs : List Message) (j : Nat) :
    only p es j ++ only p fs j = only p (es ++ fs) j := by
  by_cases h : j = p <;> simp [only, h]

@[simp] theorem Object.hear_nil (o : Object) : o.hear [] = o := by simp [Object.hear]

@[simp] theorem Object.hear_hear (o : Object) (es fs : List Message) :
    (o.hear es).hear fs = o.hear (es ++ fs) := by simp [Object.hear]

/-- The objects of `h` are still there in `h'`, and have heard the calls `told` in between. -/
structure Extends (h h' : Heap) (told : Nat → List Message) : Prop where
  length_le : h.length ≤ h'.length
  get : ∀ j < h.length, h'[j]? = h[j]?.map (·.hear (told j))

theorem Extends.refl (h : Heap) (p : Nat) : Extends h h (only p []) :=
  ⟨Nat.le_refl _, fun j _ => by cases h[j]? <;> simp⟩

theorem Extends.trans {s t : Nat → List Message} (a : Extends h₁ h₂ s)
    (b : Extends h₂ h₃ t) : Extends h₁ h₃ fun j => s j ++ t j := by
  refine ⟨a.length_le.trans b.length_le, fun j hj => ?_⟩
  rw [b.get j (hj.trans_le a.length_le), a.get j hj]
  cases h₁[j]? <;> simp

theorem Extends.congr {s t : Nat → List Message} (a : Extends h h' s)
    (eq : ∀ j < h.length, s j = t j) : Extends h h' t :=
  ⟨a.length_le, fun j hj => by rw [a.get j hj, eq j hj]⟩

theorem Extends.append (h new : Heap) (p : Nat) : Extends h (h ++ new) (only p []) := by
  refine ⟨by simp, fun j hj => ?_⟩
  rw [getElem?_append_left hj]
  cases h[j]? <;> simp

theorem Extends.tell (h : Heap) (p : Nat) (e : Message) : Extends h (h.tell p e) (only p [e]) := by
  refine ⟨by simp [Heap.tell], fun j _ => ?_⟩
  rw [Heap.tell, getElem?_modify]
  by_cases hj : p = j
  · subst hj; cases h[p]? <;> simp
  · cases h[j]? <;> simp [hj, only_of_ne _ (Ne.symm hj)]

/-- The objects made on the way from `h` to `h'`. -/
def newObjects (h h' : Heap) : List Nat := List.range' h.length (h'.length - h.length)

theorem mem_newObjects (hl : h.length ≤ h'.length) {i : Nat} :
    i ∈ newObjects h h' ↔ h.length ≤ i ∧ i < h'.length := by
  simp only [newObjects, mem_range'_1]; omega

theorem newObjects_append (a : h₁.length ≤ h₂.length) (b : h₂.length ≤ h₃.length) :
    newObjects h₁ h₂ ++ newObjects h₂ h₃ = newObjects h₁ h₃ := by
  obtain ⟨k, hk⟩ := Nat.exists_eq_add_of_le a
  obtain ⟨m, hm⟩ := Nat.exists_eq_add_of_le b
  simp only [newObjects]
  rw [hm, hk, Nat.add_sub_cancel_left, Nat.add_sub_cancel_left, Nat.add_assoc,
    Nat.add_sub_cancel_left, range'_append_1]

/-- All that is new in `h'` is the value `v` with the shape `t`; objects of `h` heard `told`. -/
def Grown (h h' : Heap) (told : Nat → List Message) (v : Val) (t : Shape) : Prop :=
  Extends h h' told ∧ ∃ met, t.On h' v met ∧ met.Perm (newObjects h h')

/-- All that is new in `h'` belongs to calls of the form `acts` on the object `p` of `h`. -/
def Wired (h h' : Heap) (p : Nat) (acts : List Act) : Prop :=
  ∃ es, Extends h h' (only p es) ∧ ∃ met, Act.AllOn h' acts es met ∧ met.Perm (newObjects h h')

theorem Wired.refl (h : Heap) (p : Nat) : Wired h h p [] :=
  ⟨[], .refl h p, [], ⟨rfl, rfl⟩, by simp [newObjects]⟩

theorem Wired.length_le (w : Wired h h' p acts) :
    h.length ≤ h'.length := by
  obtain ⟨_, ext, _⟩ := w
  exact ext.length_le

/-- What was wired to `p` before stays as it is when more is wired to `p`. -/
theorem Wired.trans {as bs : List Act} (hp : p < h₁.length)
    (a : Wired h₁ h₂ p as) (b : Wired h₂ h₃ p bs) : Wired h₁ h₃ p (as ++ bs) := by
  obtain ⟨es, ea, m, ma, pa⟩ := a
  obtain ⟨fs, eb, n, mb, pb⟩ := b
  refine ⟨es ++ fs, (ea.trans eb).congr fun j _ => only_append p es fs j, m ++ n, ?_, ?_⟩
  · refine (Act.AllOn.frame as ma fun i hi => ?_).append mb
    obtain ⟨hlo, hhi⟩ := (mem_newObjects ea.length_le).mp (pa.mem_iff.mp hi)
    rw [eb.get i hhi, only_of_ne fs (by omega)]
    cases h₂[i]? <;> simp
  · rw [← newObjects_append ea.length_le eb.length_le]
    exact pa.append pb

theorem Grown.lt_length {q : Nat} {made : Act}
    {heard : List Act} (a : Grown h h' told (.object q) (.object made heard)) : q < h'.length := by
  obtain ⟨_, _, ⟨i, o, _, _, hv, ho, _⟩, _⟩ := a
  obtain rfl : q = i := by simpa using hv
  exact (List.getElem?_eq_some_iff.mp ho).1

/-- An object that is wired after it was made has heard all of it. -/
theorem Grown.hear {q : Nat} {made : Act}
    {heard : List Act} (a : Grown h₁ h₂ told (.object q) (.object made heard))
    (b : Wired h₂ h₃ q acts) : Grown h₁ h₃ told (.object q) (.object made (heard ++ acts)) := by
  obtain ⟨ea, met, ⟨i, o, m, n, hv, ho, hm, hn, rfl⟩, pa⟩ := a
  obtain ⟨es, eb, new, mb, pb⟩ := b
  obtain rfl : q = i := by simpa using hv
  have hnd : (q :: (m ++ n)).Nodup := pa.nodup_iff.mpr nodup_range'
  have bound : ∀ i ∈ q :: (m ++ n), h₁.length ≤ i ∧ i < h₂.length := fun i hi =>
    (mem_newObjects ea.length_le).mp (pa.mem_iff.mp hi)
  have kept : ∀ i ∈ m ++ n, h₃[i]? = h₂[i]? := fun i hi => by
    have hne : i ≠ q := fun h => (nodup_cons.mp hnd).1 (h ▸ hi)
    rw [eb.get i (bound i (mem_cons_of_mem _ hi)).2, only_of_ne es hne]
    cases h₂[i]? <;> simp
  refine ⟨(ea.trans eb).congr fun j hj => ?_, q :: (m ++ (n ++ new)), ?_, ?_⟩
  · have := (bound q mem_cons_self).1
    rw [only_of_ne es (by omega), List.append_nil]
  · refine ⟨q, o.hear es, m, n ++ new, rfl, ?_, ?_, ?_, rfl⟩
    · rw [eb.get q (bound q mem_cons_self).2, ho]; simp
    · exact Act.On.frame made hm fun i hi => kept i (mem_append_left _ hi)
    · exact (Act.AllOn.frame heard hn fun i hi => kept i (mem_append_right _ hi)).append mb
  · rw [← newObjects_append ea.length_le eb.length_le, ← List.append_assoc, ← cons_append]
    exact pa.append pb

/-- A call on an object of `h` leaves what is new as it is. -/
theorem Grown.tell (a : Grown h h' told v t) (hp : p < h.length) (e : Message) :
    Grown h (h'.tell p e) (fun j => told j ++ only p [e] j) v t := by
  obtain ⟨ea, met, ht, pa⟩ := a
  refine ⟨ea.trans (.tell h' p e), met, ?_, ?_⟩
  · refine Shape.On.frame t ht fun i hi => ?_
    obtain ⟨hlo, hhi⟩ := (mem_newObjects ea.length_le).mp (pa.mem_iff.mp hi)
    rw [(Extends.tell h' p e).get i hhi, only_of_ne [e] (by omega)]
    cases h'[i]? <;> simp
  · simpa [newObjects, Heap.tell] using pa

/-- A new value is wired by the call that gets it as its first argument, before others that are data. -/
theorem Grown.wired (a : Grown h h' (only p [⟨method, v :: vs⟩]) v t)
    (data : Shape.AllOn h' ts vs []) : Wired h h' p [.call method (t :: ts)] := by
  obtain ⟨ea, met, ht, pa⟩ := a
  refine ⟨_, ea, met, ⟨_, [], met, [], rfl, ⟨rfl, v, vs, met, [], rfl, ht, data, ?_⟩, ⟨rfl, rfl⟩, ?_⟩,
    pa⟩ <;> simp

theorem Wired.tell (data : Shape.AllOn (h.tell p ⟨method, vs⟩) ts vs []) :
    Wired h (h.tell p ⟨method, vs⟩) p [.call method ts] :=
  ⟨_, .tell h p _, [], ⟨_, [], [], [], rfl, ⟨rfl, data⟩, ⟨rfl, rfl⟩, rfl⟩,
    by simp [newObjects, Heap.tell]⟩

/-! ### Running statements -/

theorem Stmt.runAll_append : ∀ (as bs : List Stmt) (st : State),
    Stmt.runAll (as ++ bs) st = (Stmt.runAll as st).bind (Stmt.runAll bs)
  | [], _, _ => by simp [Stmt.runAll]
  | a :: as, bs, st => by
      simp only [cons_append, Stmt.runAll]
      split
      · next h => cases bs <;> simp [Stmt.runAll, h]
      · cases a.run st with
        | none => rfl
        | some st' => simpa using Stmt.runAll_append as bs st'

/-- From any heap, the statements wire `acts` to the object `p` and leave the scopes as they are. -/
def Builds (stmts : List Stmt) (scopes : List Scope) (p : Nat) (acts : List Act) : Prop :=
  ∀ h : Heap, p < h.length → ∃ h', Stmt.runAll stmts { scopes, heap := h } =
    some { scopes, heap := h' } ∧ Wired h h' p acts

theorem Builds.nil (scopes : List Scope) (p : Nat) : Builds [] scopes p [] :=
  fun h _ => ⟨h, by simp [Stmt.runAll], .refl h p⟩

theorem Builds.comment (text : String) (scopes : List Scope) (p : Nat) :
    Builds [.step (.comment text)] scopes p [] :=
  fun h _ => ⟨h, by simp [Stmt.runAll, Stmt.run, Step.run], .refl h p⟩

theorem Builds.append {as bs : List Stmt} {xs ys : List Act}
    (a : Builds as scopes p xs) (b : Builds bs scopes p ys) :
    Builds (as ++ bs) scopes p (xs ++ ys) := by
  intro h hp
  obtain ⟨h₁, run₁, w₁⟩ := a h hp
  obtain ⟨h₂, run₂, w₂⟩ := b h₁ (hp.trans_le w₁.length_le)
  exact ⟨h₂, by rw [Stmt.runAll_append, run₁]; exact run₂, w₁.trans hp w₂⟩

theorem denoted_self (x : String) (v : Val) (outer : List Scope) :
    denoted x ([(x, v)] :: outer) = some v := by
  simp [denoted]

theorem denoted_of_ne {x y : String} (v : Val) (outer : List Scope) (h : y ≠ x) :
    denoted y ([(x, v)] :: outer) = denoted y outer := by
  simp [denoted, lookup_cons, beq_false_of_ne h]

theorem Stmt.runAll_define {e : Expr} (x : String)
    (rest : List Stmt) (he : e.eval ([] :: scopes) h = some (v, h')) :
    Stmt.runAll (.step (.define x e) :: rest) { scopes := [] :: scopes, heap := h } =
      Stmt.runAll rest { scopes := [(x, v)] :: scopes, heap := h' } := by
  simp [Stmt.runAll, Stmt.run, Step.run, he]

theorem Stmt.runAll_call {i : Nat} (rest : List Stmt) (ho : denoted o scopes = some (.object i))
    (ha : Expr.evalAll scopes args h = some (vs, h')) :
    Stmt.runAll (.step (.eval (.call (.select (.name o) method) args)) :: rest)
        { scopes, heap := h } =
      Stmt.runAll rest { scopes, heap := h'.tell i ⟨method, vs⟩ } := by
  simp [Stmt.runAll, Stmt.run, Step.run, ho, ha]

/-- The expressions are data with these shapes, whatever the scopes and the heap. -/
def Data (es : List Expr) (ts : List Shape) : Prop :=
  ∃ vs, (∀ scopes h, Expr.evalAll scopes es h = some (vs, h)) ∧ ∀ h, Shape.AllOn h ts vs []

theorem Data.nil : Data [] [] := ⟨[], fun _ _ => rfl, fun _ => ⟨rfl, rfl⟩⟩

theorem Data.literal (text : String) :
    Data es ts → Data (.literal text :: es) (.literal text :: ts)
  | ⟨vs, eval, on⟩ => ⟨.literal text :: vs, fun scopes h => by simp [Expr.evalAll, Expr.eval, eval],
      fun h => ⟨_, vs, [], [], rfl, ⟨rfl, rfl⟩, on h, rfl⟩⟩

theorem Data.string (s : String) :
    Data es ts → Data (.string s :: es) (.string s :: ts)
  | ⟨vs, eval, on⟩ => ⟨.string s :: vs, fun scopes h => by simp [Expr.evalAll, Expr.eval, eval],
      fun h => ⟨_, vs, [], [], rfl, ⟨rfl, rfl⟩, on h, rfl⟩⟩

theorem Data.bool (b : Bool) (h : Data es ts) :
    Data (.bool b :: es) (.bool b :: ts) := h.literal _

theorem Data.int (n : Int) (h : Data es ts) :
    Data (.int n :: es) (.int n :: ts) := h.literal _

/-- A method call on the object `p` whose arguments are data. -/
theorem Builds.call (ho : denoted o scopes = some (.object p)) (data : Data args ts) :
    Builds [.step (.eval (.call (.select (.name o) method) args))] scopes p [.call method ts] := by
  obtain ⟨vs, eval, on⟩ := data
  exact fun h _ => ⟨h.tell p ⟨method, vs⟩, by rw [Stmt.runAll_call [] ho (eval scopes h)]; rfl,
    .tell (on _)⟩

theorem Builds.block {body : List Stmt} (run : ∀ h : Heap, p < h.length → ∃ scope h',
      Stmt.runAll body { scopes := [] :: scopes, heap := h } =
        some { scopes := scope :: scopes, heap := h' } ∧ Wired h h' p acts) :
    Builds [.block body] scopes p acts := by
  intro h hp
  obtain ⟨scope, h', hrun, w⟩ := run h hp
  exact ⟨h', by simp [Stmt.runAll, Stmt.run, hrun], w⟩

theorem Grown.make {name : String} {met : List Nat} (ext : Extends h h₁ (only p []))
    (args : Shape.AllOn h₁ ts vs met) (perm : met.Perm (newObjects h h₁)) :
    Grown h (h₁ ++ [{ made := ⟨name, vs⟩ }]) (only p []) (.object h₁.length)
      (.object (.call name ts) []) := by
  refine ⟨(ext.trans (.append h₁ _ p)).congr fun j _ => by simp, h₁.length :: (met ++ []), ?_, ?_⟩
  · refine ⟨h₁.length, { made := ⟨name, vs⟩ }, met, [], rfl, by simp, ⟨rfl, ?_⟩, ⟨rfl, rfl⟩, rfl⟩
    refine Shape.AllOn.frame ts args fun i hi => ?_
    have := ((mem_newObjects ext.length_le).mp (perm.mem_iff.mp hi)).2
    rw [getElem?_append_left this]
  · rw [List.append_nil, ← newObjects_append ext.length_le (by simp : h₁.length ≤ _)]
    have new : newObjects h₁ (h₁ ++ [{ made := ⟨name, vs⟩ }]) = [h₁.length] := by simp [newObjects]
    rw [new]
    exact (perm.cons _).trans (perm_append_singleton _ _).symm

/-- The call that hands the new object `x` to the object `p` before some data. -/
theorem Grown.hand {x : String} (a : Grown h h₁ (only p []) v t) (method : String)
    (hp : p < h.length) (ho : denoted o scopes = some (.object p)) (hx : denoted x scopes = some v)
    (data : Data args ts) : ∃ h₂ e,
      (∀ rest, Stmt.runAll
          (.step (.eval (.call (.select (.name o) method) (.name x :: args))) :: rest)
          { scopes, heap := h₁ } = Stmt.runAll rest { scopes, heap := h₂ }) ∧
      Grown h h₂ (only p [e]) v t ∧
      ∀ h₃ t', Grown h h₃ (only p [e]) v t' → Wired h h₃ p [.call method (t' :: ts)] := by
  obtain ⟨vs, eval, on⟩ := data
  have args : Expr.evalAll scopes (.name x :: args) h₁ = some (v :: vs, h₁) := by
    simp [Expr.evalAll, Expr.eval, hx, eval]
  refine ⟨h₁.tell p ⟨method, v :: vs⟩, ⟨method, v :: vs⟩,
    fun rest => Stmt.runAll_call rest ho args, ?_, fun h₃ t' grown => grown.wired (on h₃)⟩
  obtain ⟨ext, met⟩ := a.tell hp ⟨method, v :: vs⟩
  exact ⟨ext.congr fun j _ => by simp, met⟩

/-- A call with data makes a new object that has heard nothing. -/
theorem Grown.ofData {f : Expr} {name : String}
    (hf : f.function? = some name) (data : Data args ts) (scopes : List Scope) (h : Heap) (p : Nat) :
    ∃ h', (Expr.call f args).eval scopes h = some (.object h.length, h') ∧
      Grown h h' (only p []) (.object h.length) (.object (.call name ts) []) := by
  obtain ⟨vs, eval, on⟩ := data
  exact ⟨h ++ [{ made := ⟨name, vs⟩ }], by simp [Expr.eval, hf, eval],
    Grown.make (.refl h p) (on h) (by simp [newObjects])⟩

end GoTrees.Go
