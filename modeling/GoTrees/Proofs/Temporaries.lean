import GoTrees.Proofs.Emit
import GoTrees.Proofs.Scoping
import GoTrees.Proofs.Slots

/-!
# Temporaries of operands

The steps of an operand are tidy, and the variables they introduce are temporaries of its slot. One lemma
per emitting function says so; the recursion over operands and their arguments turns to a longer slot each
time, so the temporaries of different arguments, of an index and of a write-back are different by their
names alone.
-/

namespace GoTrees

open Go Slot List

variable (x : Context) {known : List String} {own : String → Prop} {e : Emission} {slot : String}

/-- What every generated method can refer to. -/
def ambient : List String := ["panic", "n", "agent"]

/-- The value can be held in a variable that the operand does not use. -/
theorem Emission.tidy_hold {x : String}
    (t : Tidy known own e.pre e.expr.names e.post) (new : ¬ own x) :
    Tidy known (fun y => own y ∨ y = x) (e.pre ++ [.define x e.expr]) [x] e.post := by
  have value : Tidy (known ++ e.expr.names) (· = x) [.define x e.expr] [x] [] :=
    .define (subset_append_right _ _)
  have held := t.seq value fun y hy h => new (h ▸ hy)
  rw [List.append_nil] at held
  exact held.use (by simp)

theorem Emission.tidy_statement (t : Tidy known own e.pre e.expr.names e.post) :
    Tidy known own e.statement [] [] :=
  (t.finish (.step (subset_append_right _ _) rfl)).settle

theorem Emission.tidy_bind {x : String}
    (t : Tidy known own e.pre e.expr.names e.post) (new : ¬ own x) :
    Tidy known (fun y => own y ∨ y = x) (e.bind x).1 (e.bind x).2.names [] := by
  rw [Emission.bind]
  split
  · next h =>
    rw [List.isEmpty_iff.mp h] at t
    exact t.widen fun _ => .inl
  · exact (e.tidy_hold t new).settle

namespace Context

/-! ### Constants -/

theorem names_scalar (native : String) (v : Value) :
    ∀ e ∈ (x.scalar native v).value, e.names = [] := by
  fun_cases scalar x native v <;> simp [Status.expr, enumMember, Expr.bool, Expr.int]

theorem names_literalFor (ty : ValueType) (type : String) (text : Option String) :
    ∀ e ∈ literalFor ty type text, e.names = [] := by
  fun_cases literalFor ty type text <;> simp [Status.expr, enumMember, Expr.nil]

theorem names_getD {o : Option Expr} (h : ∀ e ∈ o, e.names = []) : (o.getD .nil).names = [] := by
  cases o with
  | none => rfl
  | some e => exact h e rfl

theorem names_capture (native : String) (v : Value) (field : String) :
    (x.capture native v field).value.names = ["n"] := rfl

/-- A constant needs no steps, and refers to the receiver at most. -/
theorem tidy_constant (native : String) (v : Value) (slot : String)
    (own : String → Prop) :
    Tidy ambient own (x.constant native v slot).value.pre (x.constant native v slot).value.expr.names
      (x.constant native v slot).value.post := by
  have captured : ["n"] ⊆ ambient := by decide
  fun_cases constant x native v slot with
  | case1 => exact .nothing (nil_subset _)
  | case2 => exact .nothing captured
  | case3 => exact .nothing captured
  | case4 =>
    refine .nothing ?_
    have none := names_getD (names_scalar x native v)
    simp [Emission.inline, none]

/-! ### Agents -/

theorem names_assertedAgent (e : Expr) (className : String) :
    (assertedAgent e className).value.names = e.names := by
  rw [assertedAgent]
  split <;> rfl

theorem names_receiver (className : String) : (receiver className).value.names = ["agent"] :=
  names_assertedAgent agentVar className

theorem tidy_receiver (own : String → Prop) (className : String) :
    Tidy ambient own [] (receiver className).value.names [] := by
  rw [names_receiver]
  exact .nothing (by decide)

theorem tidy_namedAgent (name className slot : String) :
    Tidy ambient (· = agent slot) (x.namedAgent name className slot).value.1
      (x.namedAgent name className slot).value.2.names [] := by
  rw [namedAgent]
  split
  · refine (Tidy.define (x := agent slot) ?_).use ?_
    · simp [agentVar, ambient]
    · simp [names_assertedAgent, agent]
  · refine (Tidy.define (x := agent slot) ?_).use ?_
    · simp [names_receiver, ambient]
    · simp [agent]

theorem tidy_ownerOf (p : Property) (slot : String) :
    Tidy ambient (· = agent slot) (x.ownerOf p slot).value.1 (x.ownerOf p slot).value.2.names [] := by
  rw [ownerOf]
  split
  · exact tidy_receiver _ _
  · exact tidy_namedAgent ..

/-! ### Properties -/

theorem names_lookupArgs (p : Property) : Expr.allNames (lookupArgs p) = [] := rfl

theorem names_stored (p : Property) (owner : Expr) (type : String) :
    (stored p owner type).names = owner.names := by
  simp [stored, names_lookupArgs]

theorem names_memberAccess (p : Property) (owner : Expr) :
    (memberAccess p owner).value.names ⊆ owner.names := by
  rw [memberAccess]
  split
  · exact nil_subset _
  · exact List.Subset.refl _

def indexNames (i : Option Expr) : List String := i.elim [] Expr.names

theorem names_indexed (e : Expr) (i : Option Expr) : (indexed e i).names = e.names ++ indexNames i := by
  cases i <;> simp [indexed, indexNames]

theorem tidy_checkId (known : List String) (own : String → Prop) (p : Property) :
    Tidy known own [(checkId p).value] [] [] :=
  .step (by simp [checkId, Step.InScope, names_lookupArgs]) rfl

theorem tidy_checked (p : Property) {s : Step}
    (h : s.InScope known) (none : s.introduced = []) :
    Tidy known own [(checkId p).value, s] [] [] :=
  (tidy_checkId known own p).finish (.step (h.mono (subset_append_left _ _)) none)

theorem tidy_readFrom (p : Property)
    {owner : Expr} {i : Option Expr} (h : owner.names ++ indexNames i ⊆ known) :
    Tidy known own (x.readFrom p owner i).value.1 (x.readFrom p owner i).value.2.names [] := by
  rw [readFrom]
  split
  · refine (tidy_checkId known own p).use ?_
    simpa [names_indexed, names_stored] using h
  · refine .nothing ?_
    have field := names_memberAccess p owner
    simp only [Emit.value_bind, Emit.value_pure, names_indexed]
    exact List.Subset.trans (append_subset_append field _) h

theorem tidy_writeTo (p : Property)
    {owner value : Expr} {i : Option Expr} (h : owner.names ++ indexNames i ⊆ known)
    (hv : value.names ⊆ known) : Tidy known own (x.writeTo p owner i value).value [] [] := by
  obtain ⟨howner, hi⟩ := append_subset.mp h
  rw [writeTo]
  split
  · cases i with
    | some i =>
      refine tidy_checked p ?_ rfl
      simpa [Step.InScope, names_stored] using ⟨⟨howner, hi⟩, hv⟩
    | none =>
      refine tidy_checked p ?_ rfl
      simpa [Step.InScope, names_lookupArgs] using ⟨howner, hv⟩
  · refine .step ⟨?_, hv⟩ rfl
    have field := names_memberAccess p owner
    rw [names_indexed]
    exact List.Subset.trans (append_subset_append field _) h

/-! ### Variables -/

theorem post_readVariable (v : Variable) (slot : String) :
    (x.readVariable v slot).value.post = [] := by
  cases v with
  | const native value => rw [readVariable]; fun_cases constant x native value slot <;> rfl
  | property p => rfl
  | element p index => rfl

theorem Temporary.owns_or {y : String} : Temporary slot y ∨ y = slot → Owns slot y
  | .inl h => h.owns
  | .inr h => h ▸ .refl _

theorem tidy_bound (plain : Plain slot)
    (t : Tidy ambient (Temporary slot) e.pre e.expr.names e.post) :
    Tidy ambient (Owns slot) (e.bind slot).1 (e.bind slot).2.names [] :=
  (e.tidy_bind t fun h => h.ne plain rfl).widen fun _ => Temporary.owns_or

theorem tidy_owner (p : Property) (slot : String) :
    Tidy ambient (Temporary slot) (x.ownerOf p slot).value.1 (x.ownerOf p slot).value.2.names [] :=
  (tidy_ownerOf x p slot).widen fun _ => .inl

theorem tidy_place (p : Property) (plain : Plain slot)
    (t : Tidy ambient (Temporary (indexSlot slot)) e.pre e.expr.names e.post) :
    Tidy ambient (Temporary slot) ((x.ownerOf p slot).value.1 ++ (e.bind (indexSlot slot)).1)
      ((x.ownerOf p slot).value.2.names ++ (e.bind (indexSlot slot)).2.names) [] := by
  have index := tidy_bound (plain.append "Index") t
  refine ((tidy_ownerOf x p slot).append index ?_).widen fun y => Or.imp id .inl
  rintro y rfl
  exact not_owns_agent plain (by decide)

theorem tidy_readVariable (x : Context) : ∀ (v : Variable) {slot : String}, Plain slot →
    Tidy ambient (Temporary slot) (x.readVariable v slot).value.pre
      (x.readVariable v slot).value.expr.names (x.readVariable v slot).value.post
  | .const native value, slot, _ => tidy_constant x native value slot _
  | .property p, slot, _ => by
      have owner := tidy_owner x p slot
      exact owner.finish (tidy_readFrom x p (by simp [indexNames]))
  | .element p index, slot, plain => by
      have place := tidy_place x p plain (tidy_readVariable x index (plain.append "Index"))
      exact place.finish (tidy_readFrom x p (subset_append_right _ _))

theorem tidy_writeVariable (sub : ambient ⊆ known) (x : Context) (v : Variable)
    (value : Expr) (hv : value.names ⊆ known) (plain : Plain slot) :
    Tidy known (Temporary slot) (x.writeVariable v value slot).value [] [] := by
  cases v with
  | const native value => exact .nothing (nil_subset _)
  | property p =>
    have owner := (tidy_owner x p slot).mono sub
    exact owner.finish (tidy_writeTo x p (by simp [indexNames]) (subset_append_of_subset_left _ hv))
  | element p index =>
    have place := (tidy_place x p plain (tidy_readVariable x index (plain.append "Index"))).mono sub
    exact place.finish (tidy_writeTo x p (subset_append_right _ _)
      (subset_append_of_subset_left _ hv))

/-! ### Calls -/

/-- The arguments are tidy, with temporaries of the set. -/
def Arguments.Tidy (own : String → Prop) (a : Arguments) : Prop :=
  Go.Tidy ambient own a.pre (Expr.allNames a.exprs) a.post

theorem Arguments.tidy_append {own' : String → Prop} {a b : Arguments} (ha : a.Tidy own)
    (hb : b.Tidy own') (apart : ∀ y, own y → ¬ own' y) :
    (a.append b).Tidy fun y => own y ∨ own' y := by
  have both := Go.Tidy.append ha hb apart
  rwa [← Expr.allNames_append] at both

theorem value_defaultLiteral (native : String) (text : Option String) :
    (x.defaultLiteral native text).value =
      literalFor (x.catalog.classify native) (x.goType native).value text := by
  simp only [defaultLiteral, Emit.value_bind]
  split <;> rfl

theorem names_defaultLiteral (native : String) :
    ((x.defaultLiteral native none).value.getD .nil).names = [] := by
  rw [value_defaultLiteral]
  exact names_getD (names_literalFor _ _ _)

theorem tidy_unboundArgument (p : Param) (own : String → Prop) :
    (x.unboundArgument p).value.Tidy own := by
  have none := x.names_defaultLiteral p.type
  exact .nothing (by simp [unboundArgument, none])

theorem tidy_unboundArguments (x : Context) (own : String → Prop) : ∀ ps : List Param,
    (x.unboundArguments ps).value.Tidy own
  | [] => .nothing (nil_subset _)
  | p :: ps => by
      have rest := tidy_unboundArguments x (fun _ => False) ps
      refine (Arguments.tidy_append (tidy_unboundArgument x p own) rest fun _ _ => id).widen ?_
      simp

theorem tidy_constArgument (p : Param) (native : String) (v : Value) (slot : String) :
    (x.constArgument p native v slot).value.Tidy (Owns slot) := by
  have field : (x.capture native v slot).value.names ⊆ ambient := by rw [names_capture]; decide
  rw [constArgument]
  split
  · exact (Go.Tidy.define field).widen fun y (h : y = slot) => h ▸ .refl slot
  · exact .nothing (by simpa using field)

/-- An argument that is a variable introduces variables of its slot. -/
theorem tidy_variableArgument (p : Param) (v : Variable) (plain : Plain slot) :
    (x.variableArgument p v (x.readVariable v slot).value slot).value.Tidy (Owns slot) := by
  have read := tidy_readVariable x v plain
  rw [variableArgument]
  split
  · have held := Emission.tidy_hold read fun h => h.ne plain rfl
    rw [post_readVariable] at held
    cases isWritable v
    · exact held.widen fun _ => Temporary.owns_or
    · have write := tidy_writeVariable (subset_append_left ambient [slot]) x v (.name slot)
        (subset_append_right ambient [slot]) (plain.append "Out")
      -- the write-back evaluates the index again, under a slot of its own
      have apart : ∀ y, Temporary slot y ∨ y = slot → ¬ Temporary (slot ++ "Out") y := by
        rintro y (h | rfl) out
        · exact h.not_owns plain (k := "Out") rfl (by decide) (by decide) out.owns
        · exact not_owns_self plain (by decide) out.owns
      refine (held.follow write apart).widen ?_
      rintro y (h | h)
      · exact Temporary.owns_or h
      · exact h.owns.shorten (under_append (by decide))
  · rw [post_readVariable] at read
    refine (read.widen fun y => Temporary.owns).use ?_
    simp

theorem tidy_callArgument (p : Param) (plain : Plain slot)
    (t : Tidy ambient (Temporary slot) e.pre e.expr.names e.post) :
    (callArgument p e slot).Tidy (Owns slot) := by
  rw [callArgument]
  split
  · exact ((e.tidy_hold t fun h => h.ne plain rfl).settle).widen fun _ => Temporary.owns_or
  · refine (tidy_bound plain t).use ?_
    simp

def givenArgument (x : Context) (p : Param) (o : Operand) (slot : String) : Emit Arguments :=
  match o with
  | .var (.const native value) => x.constArgument p native value slot
  | .var v => do x.variableArgument p v (← x.readVariable v slot) slot
  | .call .. => do return callArgument p (← x.operand o slot) slot

theorem arguments_some (p : Param) (params : List Param) (o : Operand)
    (args : List (Option Operand)) (slot : String) (i : Nat) :
    x.arguments (p :: params) (some o :: args) slot i = do
      let a ← x.givenArgument p o (argSlot slot i)
      return a.append (← x.arguments params args slot (i + 1)) := by
  cases o with
  | var v => cases v <;> simp only [arguments, givenArgument, bind_assoc]
  | call m nested => simp only [arguments, givenArgument, bind_assoc]

theorem tidy_givenArgument (p : Param) (o : Operand) (plain : Plain slot)
    (t : Tidy ambient (Temporary slot) (x.operand o slot).value.pre (x.operand o slot).value.expr.names
      (x.operand o slot).value.post) :
    (x.givenArgument p o slot).value.Tidy (Owns slot) := by
  fun_cases givenArgument x p o slot with
  | case1 => exact tidy_constArgument ..
  | case2 v => exact tidy_variableArgument x p v plain
  | case3 => exact tidy_callArgument p plain t

theorem tidy_invoke (m : Method) {args : Arguments} (plain : Plain slot)
    (t : args.Tidy fun y => ∃ i, Owns (slot ++ argument i) y) :
    Tidy ambient (Temporary slot) (x.invoke m args slot).value.pre
      (x.invoke m args slot).value.expr.names (x.invoke m args slot).value.post := by
  have call {steps : List Step} {target : Expr}
      (owner : Tidy ambient (· = agent slot) steps target.names []) :
      Tidy ambient (Temporary slot) (steps ++ args.pre) (target.names ++ Expr.allNames args.exprs)
        args.post := by
    refine (owner.append t ?_).widen fun y => Or.imp id .inr
    rintro y rfl ⟨i, h⟩
    exact not_owns_agent plain (argument_ne i) h
  rw [invoke]
  split
  · exact call (tidy_receiver _ m.className)
  · exact call (tidy_namedAgent ..)

mutual

theorem tidy_operand (x : Context) : ∀ (o : Operand) {slot : String}, Plain slot →
    Tidy ambient (Temporary slot) (x.operand o slot).value.pre (x.operand o slot).value.expr.names
      (x.operand o slot).value.post
  | .var v, _, plain => tidy_readVariable x v plain
  | .call m args, slot, plain => by
      refine tidy_invoke x m plain ((tidy_arguments x m.params args plain 0).widen ?_)
      rintro y ⟨i, _, h⟩
      exact ⟨i, h⟩

/-- Each argument introduces variables of a slot of its own. -/
theorem tidy_arguments (x : Context) : ∀ (params : List Param) (args : List (Option Operand))
    {slot : String}, Plain slot → ∀ i,
      (x.arguments params args slot i).value.Tidy fun y => ∃ j, i ≤ j ∧ Owns (slot ++ argument j) y
  | [], _, _, _, _ => by
      rw [arguments]
      exact .nothing (nil_subset _)
  | p :: params, [], _, _, _ => by
      rw [arguments]
      · exact tidy_unboundArguments x _ (p :: params)
      · exact nofun
  | p :: params, none :: args, slot, plain, i => by
      have rest := tidy_arguments x params args plain (i + 1)
      have first := tidy_unboundArgument x p fun _ => False
      rw [arguments]
      refine (Arguments.tidy_append first rest fun _ h => h.elim).widen ?_
      rintro y (h | ⟨j, le, h⟩)
      · exact h.elim
      · exact ⟨j, by omega, h⟩
  | p :: params, some o :: args, slot, plain, i => by
      have rest := tidy_arguments x params args plain (i + 1)
      have nested := tidy_operand x o (plain.append (argument i))
      have first := tidy_givenArgument x p o (plain.append (argument i)) nested
      rw [arguments_some, argSlot_eq]
      refine (Arguments.tidy_append first rest ?_).widen ?_
      · -- the rest starts at the next number, and different numbers are different turns
        rintro y h ⟨j, le, h'⟩
        have ne : i ≠ j := by omega
        exact h.not_owns (plain.append _) (plain.append _)
          (apart_append_left.mpr (apart_argument ne)) h'
      · rintro y (h | ⟨j, le, h⟩)
        · exact ⟨i, Nat.le_refl i, h⟩
        · exact ⟨j, by omega, h⟩

end

end Context

end GoTrees
