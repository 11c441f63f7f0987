import GoTrees.Proofs.Emit
import GoTrees.Proofs.Machine
import GoTrees.Proofs.Names

/-!
# The code of a tree rebuilds the tree

The method that a behavior becomes is run on a heap of objects, and the object that it answers has the
shape of the behavior: every enabled node that stands below neither a disabled node nor a reference is one
object with its id, wired to the object of its parent; the states of a state machine are wired to one
object of their own; attachments are attached to their owner. Every object of the heap is met exactly
once, so nothing is wired twice and nothing is left over.

Wiring goes by names, and `fsm` is declared again at every level, so the induction over the tree carries
what the name of the parent denotes in the scopes around a subtree. A node declares its own name before
it is wired, which must not hide its parent: that is where ids have to differ along a path.
-/

namespace GoTrees

open Go List

variable {parent : String} {scopes : List Scope} {p : Nat} {g : Generation}

mutual

/-- No enabled node has the id of an enabled node above it; `above` are the ids of those. -/
def Subtree.Apart (above : List Int) : Subtree → Prop
  | .mk n children =>
    if n.enabled then n.id ∉ above ∧ Subtree.AllApart (n.id :: above) children
    else Subtree.AllApart above children

/-- No enabled node in the subtrees has the id of an enabled node above it. -/
def Subtree.AllApart (above : List Int) : List Subtree → Prop
  | [] => True
  | t :: ts => t.Apart above ∧ Subtree.AllApart above ts

end

/-- No enabled node has the id of an enabled node above it. -/
def Behavior.Apart (b : Behavior) : Prop := Subtree.AllApart [] b.children

namespace Generation

/-! ### The tree at run time -/

/-- A new object of a class, else of a runtime type. -/
def objectShape (runtime : String × String) : Option String → Shape
  | some className => .object (.call ("New" ++ className) []) []
  | none => .object (.call (runtime.1 ++ "." ++ ("New" ++ runtime.2)) []) []

/-- The calls on its owner that an attachment leaves. -/
def attachActs (g : Generation) (tree : String) (a : Attachment) : List Act :=
  .call "Attach" [objectShape a.runtimeType (g.attachmentClass? tree a),
    .bool (isPrecondition a && !a.isTransition), .bool (isEffector a && !a.isTransition),
    .bool a.isTransition]
  :: if isEvent a then [.call "SetHasEvents" [.bool true]] else []

/-- The calls on their owner that the enabled attachments leave. -/
def attachmentActs (g : Generation) (tree : String) (as : List Attachment) : List Act :=
  (as.filter (·.enabled)).flatMap (g.attachActs tree)

/-- The call on its parent that a state machine leaves. -/
def machineAct (initial : Option Int) (states : List Act) : Act :=
  .call "AddChild" [.object (.call "bt.NewFSM" [.int (-1), .int (initial.getD (-1))]) states]

mutual

/-- The call on its parent that a subtree leaves; a disabled one leaves none. -/
def subtreeActs (g : Generation) (tree : String) : Subtree → List Act
  | .mk n children =>
    let made := .call "bt.NewNode" [.int n.id, objectShape n.runtimeType (g.nodeClass? tree n)]
    let below :=
      if n.kind.isReference then []
      else if n.fsm then [machineAct n.initialState (g.subtreesActs tree children)]
      else g.subtreesActs tree children
    if n.enabled then
      [.call (if n.asChild then "AddChild" else "SetCustomCondition")
        [.object made (g.attachmentActs tree n.attachments ++ below)]]
    else []

/-- The calls on their parent that subtrees leave. -/
def subtreesActs (g : Generation) (tree : String) : List Subtree → List Act
  | [] => []
  | t :: ts => g.subtreeActs tree t ++ g.subtreesActs tree ts

end

/-- The call that adds a local variable to a tree. -/
def localAct (g : Generation) (b : Behavior) (l : Local) : Act :=
  .call "AddLocal" [.string b.agentType, .string (GoType.ofNative g.config.renames l.type),
    .string l.name, .string l.initial]

/-- The tree of a behavior at run time. -/
def runtimeTree (g : Generation) (b : Behavior) : Shape :=
  let children := g.subtreesActs b.className b.children
  .object (.call "bt.NewTree" [.string b.name])
    (b.locals.map (g.localAct b) ++ g.attachmentActs b.className b.attachments
      ++ if b.fsm then [machineAct b.initialState children] else children)

/-! ### Wiring one object -/

theorem eval_construct (runtime : String × String) (className : Option String) (scopes : List Scope)
    (h : Heap) (p : Nat) : ∃ h', (construct runtime className).value.eval scopes h =
      some (.object h.length, h') ∧ Grown h h' (only p []) (.object h.length)
        (objectShape runtime className) := by
  cases className with
  | none => exact Grown.ofData rfl .nil scopes h p
  | some className => exact Grown.ofData rfl .nil scopes h p

/-- A machine is made, and its states are added to it. -/
theorem machine_builds {states : List Stmt}
    {acts : List Act} (initial : Option Int) (owner : denoted parent scopes = some (.object p))
    (hne : parent ≠ "fsm") (wires : ∀ q, Builds states ([("fsm", .object q)] :: scopes) q acts) :
    Builds [machine parent initial states] scopes p [machineAct initial acts] := by
  refine Builds.block fun h hp => ?_
  obtain ⟨h₁, made, grown⟩ := Grown.ofData (f := .member "bt" "NewFSM") rfl
    (.int (-1) (.int (initial.getD (-1)) .nil)) ([] :: scopes) h p
  obtain ⟨h₂, run₂, wired⟩ := wires h.length h₁ grown.lt_length
  have owner₁ : denoted parent ([("fsm", .object h.length)] :: scopes) = some (.object p) := by
    rw [denoted_of_ne _ _ hne, owner]
  obtain ⟨h₃, e, run₃, grown₃, wire⟩ :=
    (grown.hear wired).hand "AddChild" hp owner₁ (denoted_self ..) .nil
  refine ⟨[("fsm", .object h.length)], h₃, ?_, wire h₃ _ grown₃⟩
  rw [cons_append, List.nil_append, cons_append, Stmt.runAll_define _ _ made,
    Stmt.runAll_append, run₂]
  exact run₃ []

theorem eval_newNode (n : Node) (className : Option String) (scopes : List Scope) (h : Heap) (p : Nat) :
    ∃ q h', (Expr.call (.member "bt" "NewNode")
        [.int n.id, (construct n.runtimeType className).value]).eval scopes h = some (.object q, h') ∧
      Grown h h' (only p []) (.object q) (.object (.call "bt.NewNode"
        [.int n.id, objectShape n.runtimeType className]) []) := by
  obtain ⟨h₁, made, ext, met, on, perm⟩ := eval_construct n.runtimeType className scopes h p
  refine ⟨h₁.length, _, by simp [Expr.eval, Expr.evalAll, Expr.function?, Expr.int, made]; rfl,
    Grown.make ext ?_ perm⟩
  exact ⟨_, _, [], met, rfl, ⟨rfl, rfl⟩, ⟨_, [], met, [], rfl, on, ⟨rfl, rfl⟩, by simp⟩, rfl⟩

theorem locals_builds (g : Generation) (b : Behavior) (owner : denoted "tree" scopes = some (.object p)) :
    ∀ ls : List Local, Builds (ls.map fun l => callOn "tree" "AddLocal"
      [.string b.agentType, .string (GoType.ofNative g.config.renames l.type), .string l.name,
       .string l.initial]) scopes p (ls.map (g.localAct b))
  | [] => Builds.nil scopes p
  | l :: ls => by
      have first : Builds [callOn "tree" "AddLocal" [.string b.agentType,
          .string (GoType.ofNative g.config.renames l.type), .string l.name, .string l.initial]]
          scopes p [g.localAct b l] :=
        Builds.call owner (.string _ (.string _ (.string _ (.string _ .nil))))
      exact first.append (locals_builds g b owner ls)

theorem addLocals_builds (g : Generation) (b : Behavior) (owner : denoted "tree" scopes = some (.object p)) :
    Builds (g.addLocals b) scopes p (b.locals.map (g.localAct b)) := by
  have each := locals_builds g b owner b.locals
  rw [addLocals]
  split
  · next none => rw [List.isEmpty_iff.mp none] at each ⊢; exact each
  · exact (Builds.comment "locals" scopes p).append each

/-- What a subtree becomes: nothing if it is disabled, else one block with all that is below the node
after the node itself. -/
theorem value_build (g : Generation) (tree parent : String) (n : Node) (children : List Subtree) :
    (g.build tree (.mk n children) parent).value =
      if n.enabled then [.block ((g.createAndWire tree parent n).value ++
        if n.kind.isReference then []
        else if n.fsm then [machine n.name n.initialState (g.buildAll tree children "fsm").value]
        else (g.buildAll tree children n.name).value)]
      else [] := by
  simp only [build]
  cases n.enabled <;> cases n.kind.isReference <;> cases n.fsm <;> simp

section Builtin

variable {g : Generation} (builtin : g.registry = .builtin) (tree : String)

include builtin

/-- An attachment is created, set up and attached to its parent. -/
theorem attach_builds (a : Attachment)
    (owner : denoted parent scopes = some (.object p)) (hne : parent ≠ a.name) :
    Builds [(g.attach tree parent a).value] scopes p (g.attachActs tree a) := by
  simp only [attach, builtin, Registry.builtin_createAttachment, createAttachment, Emit.value_bind,
    Emit.value_pure, cons_append, List.nil_append]
  refine Builds.block fun h hp => ?_
  obtain ⟨h₁, made, grown⟩ :=
    eval_construct a.runtimeType (g.attachmentClass? tree a) ([] :: scopes) h p
  -- inside the block the owner is still seen, past the name of the attachment
  have owner₁ : denoted parent ([(a.name, .object h.length)] :: scopes) = some (.object p) := by
    rw [denoted_of_ne _ _ hne, owner]
  obtain ⟨h₂, e, run, grown₂, wire⟩ := grown.hand "Attach" hp owner₁ (denoted_self ..)
    (.bool (isPrecondition a && !a.isTransition) (.bool (isEffector a && !a.isTransition)
      (.bool a.isTransition .nil)))
  have wired := wire h₂ _ grown₂
  have events : Builds (if isEvent a then [callOn parent "SetHasEvents" [.bool true]] else [])
      ([(a.name, .object h.length)] :: scopes) p
      (if isEvent a then [.call "SetHasEvents" [.bool true]] else []) := by
    split
    · exact Builds.call owner₁ (.bool true .nil)
    · exact Builds.nil _ _
  obtain ⟨h₃, run₃, wired₃⟩ := events h₂ (hp.trans_le wired.length_le)
  refine ⟨[(a.name, .object h.length)], h₃, ?_, wired.trans hp wired₃⟩
  rw [Stmt.runAll_define _ _ made, callOn, run, run₃]

theorem attachEach_builds (owner : denoted parent scopes = some (.object p)) :
    ∀ as : List Attachment, (∀ a ∈ as, parent ≠ a.name) →
      Builds (g.attachEach tree parent as).value scopes p (as.flatMap (g.attachActs tree))
  | [], _ => Builds.nil scopes p
  | a :: as, hne => by
      have first := attach_builds builtin tree a owner (hne a mem_cons_self)
      have rest := attachEach_builds owner as fun a' ha' => hne a' (mem_cons_of_mem _ ha')
      exact first.append rest

theorem attachAll_builds (as : List Attachment)
    (owner : denoted parent scopes = some (.object p)) (hne : ∀ a ∈ as, parent ≠ a.name) :
    Builds (g.attachAll tree parent as).value scopes p (g.attachmentActs tree as) := by
  have each := attachEach_builds builtin tree owner (as.filter (·.enabled))
    fun a ha => hne a (mem_of_mem_filter ha)
  simp only [attachAll, Emit.value_bind, Emit.value_pure]
  split
  · next none => rw [List.isEmpty_iff.mp none] at each; exact each
  · exact (Builds.comment "attachments" scopes p).append each

/-- A node is created, set up and added to its parent with all below it. -/
theorem node_builds {below : List Stmt}
    {acts : List Act} (n : Node) (owner : denoted parent scopes = some (.object p))
    (hne : parent ≠ n.name) (wires : ∀ q, Builds below ([(n.name, .object q)] :: scopes) q acts) :
    Builds [.block ((g.createAndWire tree parent n).value ++ below)] scopes p
      [.call (if n.asChild then "AddChild" else "SetCustomCondition")
        [.object (.call "bt.NewNode" [.int n.id, objectShape n.runtimeType (g.nodeClass? tree n)])
          (g.attachmentActs tree n.attachments ++ acts)]] := by
  refine Builds.block fun h hp => ?_
  obtain ⟨q, h₁, made, grown⟩ := eval_newNode n (g.nodeClass? tree n) ([] :: scopes) h p
  have attachments := attachAll_builds builtin tree n.attachments
    (denoted_self n.name (.object q) scopes)
    fun a _ => a.name_ne_of_head (by rw [Node.toList_name]; simp)
  obtain ⟨h₂, run₂, wired⟩ := attachments h₁ grown.lt_length
  have grown₂ := grown.hear wired
  have owner₁ : denoted parent ([(n.name, .object q)] :: scopes) = some (.object p) := by
    rw [denoted_of_ne _ _ hne, owner]
  obtain ⟨h₃, e, run₃, grown₃, wire⟩ :=
    grown₂.hand (if n.asChild then "AddChild" else "SetCustomCondition") hp owner₁ (denoted_self ..)
      .nil
  obtain ⟨h₄, run₄, wired₄⟩ := wires q h₃ grown₃.lt_length
  have grown₄ := grown₃.hear wired₄
  rw [List.nil_append] at grown₄
  refine ⟨[(n.name, .object q)], h₄, ?_, wire h₄ _ grown₄⟩
  simp only [createAndWire, builtin, Registry.builtin_create, createNode, Emit.value_bind,
    Emit.value_pure, cons_append, List.nil_append, List.append_assoc, callOn]
  rw [Stmt.runAll_define _ _ made, Stmt.runAll_append, run₂, Option.bind_some, run₃, run₄]

end Builtin

mutual

/-- The code of a subtree adds the objects of the subtree to its parent. -/
theorem build_builds (builtin : g.registry = .builtin) (tree : String) :
    ∀ (t : Subtree) {above : List Int} {parent : String} {scopes : List Scope} {p : Nat},
    t.Apart above → (∀ n : Node, n.id ∉ above → parent ≠ n.name) →
    denoted parent scopes = some (.object p) →
    Builds (g.build tree t parent).value scopes p (g.subtreeActs tree t)
  | .mk n children, above, parent, scopes, p, apart, hne, owner => by
      rw [value_build, subtreeActs]
      by_cases enabled : n.enabled = true
      swap
      · rw [if_neg enabled, if_neg enabled]; exact Builds.nil scopes p
      rw [if_pos enabled, if_pos enabled]
      rw [Subtree.Apart, if_pos enabled] at apart
      refine node_builds builtin tree n owner (hne n apart.1) fun q => ?_
      have self : denoted n.name ([(n.name, .object q)] :: scopes) = some (.object q) :=
        denoted_self ..
      split
      · exact Builds.nil _ q
      split
      · -- the states are wired to the state machine, whose name no node has
        refine machine_builds n.initialState self (Ne.symm (n.name_ne_of_head (by simp))) fun q' => ?_
        exact buildAll_builds builtin tree children apart.2 (fun m _ => m.name_ne_of_head (by simp))
          (denoted_self ..)
      · refine buildAll_builds builtin tree children apart.2 (fun m hm heq => hm ?_) self
        rw [← Node.name_inj.mp heq]
        exact mem_cons_self

theorem buildAll_builds (builtin : g.registry = .builtin) (tree : String) :
    ∀ (ts : List Subtree) {above : List Int} {parent : String} {scopes : List Scope} {p : Nat},
    Subtree.AllApart above ts →
    (∀ n : Node, n.id ∉ above → parent ≠ n.name) → denoted parent scopes = some (.object p) →
    Builds (g.buildAll tree ts parent).value scopes p (g.subtreesActs tree ts)
  | [], _, _, scopes, p, _, _, _ => Builds.nil scopes p
  | t :: ts, _, _, _, _, apart, hne, owner =>
      (build_builds builtin tree t apart.1 hne owner).append
        (buildAll_builds builtin tree ts apart.2 hne owner)

end

theorem children_builds (builtin : g.registry = .builtin) (b : Behavior)
    (apart : b.Apart) (owner : denoted "tree" scopes = some (.object p)) :
    Builds (if b.fsm then [machine "tree" b.initialState
          (g.buildAll b.className b.children "fsm").value]
        else (g.buildAll b.className b.children "tree").value) scopes p
      (if b.fsm then [machineAct b.initialState (g.subtreesActs b.className b.children)]
        else g.subtreesActs b.className b.children) := by
  split
  · refine machine_builds b.initialState owner (by decide) fun q => ?_
    exact buildAll_builds builtin b.className b.children apart
      (fun m _ => m.name_ne_of_head (by simp)) (denoted_self ..)
  · exact buildAll_builds builtin b.className b.children apart
      (fun m _ => m.name_ne_of_head (by simp)) owner

/-- The method that builds a tree makes it, and then adds locals, attachments and nodes. -/
theorem value_treeBody (g : Generation) (b : Behavior) : (g.treeBody b).value =
    .step (.define "tree" (.call (.member "bt" "NewTree") [.string b.name])) ::
      (g.addLocals b ++ (g.attachAll b.className "tree" b.attachments).value
        ++ [.step (.comment "children")]
        ++ (if b.fsm then [machine "tree" b.initialState
              (g.buildAll b.className b.children "fsm").value]
            else (g.buildAll b.className b.children "tree").value)
        ++ [.step (.ret (.name "tree"))]) := by
  simp only [treeBody]
  cases b.fsm <;> simp

/-- All that stands between the first and the last step of the method is wired to the tree. -/
theorem treeBody_builds (builtin : g.registry = .builtin) (b : Behavior)
    (apart : b.Apart) (owner : denoted "tree" scopes = some (.object p)) :
    Builds (g.addLocals b ++ (g.attachAll b.className "tree" b.attachments).value
        ++ [.step (.comment "children")]
        ++ if b.fsm then [machine "tree" b.initialState
              (g.buildAll b.className b.children "fsm").value]
            else (g.buildAll b.className b.children "tree").value) scopes p
      (b.locals.map (g.localAct b) ++ g.attachmentActs b.className b.attachments
        ++ if b.fsm then [machineAct b.initialState (g.subtreesActs b.className b.children)]
          else g.subtreesActs b.className b.children) := by
  have locals := addLocals_builds g b owner
  have attachments := attachAll_builds builtin b.className b.attachments owner
    fun a _ => a.name_ne_of_head (by simp)
  have children := children_builds builtin b apart owner
  simpa using ((locals.append attachments).append (.comment "children" scopes p)).append children

/-- The last declaration of a behavior is the method `NewTree`. It answers the tree of the behavior, and
the heap holds nothing else: from the object that is answered, every object is met exactly once. -/
theorem newTree_rebuilds (x : Context) (b : Behavior) (apart : b.Apart) :
    ∃ before body root heap met,
      (behavior { toContext := x } b).value = before ++ [.func (newTree b body)] ∧
      call body = some (root, heap) ∧
      (runtimeTree { toContext := x } b).On heap root met ∧ met.Perm (List.range heap.length) := by
  have code := congrArg Emit.value (behavior_eq { toContext := x } b)
  obtain ⟨h₁, made, grown⟩ := Grown.ofData (f := .member "bt" "NewTree") rfl
    (.string b.name .nil) [[]] [] 0
  have self : denoted "tree" [[("tree", .object 0)]] = some (.object 0) := denoted_self ..
  obtain ⟨h₂, run, wired⟩ :=
    treeBody_builds (g := { toContext := x }) rfl b apart self h₁ grown.lt_length
  obtain ⟨_, met, on, perm⟩ := grown.hear wired
  refine ⟨_, _, .object 0, h₂, met, code, ?_, on,
    by simpa [newObjects, range_eq_range'] using perm⟩
  have last : Stmt.runAll [.step (.ret (.name "tree"))]
      { scopes := [[("tree", .object 0)]], heap := h₂ } =
      some { scopes := [[("tree", .object 0)]], heap := h₂, answer := some (.object 0) } := by
    simp [Stmt.runAll, Stmt.run, Step.run, Expr.eval, self]
  rw [call, value_treeBody, Stmt.runAll_define _ _ made, Stmt.runAll_append, length_nil, run,
    Option.bind_some, last]
  rfl

/-- A tree with a state machine inside a state machine, a custom condition, a disabled node, a reference
with nodes below it, and attachments. -/
def patrol : Behavior where
  name := "Patrol"
  path := "ai/patrol.xml"
  agentType := "Guard"
  locals := [{ name := "speed", type := "int", initial := "3" }]
  fsm := true
  initialState := some 1
  attachments := [{ id := 1, kind := .event { task := "Guard::alarm", tree := "ai/alarm" } }]
  children :=
    [.mk { id := 1, kind := .plain .sequence, fsm := true }
      [.mk { id := 2, kind := .plain .truth, asChild := false } [],
       .mk { id := 3, kind := .plain .noop, enabled := false } [.mk { id := 3, kind := .log "" } []]],
     .mk { id := 2, kind := .reference none,
           attachments := [{ id := 1, kind := .unknown "fx.Smoke", isTransition := true }] }
      [.mk { id := 4, kind := .plain .noop } []]]

theorem newTree_rebuilds_patrol : patrol.Apart ∧
    ∃ before body root heap met,
      (behavior { catalog := {} } patrol).value = before ++ [.func (newTree patrol body)] ∧
      call body = some (root, heap) ∧
      (runtimeTree { catalog := {} } patrol).On heap root met ∧ met.Perm (List.range heap.length) := by
  have apart : patrol.Apart := by
    simp [patrol, Behavior.Apart, Subtree.AllApart, Subtree.Apart]
  exact ⟨apart, newTree_rebuilds { catalog := {} } patrol apart⟩

end Generation

end GoTrees
