import GoTrees.Proofs.Emit

/-!
# Disabled parts leave no trace

Pruning a behavior removes each disabled node with all below it, each disabled attachment, and what
stands below references. The file of some behaviors is the file of the pruned ones, with its imports,
because every walk over a tree skips just what pruning removes, and what is skipped needs nothing. Pruning
also changes the nodes that stay, since they lose attachments, so the recipes must not look at these.
-/

namespace GoTrees

open Go List

variable {g : Generation}

def Node.prune (n : Node) : Node := { n with attachments := n.attachments.filter (·.enabled) }

mutual

/-- The subtree without its disabled parts, if the node at its top stays. -/
def Subtree.prune : Subtree → Subtree
  | .mk n children => .mk n.prune (if n.kind.isReference then [] else Subtree.pruneAll children)

/-- The enabled subtrees without their disabled parts. -/
def Subtree.pruneAll : List Subtree → List Subtree
  | [] => []
  | t :: ts => if t.node.enabled then t.prune :: Subtree.pruneAll ts else Subtree.pruneAll ts

end

/-- The behavior without its disabled parts. -/
def Behavior.prune (b : Behavior) : Behavior :=
  { b with
    attachments := b.attachments.filter (·.enabled)
    children := Subtree.pruneAll b.children }

/-! ### Recipes -/

/-- The recipe treats a node in the same way whatever is attached to it. -/
structure NodeRecipe.Blind (r : NodeRecipe) : Prop where
  declares : ∀ n as, r.declares { n with attachments := as } = r.declares n
  setup : ∀ x n as, r.setup x { n with attachments := as } = r.setup x n
  methods : ∀ x n as c, r.methods x { n with attachments := as } c = r.methods x n c
  create : ∀ x n as c, r.create x { n with attachments := as } c = r.create x n c

theorem NodeRecipe.Blind.declare {r : NodeRecipe} (h : r.Blind) (standard : r.Standard)
    (x : Context) (n : Node) (as : List Attachment) (className : String) :
    r.declare x { n with attachments := as } className = r.declare x n className := by
  rw [standard, standard, h.declares, h.setup, h.methods]
  rfl

theorem Registry.builtin_blind (tag : NodeTag) : (Registry.builtin.node tag).Blind := by
  refine Registry.builtin_node (P := NodeRecipe.Blind) ⟨?_, ?_, ?_, ?_⟩ ?_ tag
  any_goals intros; rfl
  intro e he
  simp only [Registry.builtinNodes, mem_cons, not_mem_nil, or_false] at he
  rcases he with rfl | rfl | rfl | rfl | rfl | rfl | rfl | rfl | rfl | rfl | rfl | rfl | rfl | rfl |
    rfl | rfl | rfl | rfl <;> exact ⟨fun _ _ => rfl, fun _ _ _ => rfl, fun _ _ _ _ => rfl,
      fun _ _ _ _ => rfl⟩

namespace Generation

/-! ### Walks over a tree -/

theorem declareAttachments_filter (g : Generation) (tree : String) : ∀ as : List Attachment,
    g.declareAttachments tree (as.filter (·.enabled)) = g.declareAttachments tree as
  | [] => rfl
  | a :: as => by
      have rest := declareAttachments_filter g tree as
      by_cases ha : a.enabled
      · rw [filter_cons_of_pos ha, declareAttachments, declareAttachments, rest]
      · rw [filter_cons_of_neg ha, rest, declareAttachments, if_neg ha]
        simp

theorem attachAll_filter (g : Generation) (tree parent : String) (as : List Attachment) :
    g.attachAll tree parent (as.filter (·.enabled)) = g.attachAll tree parent as := by
  simp only [attachAll, filter_filter, Bool.and_self]

section Builtin

variable {g : Generation} (builtin : g.registry = .builtin) (tree : String)

include builtin

theorem nodeClass?_prune (n : Node) : g.nodeClass? tree n.prune = g.nodeClass? tree n := by
  have blind := Registry.builtin_blind n.tag
  rw [nodeClass?, nodeClass?, builtin]
  change (if (Registry.builtin.node n.tag).declares n.prune then _ else _) = _
  rw [Node.prune, blind.declares]
  rfl

theorem declareNode_prune (n : Node) : g.declareNode tree n.prune = g.declareNode tree n := by
  have blind := Registry.builtin_blind n.tag
  have recipe (c : String) : (g.registry.node n.prune.tag).declare g.toContext n.prune c =
      (g.registry.node n.tag).declare g.toContext n c := by
    rw [builtin]; exact blind.declare (Registry.builtin_standard _) g.toContext n _ c
  have attached : g.declareAttachments tree n.prune.attachments =
      g.declareAttachments tree n.attachments := declareAttachments_filter g tree n.attachments
  simp only [declareNode, nodeClass?_prune builtin, recipe, attached]

theorem createAndWire_prune (parent : String) (n : Node) :
    g.createAndWire tree parent n.prune = g.createAndWire tree parent n := by
  have attached : g.attachAll tree n.prune.name n.prune.attachments =
      g.attachAll tree n.name n.attachments := attachAll_filter g tree n.name n.attachments
  have recipe : ∀ c, (g.registry.node n.prune.tag).create g.toContext n.prune c =
      (g.registry.node n.tag).create g.toContext n c := by
    rw [builtin]
    exact (Registry.builtin_blind n.tag).create g.toContext n _
  simp only [createAndWire, nodeClass?_prune builtin, attached, recipe]
  rfl

end Builtin

mutual

theorem declareSubtree_prune (builtin : g.registry = .builtin) (tree : String) :
    ∀ t : Subtree, g.declareSubtree tree t.prune = g.declareSubtree tree t
  | .mk n children => by
      have below := declareSubtrees_pruneAll builtin tree children
      have enabled : n.prune.enabled = n.enabled := rfl
      have reference : n.prune.kind.isReference = n.kind.isReference := rfl
      simp only [Subtree.prune, declareSubtree, declareNode_prune builtin, enabled, reference]
      cases n.kind.isReference <;> simp [below]

/-- A disabled subtree declares nothing, so the declarations are those of the others. -/
theorem declareSubtrees_pruneAll (builtin : g.registry = .builtin) (tree : String) :
    ∀ ts : List Subtree, g.declareSubtrees tree (Subtree.pruneAll ts) = g.declareSubtrees tree ts
  | [] => rfl
  | .mk n children :: ts => by
      have first := declareSubtree_prune builtin tree (.mk n children)
      have rest := declareSubtrees_pruneAll builtin tree ts
      by_cases enabled : n.enabled
      · simp only [Subtree.pruneAll, Subtree.node, enabled, if_true, declareSubtrees, first, rest]
      · simp [Subtree.pruneAll, Subtree.node, declareSubtrees, declareSubtree, enabled, rest]

end

mutual

theorem build_prune (builtin : g.registry = .builtin) (tree : String) :
    ∀ (t : Subtree) (parent : String), g.build tree t.prune parent = g.build tree t parent
  | .mk n children, parent => by
      have below := buildAll_pruneAll builtin tree children
      have enabled : n.prune.enabled = n.enabled := rfl
      have reference : n.prune.kind.isReference = n.kind.isReference := rfl
      have fsm : n.prune.fsm = n.fsm := rfl
      have name : n.prune.name = n.name := rfl
      have initial : n.prune.initialState = n.initialState := rfl
      simp only [Subtree.prune, build, createAndWire_prune builtin, enabled, reference, fsm, name,
        initial]
      cases n.kind.isReference <;> simp [below]

/-- A disabled subtree builds nothing, so the statements are those of the others. -/
theorem buildAll_pruneAll (builtin : g.registry = .builtin) (tree : String) :
    ∀ (ts : List Subtree) (parent : String),
      g.buildAll tree (Subtree.pruneAll ts) parent = g.buildAll tree ts parent
  | [], _ => rfl
  | .mk n children :: ts, parent => by
      have first := build_prune builtin tree (.mk n children) parent
      have rest := buildAll_pruneAll builtin tree ts parent
      by_cases enabled : n.enabled
      · simp only [Subtree.pruneAll, Subtree.node, enabled, if_true, buildAll, first, rest]
      · simp [Subtree.pruneAll, Subtree.node, buildAll, build, enabled, rest]

end

theorem treeBody_prune (builtin : g.registry = .builtin) (b : Behavior) :
    g.treeBody b.prune = g.treeBody b := by
  have attached : g.attachAll b.prune.className "tree" b.prune.attachments =
      g.attachAll b.className "tree" b.attachments := attachAll_filter g b.className "tree" b.attachments
  have children (parent : String) : g.buildAll b.prune.className b.prune.children parent =
      g.buildAll b.className b.children parent :=
    buildAll_pruneAll builtin b.className b.children parent
  simp only [treeBody, attached, children]
  rfl

theorem behavior_prune (builtin : g.registry = .builtin) (b : Behavior) :
    g.behavior b.prune = g.behavior b := by
  have attachments : g.declareAttachments b.prune.className b.prune.attachments =
      g.declareAttachments b.className b.attachments :=
    declareAttachments_filter g b.className b.attachments
  have nodes : g.declareSubtrees b.prune.className b.prune.children =
      g.declareSubtrees b.className b.children :=
    declareSubtrees_pruneAll builtin b.className b.children
  simp only [behavior, attachments, nodes, treeBody_prune builtin]
  rfl

/-- What is disabled makes no difference to the code of behaviors. -/
theorem behaviors_prune (builtin : g.registry = .builtin) :
    ∀ bs : List Behavior, g.behaviors (bs.map Behavior.prune) = g.behaviors bs
  | [] => rfl
  | b :: bs => by
      have rest := behaviors_prune builtin bs
      have first : { g with agentType := b.agentType }.behavior b.prune =
          { g with agentType := b.agentType }.behavior b :=
        behavior_prune (g := { g with agentType := b.agentType }) builtin b
      rw [map_cons, behaviors, behaviors, rest]
      exact congrArg (· >>= _) first

/-- The file of some behaviors is the file of the pruned ones, so behaviors that only differ in disabled
parts or below references have the same file. -/
theorem file_prune (x : Context) (path : String) (bs : List Behavior) :
    file { toContext := x } path (bs.map Behavior.prune) = file { toContext := x } path bs ∧
    ∀ bs' : List Behavior, bs.map Behavior.prune = bs'.map Behavior.prune →
      file { toContext := x } path bs = file { toContext := x } path bs' := by
  have pruned (bs : List Behavior) :
      file { toContext := x } path (bs.map Behavior.prune) = file { toContext := x } path bs := by
    rw [file, file, behaviors_prune rfl]
  refine ⟨pruned bs, fun bs' same => ?_⟩
  rw [← pruned bs, same, pruned bs']

/-- A tree with a reference, and `hidden` below it and below a disabled node. -/
def ambush (hidden : List Subtree) : Behavior where
  name := "Ambush"
  path := "ai/ambush.xml"
  agentType := "Guard"
  children :=
    [.mk { id := 1, kind := .plain .selector,
           attachments := [{ id := 1, kind := .event {}, enabled := false }] }
      [.mk { id := 2, kind := .reference none } hidden,
       .mk { id := 3, kind := .log "never", enabled := false } hidden]]

theorem file_prune_ambush :
    [ambush []].map Behavior.prune =
      [ambush [.mk { id := 4, kind := .action {} } []]].map Behavior.prune ∧
    file { catalog := {} } "ambush.go" [ambush []] =
      file { catalog := {} } "ambush.go" [ambush [.mk { id := 4, kind := .action {} } []]] := by
  have same : [ambush []].map Behavior.prune =
      [ambush [.mk { id := 4, kind := .action {} } []]].map Behavior.prune := by
    simp [ambush, Behavior.prune, Subtree.pruneAll, Subtree.prune, Subtree.node, Node.prune,
      NodeKind.isReference]
  exact ⟨same, (file_prune { catalog := {} } "ambush.go" [ambush []]).2 _ same⟩

end Generation

end GoTrees
