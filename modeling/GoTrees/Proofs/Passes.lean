import GoTrees.Proofs.Emit
import GoTrees.Proofs.Names

/-!
# The two passes over a tree agree

A behavior is walked twice, once to declare the classes of its nodes and attachments and once to create
them. Both walks visit the same items in the same order. The declarations are what the recipes declare for
the visited items that have a class; the method that builds the tree is a plan in which the recipes are
called to create each visited item, with its class if it has one. So the classes that are declared are the
classes that are created, one by one and in order, whatever the recipes do.
-/

namespace GoTrees

open Go List

variable (g : Generation)

/-! ### Visits -/

/-- What can have a class. -/
inductive Item where
  | node (n : Node)
  | attachment (a : Attachment)

namespace Item

def nodeId? : Item → Option Int
  | node n => some n.id
  | attachment _ => none

def attachmentId? : Item → Option Int
  | node _ => none
  | attachment a => some a.id

def enabled (as : List Attachment) : List Item := (as.filter (·.enabled)).map .attachment

end Item

mutual

/-- The enabled nodes of a subtree that stand below neither a disabled node nor a reference, each before
its enabled attachments and all that is below it. -/
def Subtree.visited : Subtree → List Item
  | .mk n children =>
    if n.enabled then
      .node n :: Item.enabled n.attachments
        ++ if n.kind.isReference then [] else Subtree.allVisited children
    else []

def Subtree.allVisited : List Subtree → List Item
  | [] => []
  | t :: ts => t.visited ++ Subtree.allVisited ts

end

namespace Behavior

def visited (b : Behavior) : List Item := Item.enabled b.attachments ++ Subtree.allVisited b.children

def nodeIds (b : Behavior) : List Int := b.visited.filterMap Item.nodeId?

def attachmentIds (b : Behavior) : List Int := b.visited.filterMap Item.attachmentId?

end Behavior

namespace Generation

/-- The class of an item, if its recipe declares one. -/
def class? (g : Generation) (tree : String) : Item → Option String
  | .node n => g.nodeClass? tree n
  | .attachment a => g.attachmentClass? tree a

/-! ### Declarations -/

/-- What the recipe of an item declares for a class. -/
def declareItem (g : Generation) : Item × String → Emit (List Decl)
  | (.node n, className) => (g.registry.node n.tag).declare g.toContext n className
  | (.attachment a, className) => (g.registry.attachment a.tag).declare g.toContext a className

def declareEach (g : Generation) : List (Item × String) → Emit (List Decl)
  | [] => pure []
  | c :: cs => g.declareItem c ++ g.declareEach cs

def classed (g : Generation) (tree : String) (is : List Item) : List (Item × String) :=
  is.filterMap fun i => (g.class? tree i).map fun c => (i, c)

theorem declareEach_append (g : Generation) : ∀ cs ds : List (Item × String),
    g.declareEach (cs ++ ds) = g.declareEach cs ++ g.declareEach ds
  | [], ds => by simp [declareEach]
  | c :: cs, ds => by simp [declareEach, declareEach_append g cs ds, Emit.append_assoc]

theorem classed_append (tree : String) (is js : List Item) :
    g.classed tree (is ++ js) = g.classed tree is ++ g.classed tree js :=
  filterMap_append

theorem declareEach_classed_node (tree : String) (n : Node) (is : List Item) :
    g.declareEach (g.classed tree (.node n :: is)) =
      (match g.nodeClass? tree n with
        | some c => (g.registry.node n.tag).declare g.toContext n c
        | none => pure []) ++ g.declareEach (g.classed tree is) := by
  cases h : g.nodeClass? tree n <;> simp [classed, class?, declareEach, declareItem, h]

theorem declareEach_classed_attachment (tree : String) (a : Attachment)
    (is : List Item) : g.declareEach (g.classed tree (.attachment a :: is)) =
      g.declareAttachment tree a ++ g.declareEach (g.classed tree is) := by
  cases h : g.attachmentClass? tree a <;>
    simp [classed, class?, declareEach, declareItem, declareAttachment, h]

/-- Declaring attachments declares the classes of the enabled ones. -/
theorem declareAttachments_eq (g : Generation) (tree : String) : ∀ as : List Attachment,
    g.declareAttachments tree as = g.declareEach (g.classed tree (Item.enabled as))
  | [] => rfl
  | a :: as => by
      have rest := declareAttachments_eq g tree as
      by_cases ha : a.enabled
      · rw [declareAttachments, if_pos ha, Item.enabled, filter_cons_of_pos ha, map_cons,
          declareEach_classed_attachment, ← Item.enabled, ← rest]
        rfl
      · rw [declareAttachments, if_neg ha, Item.enabled, filter_cons_of_neg ha, rest]
        simp [Item.enabled]

theorem declareNode_eq (tree : String) (n : Node) :
    g.declareNode tree n = g.declareEach (g.classed tree (.node n :: Item.enabled n.attachments)) := by
  rw [declareEach_classed_node, ← declareAttachments_eq, declareNode]
  cases g.nodeClass? tree n <;> rfl

mutual

/-- Declaring a subtree declares the classes of the items that it visits, in order. -/
theorem declareSubtree_eq (g : Generation) (tree : String) : ∀ t : Subtree,
    g.declareSubtree tree t = g.declareEach (g.classed tree t.visited)
  | .mk n children => by
      have below := declareSubtrees_eq g tree children
      rw [declareSubtree, Subtree.visited, declareNode_eq, below]
      cases n.enabled
      · rfl
      · cases n.kind.isReference
        · rw [if_pos rfl, if_neg Bool.false_ne_true, classed_append, declareEach_append]
          rfl
        · simp

/-- Declaring subtrees declares the classes of all that they visit. -/
theorem declareSubtrees_eq (g : Generation) (tree : String) : ∀ ts : List Subtree,
    g.declareSubtrees tree ts = g.declareEach (g.classed tree (Subtree.allVisited ts))
  | [] => rfl
  | t :: ts => by
      rw [declareSubtrees, declareSubtree_eq g tree t, declareSubtrees_eq g tree ts,
        Subtree.allVisited, classed_append, declareEach_append]
      rfl

end

/-! ### Creations -/

/-- A part of a plan: a statement, the creation of an item by its recipe, or a block. -/
inductive Piece where
  | code (s : Stmt)
  | create (i : Item) (className : Option String)
  | block (body : List Piece)

def createItem (g : Generation) : Item → Option String → Emit (List Stmt)
  | .node n, className => (g.registry.node n.tag).create g.toContext n className
  | .attachment a, className => (g.registry.attachment a.tag).create g.toContext a className

mutual

/-- The statements of a piece, with the recipes called for the items. -/
def Piece.emit (g : Generation) : Piece → Emit (List Stmt)
  | .code s => pure [s]
  | .create i className => g.createItem i className
  | .block body => do return [.block (← Piece.emitAll g body)]

/-- The statements of pieces one after the other. -/
def Piece.emitAll (g : Generation) : List Piece → Emit (List Stmt)
  | [] => pure []
  | p :: ps => p.emit g ++ Piece.emitAll g ps

end

mutual

/-- The creations of a piece, in the order in which the recipes are called. -/
def Piece.creations : Piece → List (Item × Option String)
  | .code _ => []
  | .create i className => [(i, className)]
  | .block body => Piece.allCreations body

def Piece.allCreations : List Piece → List (Item × Option String)
  | [] => []
  | p :: ps => p.creations ++ Piece.allCreations ps

end

theorem Piece.emitAll_append (g : Generation) : ∀ ps qs : List Piece,
    Piece.emitAll g (ps ++ qs) = Piece.emitAll g ps ++ Piece.emitAll g qs
  | [], qs => by simp [Piece.emitAll]
  | p :: ps, qs => by simp [Piece.emitAll, Piece.emitAll_append g ps qs, Emit.append_assoc]

theorem Piece.allCreations_append : ∀ ps qs : List Piece,
    Piece.allCreations (ps ++ qs) = Piece.allCreations ps ++ Piece.allCreations qs
  | [], _ => rfl
  | p :: ps, qs => by simp [Piece.allCreations, Piece.allCreations_append ps qs]

theorem Piece.emitAll_code (g : Generation) : ∀ ss : List Stmt,
    Piece.emitAll g (ss.map .code) = pure ss
  | [] => rfl
  | s :: ss => by rw [map_cons, Piece.emitAll, Piece.emitAll_code g ss]; rfl

theorem Piece.allCreations_code : ∀ ss : List Stmt, Piece.allCreations (ss.map .code) = []
  | [] => rfl
  | _ :: ss => Piece.allCreations_code ss

def attachPlan (g : Generation) (tree parent : String) (a : Attachment) : Piece :=
  .block (.create (.attachment a) (g.attachmentClass? tree a) ::
    ([callOn parent "Attach"
      [.name a.name, .bool (isPrecondition a && !a.isTransition),
       .bool (isEffector a && !a.isTransition), .bool a.isTransition]]
    ++ if isEvent a then [callOn parent "SetHasEvents" [.bool true]] else []).map .code)

/-- The plan for the enabled ones of some attachments. -/
def attachmentsPlan (g : Generation) (tree parent : String) (as : List Attachment) : List Piece :=
  let blocks := (as.filter (·.enabled)).map (g.attachPlan tree parent)
  if blocks.isEmpty then [] else .code (.step (.comment "attachments")) :: blocks

def machinePlan (parent : String) (initial : Option Int) (states : List Piece) : Piece :=
  .block ([.code (.step (.define "fsm"
      (.call (.member "bt" "NewFSM") [.int (-1), .int (initial.getD (-1))])))]
    ++ states ++ [.code (callOn parent "AddChild" [.name "fsm"])])

def nodePlan (g : Generation) (tree parent : String) (n : Node) : List Piece :=
  .create (.node n) (g.nodeClass? tree n) :: (g.attachmentsPlan tree n.name n.attachments
    ++ [.code (callOn parent (if n.asChild then "AddChild" else "SetCustomCondition") [.name n.name])])

mutual

def subtreePlan (g : Generation) (tree : String) : Subtree → String → List Piece
  | .mk n children, parent =>
    if n.enabled then
      [.block (g.nodePlan tree parent n ++
        if n.kind.isReference then []
        else if n.fsm then [machinePlan n.name n.initialState (g.subtreesPlan tree children "fsm")]
        else g.subtreesPlan tree children n.name)]
    else []

def subtreesPlan (g : Generation) (tree : String) : List Subtree → String → List Piece
  | [], _ => []
  | t :: ts, parent => g.subtreePlan tree t parent ++ g.subtreesPlan tree ts parent

end

/-- The plan for the method that builds a tree. -/
def plan (g : Generation) (b : Behavior) : List Piece :=
  (.step (.define "tree" (.call (.member "bt" "NewTree") [.string b.name])) :: g.addLocals b).map .code
    ++ g.attachmentsPlan b.className "tree" b.attachments
    ++ .code (.step (.comment "children")) ::
      (if b.fsm then [machinePlan "tree" b.initialState (g.subtreesPlan b.className b.children "fsm")]
      else g.subtreesPlan b.className b.children "tree")
    ++ [.code (.step (.ret (.name "tree")))]

theorem attach_eq (tree parent : String) (a : Attachment) :
    (g.attachPlan tree parent a).emit g = do return [← g.attach tree parent a] := by
  simp only [attachPlan, Piece.emit, Piece.emitAll, Piece.emitAll_code, createItem, attach]
  ext : 1 <;> simp

theorem attachEach_eq (g : Generation) (tree parent : String) : ∀ as : List Attachment,
    g.attachEach tree parent as = Piece.emitAll g (as.map (g.attachPlan tree parent))
  | [] => rfl
  | a :: as => by
      rw [map_cons, Piece.emitAll, attach_eq, ← attachEach_eq g tree parent as, attachEach]
      ext : 1 <;> simp

theorem attachAll_eq (tree parent : String) (as : List Attachment) :
    g.attachAll tree parent as = Piece.emitAll g (g.attachmentsPlan tree parent as) := by
  have blocks := attachEach_eq g tree parent (as.filter (·.enabled))
  rw [attachAll, blocks, attachmentsPlan]
  cases as.filter (·.enabled) with
  | nil => rfl
  | cons a rest =>
    simp only [map_cons, isEmpty_cons, Bool.false_eq_true, if_false, Piece.emitAll,
      Piece.emit, attach_eq]
    ext : 1 <;> simp

theorem createAndWire_eq (tree parent : String) (n : Node) :
    g.createAndWire tree parent n = Piece.emitAll g (g.nodePlan tree parent n) := by
  rw [createAndWire, attachAll_eq, nodePlan, Piece.emitAll, Piece.emitAll_append]
  ext : 1 <;> simp [Piece.emit, Piece.emitAll, createItem]

theorem machine_eq (parent : String) (initial : Option Int) (states : List Piece) :
    (machinePlan parent initial states).emit g =
      do return [machine parent initial (← Piece.emitAll g states)] := by
  simp only [machinePlan, machine, Piece.emit, Piece.emitAll_append, Piece.emitAll]
  ext : 1 <;> simp

mutual

theorem build_eq (g : Generation) (tree : String) : ∀ (t : Subtree) (parent : String),
    g.build tree t parent = Piece.emitAll g (g.subtreePlan tree t parent)
  | .mk n children, parent => by
      have below := buildAll_eq g tree children
      rw [build, subtreePlan, createAndWire_eq, below, below]
      cases n.enabled
      · rfl
      · cases n.kind.isReference <;> cases n.fsm <;> ext : 1 <;>
          simp [Piece.emitAll, Piece.emitAll_append, Piece.emit, machine_eq]

theorem buildAll_eq (g : Generation) (tree : String) : ∀ (ts : List Subtree) (parent : String),
    g.buildAll tree ts parent = Piece.emitAll g (g.subtreesPlan tree ts parent)
  | [], _ => rfl
  | t :: ts, parent => by
      rw [buildAll, build_eq g tree t, buildAll_eq g tree ts, subtreesPlan, Piece.emitAll_append]
      rfl

end

/-- The method that builds a tree carries out its plan. -/
theorem treeBody_eq (b : Behavior) :
    g.treeBody b = Piece.emitAll g (g.plan b) := by
  rw [treeBody, attachAll_eq, buildAll_eq, buildAll_eq, plan]
  cases b.fsm <;> ext : 1 <;>
    simp [Piece.emitAll, Piece.emitAll_append, Piece.emitAll_code, Piece.emit, machine_eq]

/-! ### Both passes visit the same items -/

def withClass (g : Generation) (tree : String) (is : List Item) : List (Item × Option String) :=
  is.map fun i => (i, g.class? tree i)

theorem withClass_append (tree : String) (is js : List Item) :
    g.withClass tree (is ++ js) = g.withClass tree is ++ g.withClass tree js :=
  map_append

theorem creations_attachPlan (tree parent : String) (a : Attachment) :
    (g.attachPlan tree parent a).creations = [(.attachment a, g.attachmentClass? tree a)] := by
  rw [attachPlan, Piece.creations, Piece.allCreations, Piece.allCreations_code]
  rfl

theorem allCreations_attachPlans (g : Generation) (tree parent : String) : ∀ as : List Attachment,
    Piece.allCreations (as.map (g.attachPlan tree parent)) = g.withClass tree (as.map .attachment)
  | [] => rfl
  | a :: as => by
      rw [map_cons, Piece.allCreations, creations_attachPlan, allCreations_attachPlans g tree]
      rfl

theorem allCreations_attachmentsPlan (tree parent : String) (as : List Attachment) :
    Piece.allCreations (g.attachmentsPlan tree parent as) = g.withClass tree (Item.enabled as) := by
  have blocks := allCreations_attachPlans g tree parent (as.filter (·.enabled))
  rw [attachmentsPlan, Item.enabled, ← blocks]
  cases as.filter (·.enabled) <;> rfl

theorem creations_machinePlan (parent : String) (initial : Option Int) (states : List Piece) :
    (machinePlan parent initial states).creations = Piece.allCreations states := by
  simp [machinePlan, Piece.creations, Piece.allCreations_append, Piece.allCreations]

theorem allCreations_nodePlan (tree parent : String) (n : Node) :
    Piece.allCreations (g.nodePlan tree parent n) =
      g.withClass tree (.node n :: Item.enabled n.attachments) := by
  rw [nodePlan, Piece.allCreations, Piece.allCreations_append, allCreations_attachmentsPlan]
  simp [Piece.creations, Piece.allCreations, withClass, class?]

mutual

theorem allCreations_subtreePlan (g : Generation) (tree : String) : ∀ (t : Subtree) (parent : String),
    Piece.allCreations (g.subtreePlan tree t parent) = g.withClass tree t.visited
  | .mk n children, parent => by
      have below := allCreations_subtreesPlan g tree children
      rw [subtreePlan, Subtree.visited]
      cases n.enabled
      · rfl
      · cases n.kind.isReference <;> cases n.fsm <;>
          simp [Piece.allCreations, Piece.creations, Piece.allCreations_append,
            allCreations_nodePlan, creations_machinePlan, below, withClass]

theorem allCreations_subtreesPlan (g : Generation) (tree : String) :
    ∀ (ts : List Subtree) (parent : String),
      Piece.allCreations (g.subtreesPlan tree ts parent) = g.withClass tree (Subtree.allVisited ts)
  | [], _ => rfl
  | t :: ts, parent => by
      rw [subtreesPlan, Piece.allCreations_append, allCreations_subtreePlan g tree t,
        allCreations_subtreesPlan g tree ts, Subtree.allVisited, withClass_append]

end

/-- The plan creates the items that are visited, each with its class. -/
theorem allCreations_plan (b : Behavior) :
    Piece.allCreations (g.plan b) = g.withClass b.className b.visited := by
  have children := allCreations_subtreesPlan g b.className b.children
  simp only [plan, Piece.allCreations_append, Piece.allCreations_code, allCreations_attachmentsPlan,
    Behavior.visited, withClass_append]
  cases b.fsm <;>
    simp [Piece.allCreations, Piece.creations, creations_machinePlan, children]

theorem filterMap_withClass (tree : String) (is : List Item) :
    (g.withClass tree is).filterMap (fun c => c.2.map fun name => (c.1, name)) =
      g.classed tree is := by
  rw [withClass, classed, filterMap_map]
  rfl

end Generation

end GoTrees
