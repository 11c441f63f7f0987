import GoTrees.Emit.Registry

/-!
# Behaviors in Go code

A behavior becomes a Go type with a method that builds the tree. The classes of its enabled nodes and
attachments are declared first, in pre-order. Then every node is created in a block of its own and wired
to its parent. A referenced tree is a behavior of its own, so what stands below a reference is left out.
-/

namespace GoTrees

open Go

/-- What the code of behaviors is emitted with. -/
structure Generation extends Context where
  registry : Registry := .builtin

namespace Generation

/-- The class of a node, if its recipe declares one. -/
def nodeClass? (g : Generation) (tree : String) (n : Node) : Option String :=
  if (g.registry.node n.tag).declares n then
    some (n.exportClass ++ "_" ++ tree ++ "_" ++ n.name)
  else none

/-- The class of an attachment, if its recipe declares one. -/
def attachmentClass? (g : Generation) (tree : String) (a : Attachment) : Option String :=
  if (g.registry.attachment a.tag).declares a then
    some (pascalCase (a.exportClass ++ "_" ++ tree ++ "_" ++ a.name))
  else none

/-! ### Declarations -/

/-- The declarations of the class of an attachment. -/
def declareAttachment (g : Generation) (tree : String) (a : Attachment) : Emit (List Decl) :=
  match g.attachmentClass? tree a with
  | some className => (g.registry.attachment a.tag).declare g.toContext a className
  | none => pure []

/-- The declarations of the classes of the enabled attachments. -/
def declareAttachments (g : Generation) (tree : String) : List Attachment → Emit (List Decl)
  | [] => pure []
  | a :: rest => do
    let decls ← if a.enabled then g.declareAttachment tree a else pure []
    return decls ++ (← g.declareAttachments tree rest)

/-- The declarations of the class of a node, and of those of its attachments. -/
def declareNode (g : Generation) (tree : String) (n : Node) : Emit (List Decl) := do
  let decls ← match g.nodeClass? tree n with
    | some className => (g.registry.node n.tag).declare g.toContext n className
    | none => pure []
  return decls ++ (← g.declareAttachments tree n.attachments)

mutual

/-- The declarations of the classes of a subtree. -/
def declareSubtree (g : Generation) (tree : String) : Subtree → Emit (List Decl)
  | .mk n children => do
    if !n.enabled then return []
    let decls ← g.declareNode tree n
    if n.kind.isReference then return decls
    return decls ++ (← g.declareSubtrees tree children)

/-- The declarations of the classes of subtrees. -/
def declareSubtrees (g : Generation) (tree : String) : List Subtree → Emit (List Decl)
  | [] => pure []
  | t :: ts => do
    let decls ← g.declareSubtree tree t
    return decls ++ (← g.declareSubtrees tree ts)

end

/-! ### Building the tree -/

/-- A call of a method on the object that a variable holds. -/
def callOn (object method : String) (args : List Expr) : Stmt :=
  .step (.eval (.call (.select (.name object) method) args))

def isPrecondition (a : Attachment) : Bool := a.tag = .precondition

def isEffector (a : Attachment) : Bool := a.tag = .effector

def isEvent (a : Attachment) : Bool := a.tag = .event

/-- The block that creates an attachment and attaches it to its owner. -/
def attach (g : Generation) (tree parent : String) (a : Attachment) : Emit Stmt := do
  let created ← (g.registry.attachment a.tag).create g.toContext a (g.attachmentClass? tree a)
  let wire := callOn parent "Attach"
    [.name a.name, .bool (isPrecondition a && !a.isTransition),
     .bool (isEffector a && !a.isTransition), .bool a.isTransition]
  let events := if isEvent a then [callOn parent "SetHasEvents" [.bool true]] else []
  return .block (created ++ [wire] ++ events)

/-- The blocks that create attachments. -/
def attachEach (g : Generation) (tree parent : String) : List Attachment → Emit (List Stmt)
  | [] => pure []
  | a :: rest => do
    let block ← g.attach tree parent a
    return block :: (← g.attachEach tree parent rest)

/-- The statements that create the enabled attachments, if there are any. -/
def attachAll (g : Generation) (tree parent : String) (as : List Attachment) :
    Emit (List Stmt) := do
  let blocks ← g.attachEach tree parent (as.filter (·.enabled))
  return if blocks.isEmpty then [] else .step (.comment "attachments") :: blocks

/-- The block around the states of a state machine, which is added to `parent`. -/
def machine (parent : String) (initial : Option Int) (states : List Stmt) : Stmt :=
  .block ([.step (.define "fsm" (.call (.member "bt" "NewFSM") [.int (-1), .int (initial.getD (-1))]))]
    ++ states ++ [callOn parent "AddChild" [.name "fsm"]])

/-- The statements that create a node, attach its attachments and wire it to its parent. -/
def createAndWire (g : Generation) (tree parent : String) (n : Node) : Emit (List Stmt) := do
  let created ← (g.registry.node n.tag).create g.toContext n (g.nodeClass? tree n)
  let attached ← g.attachAll tree n.name n.attachments
  let wire := callOn parent (if n.asChild then "AddChild" else "SetCustomCondition") [.name n.name]
  return created ++ attached ++ [wire]

mutual

/-- The statements that build a subtree and wire it to `parent`; a disabled one leaves nothing. -/
def build (g : Generation) (tree : String) : Subtree → String → Emit (List Stmt)
  | .mk n children, parent => do
    if !n.enabled then return []
    let top ← g.createAndWire tree parent n
    if n.kind.isReference then return [.block top]
    if n.fsm then
      let states ← g.buildAll tree children "fsm"
      return [.block (top ++ [machine n.name n.initialState states])]
    else
      let below ← g.buildAll tree children n.name
      return [.block (top ++ below)]

/-- The statements that build subtrees. -/
def buildAll (g : Generation) (tree : String) : List Subtree → String → Emit (List Stmt)
  | [], _ => pure []
  | t :: ts, parent => do
    let stmts ← g.build tree t parent
    return stmts ++ (← g.buildAll tree ts parent)

end

/-- The statements that declare the local variables of a tree, if there are any. -/
def addLocals (g : Generation) (b : Behavior) : List Stmt :=
  if b.locals.isEmpty then []
  else .step (.comment "locals") :: b.locals.map fun l =>
    callOn "tree" "AddLocal"
      [.string b.agentType, .string (GoType.ofNative g.config.renames l.type), .string l.name,
       .string l.initial]

/-- The body of the method that builds a tree. -/
def treeBody (g : Generation) (b : Behavior) : Emit (List Stmt) := do
  let attached ← g.attachAll b.className "tree" b.attachments
  let children ← if b.fsm then do
      pure [machine "tree" b.initialState (← g.buildAll b.className b.children "fsm")]
    else g.buildAll b.className b.children "tree"
  return [.step (.define "tree" (.call (.member "bt" "NewTree") [.string b.name]))]
    ++ g.addLocals b ++ attached ++ [.step (.comment "children")] ++ children
    ++ [.step (.ret (.name "tree"))]

def behavior (g : Generation) (b : Behavior) : Emit (List Decl) := do
  Emit.usePackage "bt"
  let comment := if b.comment.isEmpty then [] else [.comment b.comment]
  let attachments ← g.declareAttachments b.className b.attachments
  let nodes ← g.declareSubtrees b.className b.children
  let body ← g.treeBody b
  return [.blank, .comment ("Source file: " ++ b.sourceName), .blank] ++ comment
    ++ [.record b.name none [], .blank] ++ attachments ++ nodes
    ++ [.func { receiver := some ("_o", b.name), name := "NewTree", result := some "*bt.Tree", body }]

/-- The declarations of behaviors one after the other, each against its own agent type. -/
def behaviors (g : Generation) : List Behavior → Emit (List Decl)
  | [] => pure []
  | b :: bs => do
    let decls ← { g with agentType := b.agentType }.behavior b
    return decls ++ (← g.behaviors bs)

/-! ### Files -/

/-- The file with the code of some behaviors. -/
def file (g : Generation) (path : String) (bs : List Behavior) : OutputFile :=
  let code := g.behaviors bs
  assemble path g.config.treesPackage (importLines g.config code.needs.imports) code.value

/-- The path of the file that holds all trees. -/
def singlePath (c : Config) : String := c.behaviorsDir ++ "/" ++ c.singleFileName

/-- The path of the file of one tree. -/
def behaviorPath (c : Config) (b : Behavior) : String :=
  c.behaviorsDir ++ "/" ++ b.sourceName ++ ".go"

/-- The tree files, one or one for each behavior. -/
def treeFiles (g : Generation) (bs : List Behavior) : List OutputFile :=
  match g.config.fileMode with
  | .single => [g.file (singlePath g.config) bs]
  | .perBehavior => bs.map fun b => g.file (behaviorPath g.config b) [b]

end Generation

end GoTrees
