import GoTrees.Emit.Operand
import GoTrees.Tree.Basic

/-!
# Recipes

A recipe says how a kind of node or attachment becomes Go code: whether it gets a class of its own, the
steps of the constructor, the methods, how they are declared, and how it is created in the tree. A class
embeds the runtime type of the node and holds the constants that its methods need.
-/

namespace GoTrees

open Go

/-- A class: the struct, its constructor and its methods. -/
def classDecls (name runtime : String) (setup : List Step) (needs : Needs) (methods : List Decl) :
    List Decl :=
  let body := [.define "n" (.new name)] ++ setup ++ needs.setup ++ [.ret self]
  [.embedding name runtime needs.fields, .blank,
   .func { name := "New" ++ name, result := some ("*" ++ name), body := body.map .step },
   .blank] ++ methods

/-- A method of a class that gets the running agent, with an empty line after it. -/
def methodDecls (className name : String) (result : Option String) (body : List Stmt) : List Decl :=
  [.func { receiver := some ("n", className), name, params := [("agent", "bt.Agent")], result, body },
   .blank]

/-- A method that returns an operand, converted to a type if one is given. -/
def getterDecls (className name result : String) (value : Emission) (convert : Option String) :
    List Decl :=
  let (pre, expr) := value.bind "ret"
  let answer : Step := match convert with
    | some type => .ret (.converted type expr)
    | none => .ret expr
  methodDecls className name (some result) ((pre ++ [answer]).map .step)

/-- Sets a field of the new object in a constructor. -/
def setSelf (field : String) (e : Expr) : Step := .assign (.select self field) e

/-- The declarations of a class around its runtime type. The constructor takes the first steps before the other
steps of its set-up. -/
def declareClass (runtime : String × String) (first : List Step) (setup : Emit (List Step))
    (methods : Emit (List Decl)) (className : String) : Emit (List Decl) :=
  let needs := methods.needs ++ setup.needs
  { value := classDecls className (runtime.1 ++ "." ++ runtime.2) (first ++ setup.value) needs methods.value
    needs := { imports := .runtime runtime.1 :: needs.imports } }

/-- How a kind of node becomes Go code. -/
structure NodeRecipe where
  /-- Does the node get a class of its own? -/
  declares : Node → Bool := fun _ => false
  /-- The steps of the constructor that set the fixed fields. -/
  setup : Context → Node → Emit (List Step) := fun _ _ => pure []
  /-- The methods of the class with this name. -/
  methods : Context → Node → String → Emit (List Decl) := fun _ _ _ => pure []
  /-- The declarations of the class. -/
  declare : Context → Node → String → Emit (List Decl) := fun x n className =>
    if declares n then declareClass n.runtimeType [] (setup x n) (methods x n className) className
    else pure []
  /-- The statements that create the node, from its class if it has one. -/
  create : Context → Node → Option String → Emit (List Stmt)

/-- The expression that makes a new object: of its class, else of its runtime type. -/
def construct (runtime : String × String) : Option String → Emit Expr
  | some className => pure (.call (.name ("New" ++ className)) [])
  | none => do
    Emit.usePackage runtime.1
    return .call (.member runtime.1 ("New" ++ runtime.2)) []

/-- Creates the runtime node around a new object. -/
def createNode (n : Node) (className : Option String) : Emit (List Stmt) := do
  let object ← construct n.runtimeType className
  Emit.usePackage "bt"
  return [.step (.define n.name (.call (.member "bt" "NewNode") [.int n.id, object]))]

/-- A recipe that uses the runtime type and nothing else. -/
def NodeRecipe.bare : NodeRecipe where
  create := fun _ n className => createNode n className

/-- How a kind of attachment becomes Go code. -/
structure AttachmentRecipe where
  /-- Does the attachment get a class of its own? -/
  declares : Attachment → Bool := fun _ => false
  /-- The steps of the constructor after the one that sets the id. -/
  setup : Context → Attachment → Emit (List Step) := fun _ _ => pure []
  /-- The methods of the class with this name. -/
  methods : Context → Attachment → String → Emit (List Decl) := fun _ _ _ => pure []
  /-- The declarations of the class. -/
  declare : Context → Attachment → String → Emit (List Decl) := fun x a className =>
    if declares a then
      declareClass a.runtimeType [setSelf "Id" (.int a.id)] (setup x a) (methods x a className) className
    else pure []
  /-- The statements that create the attachment, from its class if it has one. -/
  create : Context → Attachment → Option String → Emit (List Stmt)

def createAttachment (a : Attachment) (className : Option String) : Emit (List Stmt) := do
  return [.step (.define a.name (← construct a.runtimeType className))]

/-- A recipe that uses the runtime type and nothing else. -/
def AttachmentRecipe.bare : AttachmentRecipe where
  create := fun _ a className => createAttachment a className

end GoTrees
