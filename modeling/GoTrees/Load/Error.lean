import GoTrees.Text.Escape

/-!
# Why a document cannot be loaded

A document is malformed when it is no document at all or when a section has the wrong shape. A document
of the right shape can still fail to describe trees: a field is missing or a name refers to nothing.
-/

namespace GoTrees

/-- What is wrong with the trees of a document. -/
inductive LoadError where
  | missingTree
  | missingField (node field : String)
  | unknownProperty (agent name : String)
  | unknownMethod (agent name : String)
  | notAVariable (node field : String)
  | notAMethod (node field : String)
  | unknownAgent (agent : String)
  | malformedLiteral (text type : String)
  deriving DecidableEq, Repr

/-- The message for the author of the document. -/
def LoadError.message : LoadError → String
  | missingTree => "The document has no behaviors"
  | missingField node field => "Node " ++ node ++ " is missing its " ++ Text.escaped field
  | unknownProperty agent name =>
    "Property " ++ Text.escaped name ++ " not found on agent type " ++ Text.escaped agent
  | unknownMethod agent name =>
    "Method " ++ Text.escaped name ++ " not found on agent type " ++ Text.escaped agent
  | notAVariable node field => "Node " ++ node ++ " needs a variable for its " ++ Text.escaped field
  | notAMethod node field => "Node " ++ node ++ " needs a method call for its " ++ Text.escaped field
  | unknownAgent agent => "Agent type not found " ++ Text.escaped agent
  | malformedLiteral text type =>
    "Malformed literal " ++ Text.escaped text ++ " for type " ++ Text.escaped type

/-- What is wrong with a document. -/
inductive DocumentError where
  /-- It is no document, or a section has the wrong shape. -/
  | malformed
  | load (e : LoadError)
  deriving DecidableEq, Repr

end GoTrees
