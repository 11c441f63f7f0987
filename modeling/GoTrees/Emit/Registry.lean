import GoTrees.Emit.Attachment
import GoTrees.Emit.Node

/-!
# The registry of recipes

A recipe is registered for a tag. The recipe of a kind is that of the first tag of its ancestry which
has one, so a kind without a recipe of its own is handled by its nearest family; without any, the bare
recipe only creates the runtime type.
-/

namespace GoTrees

/-- The recipes by tag. -/
structure Registry where
  nodes : NodeTag → Option NodeRecipe
  attachments : AttachmentTag → Option AttachmentRecipe

namespace Registry

def empty : Registry where
  nodes _ := none
  attachments _ := none

/-- Registers a recipe for a tag, in place of an earlier one. -/
def register (r : Registry) (tag : NodeTag) (recipe : NodeRecipe) : Registry :=
  { r with nodes := fun t => if t = tag then some recipe else r.nodes t }

/-- Registers a recipe for a tag of attachments, in place of an earlier one. -/
def registerAttachment (r : Registry) (tag : AttachmentTag) (recipe : AttachmentRecipe) : Registry :=
  { r with attachments := fun t => if t = tag then some recipe else r.attachments t }

def node (r : Registry) (tag : NodeTag) : NodeRecipe := (tag.ancestry.findSome? r.nodes).getD .bare

def attachment (r : Registry) (tag : AttachmentTag) : AttachmentRecipe :=
  (tag.ancestry.findSome? r.attachments).getD .bare

def builtinNodes : List (NodeTag × NodeRecipe) :=
  [(.composite, .bare),
   (.parallel, .parallel),
   (.referencedBehavior, .reference),
   (.decorator, .decorator),
   (.decoratorCount, .decoratorCount),
   (.decoratorLoopUntil, .decoratorLoopUntil),
   (.decoratorFrames, .decoratorFrames),
   (.decoratorLog, .decoratorLog),
   (.decoratorWeight, .decoratorWeight),
   (.leaf, .bare),
   (.action, .action),
   (.assignment, .assignment),
   (.compute, .compute),
   (.wait, .wait),
   (.waitFrames, .waitFrames),
   (.finish, .finish),
   (.conditionBase, .bare),
   (.condition, .condition)]

def builtinAttachments : List (AttachmentTag × AttachmentRecipe) :=
  [(.attachAction, .attachAction),
   (.precondition, .precondition),
   (.effector, .effector),
   (.event, .event)]

/-- The registry with the built-in recipes. -/
def builtin : Registry :=
  builtinAttachments.foldl (fun r (tag, recipe) => r.registerAttachment tag recipe)
    (builtinNodes.foldl (fun r (tag, recipe) => r.register tag recipe) empty)

end Registry

end GoTrees
