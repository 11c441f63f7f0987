import GoTrees.Load.Behavior
import GoTrees.Load.Schema

/-!
# Whole documents

A document has settings and a catalog, each with defaults, and at least one tree. If the catalog does
not list the trees that exist, those of the document do.
-/

namespace GoTrees

/-- Everything that a generation needs. -/
structure Document where
  config : Config
  catalog : Catalog
  behaviors : List Behavior
  deriving Repr

namespace Load

/-- A section, or its default where the document has none. -/
def loadSection (v : Yaml.Value) (name : String) (read : Yaml.Value → Option α) (default : α) :
    Except DocumentError α :=
  match v.get? name with
  | none => .ok default
  | some x =>
    match read x with
    | some a => .ok a
    | none => .error .malformed

/-- The trees, of which there has to be one. -/
def loadBehaviors (catalog : Catalog) (v : Yaml.Value) : Except LoadError (List Behavior) :=
  match v.items "behaviors" with
  | [] => .error .missingTree
  | trees => trees.mapM (loadBehavior catalog)

end Load

open Load

/-- The document that a value describes. -/
def Document.ofValue (v : Yaml.Value) : Except DocumentError Document := do
  let config ← loadSection v "config" (config? Load.ofValue) {}
  let read ← loadSection v "catalog" catalog? {}
  let catalog := read.link
  let behaviors ← (loadBehaviors catalog v).mapError .load
  let known := if catalog.behaviors.isEmpty then behaviors.map (·.sourceName) else catalog.behaviors
  return { config, catalog := { catalog with behaviors := known }, behaviors }

end GoTrees
