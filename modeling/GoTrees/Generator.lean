import GoTrees.Emit.Behavior
import GoTrees.Skeleton

/-!
# Everything that is generated

The tree files of the behaviors, and then the type files of the catalog. Observers are told when the code
of a behavior is begun and when it is finished.
-/

namespace GoTrees.Generation

open Go

/-- What observers are told. -/
inductive Notice where
  | begun (behavior : String)
  | finished (behavior : String)
  deriving DecidableEq, Repr

/-- What observers are told when behaviors are generated one after the other. -/
def notices (bs : List Behavior) : List Notice :=
  bs.flatMap fun b => [.begun b.name, .finished b.name]

def typeFiles (g : Generation) : List OutputFile :=
  Skeleton.files { catalog := g.catalog, config := g.config }

def allFiles (g : Generation) (bs : List Behavior) : List OutputFile :=
  g.treeFiles bs ++ g.typeFiles

end GoTrees.Generation
