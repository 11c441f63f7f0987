import GoTrees.GoType

/-!
# Settings

The names of the generated packages and folders, the import paths, and how the trees are spread over
files.
-/

namespace GoTrees

/-- How trees are spread over files. -/
inductive FileMode where
  /-- All trees in one file. -/
  | single
  /-- A file for each tree, at the tree's own path. -/
  | perBehavior
  deriving DecidableEq, Repr

structure Config where
  treesPackage : String := "behavior_trees"
  typesPackage : String := "behavior_types"
  /-- The import path in front of the runtime packages. -/
  runtimeModule : String := "behaviac"
  /-- The import path of the generated types package. -/
  typesImport : String := "behaviac_generated/types"
  generatedFolder : String := "behaviac_generated"
  behaviorsFolder : String := "behaviors"
  typesFolder : String := "types"
  singleFileName : String := "generated_behaviors.go"
  fileMode : FileMode := .single
  renames : List Rename := []
  deriving DecidableEq, Repr

namespace Config

def behaviorsDir (c : Config) : String := c.generatedFolder ++ "/" ++ c.behaviorsFolder

def typesDir (c : Config) : String := c.generatedFolder ++ "/" ++ c.typesFolder

/-- The import path of a runtime package. -/
def runtimeImport (c : Config) (package : String) : String := c.runtimeModule ++ "/" ++ package

end Config

end GoTrees
