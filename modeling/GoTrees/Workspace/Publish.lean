import GoTrees.Go.File
import GoTrees.Workspace.FileSystem
import GoTrees.Workspace.Merge

/-!
# Publishing

Generated files are written at their paths from the output root. A mergeable file that already exists is
merged with the existing copy first, and a file whose contents would not change is left untouched. A file
that cannot be published does not keep the others from being published, and directories that were made
for it stay.
-/

namespace GoTrees.Publish

open Go

/-- The names on the way to an output file; slashes separate them, and empty names are dropped. -/
def resolve (path : String) : List String := (Text.split path '/').filter fun s => !s.isEmpty

/-- Names as a path from the root. Names that stay where they are do not show at either end. -/
def relativePath (names : List String) : String :=
  Text.join "/" (FileSystem.trimmed (names.dropWhile (· == ".")))

/-- What became of a file. -/
inductive Outcome where
  | written (names : List String)
  | unchanged (names : List String)
  | failed
  deriving DecidableEq, Repr

/-- The contents to publish, given those of the existing copy. -/
def contents (file : OutputFile) : Option String → String
  | some existing => if file.mergeable then Merge.merge existing file.contents else file.contents
  | none => file.contents

/-- Writes contents that differ from the existing copy. -/
def replaceFile (fs : FileSystem) (names : List String) (text : String) : FileSystem × Outcome :=
  match fs.write names (.text text) with
  | (fs, none) => (fs, .written names)
  | (fs, some _) => (fs, .failed)

def publishFile (fs : FileSystem) (file : OutputFile) : FileSystem × Outcome :=
  let names := resolve file.path
  match fs.read names with
  | .unreadable => (fs, .failed)
  | .absent => replaceFile fs names (contents file none)
  | .text existing =>
    let text := contents file (some existing)
    if text = existing then (fs, .unchanged names) else replaceFile fs names text

/-- Publishes files one after the other. -/
def publish (fs : FileSystem) : List OutputFile → FileSystem × List Outcome
  | [] => (fs, [])
  | file :: files =>
    let (fs, outcome) := publishFile fs file
    let (fs, outcomes) := publish fs files
    (fs, outcome :: outcomes)

end GoTrees.Publish
