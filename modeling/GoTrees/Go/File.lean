import GoTrees.Config
import GoTrees.Go.Render

/-!
# Go files

A file starts with a banner and its path, the package clause and the sorted imports. Runtime packages
are imported under their path, the generated types package under an alias.
-/

namespace GoTrees.Go

/-- Something that a file imports. -/
inductive Import where
  /-- A package of the runtime, such as `bt`. -/
  | runtime (package : String)
  /-- The package of the generated types. -/
  | types
  deriving DecidableEq, Repr

/-- The alias of the generated types package in tree files. -/
def typesAlias : String := "types"

def Import.text (c : Config) : Import → String
  | .runtime package => "\"" ++ c.runtimeImport package ++ "\""
  | .types => typesAlias ++ " \"" ++ c.typesImport ++ "\""

/-- The path of an import line: what follows its last space. -/
def importPath (line : String) : String :=
  match Text.splitLast line " " with
  | some (_, path) => path
  | none => line

/-- Is `a` not after `b` in the order of code points? -/
def textLe (a b : String) : Bool := !decide (b < a)

/-- The import lines without repetitions, by path and then by the whole line. -/
def sortedImports (lines : List String) : List String :=
  (lines.mergeSort textLe).eraseDups.mergeSort fun a b => textLe (importPath a) (importPath b)

/-- The import lines of a set of imports. -/
def importLines (c : Config) (imports : List Import) : List String :=
  sortedImports (imports.map (Import.text c))

/-- A file to be written, by its path below the output root. -/
structure OutputFile where
  path : String
  contents : String
  /-- Does hand-written code in an existing copy survive? -/
  mergeable : Bool := false
  deriving DecidableEq, Repr

/-- The line above and below the banner. -/
def rule : Decl := .comment "---------------------------------------------------------------------"

/-- The warning in the banner. -/
def warning : Decl := .comment "THIS FILE IS AUTO-GENERATED, SO PLEASE DON'T MODIFY IT BY YOURSELF!"

/-- Writes the banner, the package clause and the imports. -/
def writeHeader (path package : String) (imports : List String) (sheet : Sheet) : Sheet :=
  let sheet := Decl.writeAll [rule, warning, .comment ("Export file: " ++ path), rule, .blank] sheet
  let sheet := sheet.line ("package " ++ package)
  if imports.isEmpty then sheet else sheet.blank.block "import (" ")" fun s => s.lines imports

/-- A file of declarations. -/
def assemble (path package : String) (imports : List String) (decls : List Decl) : OutputFile where
  path
  contents := (Decl.writeAll decls (writeHeader path package imports {})).text

end GoTrees.Go
