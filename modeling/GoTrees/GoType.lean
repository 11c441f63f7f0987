import GoTrees.Text.Blank
import GoTrees.Text.Search

/-!
# Go spellings of native types

A native spelling becomes a Go type by literal replacements in a fixed order, first into a common
native form, then into Go's names; a vector becomes a slice. What no replacement touches stays as it
is. At the end the first of the configured renames that matches is applied.
-/

namespace GoTrees

/-- A configured rename of Go types: `old` becomes `new` wherever it occurs. -/
structure Rename where
  old : String
  new : String
  deriving DecidableEq, Repr

namespace GoType

open Text

/-- Replacements that bring a native spelling into a common form: qualifiers go, string types become
`string`, the long long types become `llong` and `ullong`. -/
def nativeReplacements : List (String × String) :=
  [("unsigned long long", "ullong"),
   ("signed long long", "llong"),
   ("long long", "llong"),
   ("unsigned ", "u"),
   ("signed ", ""),
   ("const ", ""),
   ("behaviac::wstring", "string"),
   ("behaviac::string", "string"),
   ("std::string", "string"),
   ("cszstring", "string"),
   ("szstring", "string"),
   ("char*", "string"),
   ("ubyte", "byte")]

/-- Replacements that bring the common form into Go's names. -/
def goReplacements : List (String × String) :=
  [("::", "."),
   ("*", ""),
   ("&", ""),
   ("ullong", "ulong"),
   ("llong", "long"),
   ("long", "int64"),
   ("char", "byte"),
   ("sbyte", "byte"),
   ("ubyte", "byte"),
   ("float", "float32"),
   ("double", "float64"),
   ("short", "int16"),
   ("behaviac.EBTStatus", "bt.Status"),
   ("EBTStatus", "bt.Status"),
   ("behaviac.Agent", "bt.Agent")]

/-- What a vector spelling starts with once the replacements are done. -/
def vectorLeads : List String := ["vector<", "std.vector<", "behaviac.vector<"]

/-- Applies replacements one after the other and trims the result. -/
def replaceAll (table : List (String × String)) (s : String) : String :=
  trim (table.foldl (fun s (pat, new) => replace s pat new) s)

/-- A vector as a slice; the closing brackets go. -/
def sliced (s : String) : String :=
  match vectorLeads.findSome? (afterLead? s) with
  | some element => replace ("[]" ++ element) ">" ""
  | none => s

/-- The first rename whose old text occurs, applied at all its occurrences. -/
def renamed (renames : List Rename) (s : String) : String :=
  match renames.find? fun r => contains s r.old with
  | some r => replace s r.old r.new
  | none => s

def ofNative (renames : List Rename) (native : String) : String :=
  renamed renames (sliced (replaceAll goReplacements (replaceAll nativeReplacements native)))

/-- The text between the first `<` and the last `>` of a spelling, trimmed. -/
def vectorElement? (native : String) : Option String :=
  match splitFirstChar '<' native.toList with
  | none => none
  | some (_, after) =>
    (splitLastChars ['>'] after).map fun (element, _) => .ofList (trimBy isBlank element)

/-- The element type of a vector spelling, or the spelling itself. -/
def elementOrSelf (native : String) : String := (vectorElement? native).getD native

end GoType

end GoTrees
