import GoTrees.Text.Blank
import GoTrees.Text.Search
import GoTrees.Text.Word

/-!
# Type spellings

Native types are spelled as in the C family: `const unsigned int&`, `behaviac::vector<Vec2>`. A
spelling is words, which may be `::` paths, then template arguments, then pointer and reference
marks. The qualifiers among the words are set apart, the other words form the name.
-/

namespace GoTrees

inductive Sign where
  | signed
  | unsigned
  deriving DecidableEq, Repr

/-- The parts of a type spelling. -/
structure Spelling where
  isConst : Bool
  sign : Option Sign
  /-- The words that are no qualifiers, with single spaces between them. -/
  name : String
  args : List Spelling
  /-- How many `*` follow. -/
  pointer : Nat
  /-- Does a `&` follow? -/
  reference : Bool
  deriving Repr

namespace Spelling

open Text

/-- The `::` parts that follow the first identifier of a path. -/
def pathTail : Nat → List Char → List Char × List Char
  | fuel + 1, ':' :: ':' :: cs =>
    match identifier? cs with
    | some (name, rest) =>
      let (more, rest) := pathTail fuel rest
      (':' :: ':' :: name ++ more, rest)
    | none => ([], ':' :: ':' :: cs)
  | _, cs => ([], cs)

/-- Identifiers joined by `::`. -/
def path? (cs : List Char) : Option (List Char × List Char) :=
  (identifier? cs).map fun (name, rest) =>
    let (more, rest) := pathTail rest.length rest
    (name ++ more, rest)

/-- The paths that follow, each after at least one blank. -/
def moreWords : Nat → List Char → List (List Char) × List Char
  | 0, cs => ([], cs)
  | fuel + 1, cs =>
    if (cs.takeWhile isSpace).isEmpty then ([], cs)
    else match path? (cs.dropWhile isSpace) with
      | some (word, rest) =>
        let (words, rest) := moreWords fuel rest
        (word :: words, rest)
      | none => ([], cs)

/-- One or more paths with blanks between them. -/
def words? (cs : List Char) : Option (List (List Char) × List Char) :=
  (path? cs).map fun (word, rest) =>
    let (words, rest) := moreWords rest.length rest
    (word :: words, rest)

/-- The pointer and reference marks, with blanks before each. -/
def marks : Nat → List Char → List Char × List Char
  | 0, cs => ([], cs)
  | fuel + 1, cs =>
    match cs.dropWhile isSpace with
    | '*' :: rest =>
      let (more, rest) := marks fuel rest
      ('*' :: more, rest)
    | '&' :: rest =>
      let (more, rest) := marks fuel rest
      ('&' :: more, rest)
    | _ => ([], cs)

/-- Sets a word apart if it is a qualifier. -/
def addWord (s : Spelling) (word : String) : Spelling :=
  match word with
  | "const" => { s with isConst := true }
  | "signed" => { s with sign := some .signed }
  | "unsigned" => { s with sign := some .unsigned }
  | _ => s

def isQualifier (word : String) : Bool :=
  word == "const" || word == "signed" || word == "unsigned"

/-- The spelling made of these words, arguments and marks. -/
def ofParts (words : List (List Char)) (args : List Spelling) (marks : List Char) : Spelling :=
  let words := words.map String.ofList
  let bare : Spelling :=
    { isConst := false
      sign := none
      name := join " " (words.filter fun w => !isQualifier w)
      args
      pointer := marks.count '*'
      reference := marks.contains '&' }
  words.foldl addWord bare

mutual

/-- A spelling with the blanks around it, and the rest of the characters. -/
def parseChars : Nat → List Char → Option (Spelling × List Char)
  | 0, _ => none
  | fuel + 1, cs =>
    match words? (cs.dropWhile isSpace) with
    | none => none
    | some (words, rest) =>
      let (args, rest) := (parseArgs fuel (rest.dropWhile isSpace)).getD ([], rest)
      let (marks, rest) := marks rest.length rest
      some (ofParts words args marks, rest.dropWhile isSpace)

/-- Template arguments between angle brackets. -/
def parseArgs : Nat → List Char → Option (List Spelling × List Char)
  | fuel + 1, '<' :: cs =>
    match parseChars fuel (cs.dropWhile isSpace) with
    | none => none
    | some (first, rest) =>
      let (more, rest) := parseMoreArgs fuel rest
      match rest.dropWhile isSpace with
      | '>' :: rest => some (first :: more, rest)
      | _ => none
  | _, _ => none

/-- The arguments that follow, each after a comma. -/
def parseMoreArgs : Nat → List Char → List Spelling × List Char
  | 0, cs => ([], cs)
  | fuel + 1, cs =>
    match cs.dropWhile isSpace with
    | ',' :: rest =>
      match parseChars fuel (rest.dropWhile isSpace) with
      | some (arg, rest) =>
        let (more, rest) := parseMoreArgs fuel rest
        (arg :: more, rest)
      | none => ([], cs)
    | _ => ([], cs)

end

/-- The spelling at the front of a text, and the rest. Every step takes a character off, so the
length of the text bounds the steps. -/
def parse? (s : String) : Option (Spelling × String) :=
  (parseChars (s.length + 1) s.toList).map fun (spelling, rest) => (spelling, .ofList rest)

end Spelling

end GoTrees
