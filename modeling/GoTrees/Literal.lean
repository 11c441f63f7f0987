import GoTrees.Numeral
import GoTrees.Text.Blank
import GoTrees.Text.Word

/-!
# Encoded literals

Values in documents are encoded as text: a scalar as itself, an array as its length and its items
(`3:1|2|3`), a struct as its fields (`{x=1;y=2;}`). A literal is the shape of such a text
before it is given a type.
-/

namespace GoTrees

/-- The shape of an encoded value. -/
inductive Literal where
  | scalar (text : String)
  | array (items : List Literal)
  | struct (fields : List (String × Literal))
  deriving Repr

namespace Literal

open Text Numeral

/-- A scalar runs to the first of the stop characters and loses the blanks around it. -/
def scalarUntil (stop : List Char) (cs : List Char) : Literal × List Char :=
  let inside (c : Char) : Bool := !stop.contains c
  (.scalar (.ofList (trimBy isBlank (cs.takeWhile inside))), cs.dropWhile inside)

/-- The length in front of an array, `N:`. -/
def count? (cs : List Char) : Option (Nat × List Char) :=
  let cs := cs.dropWhile isSpace
  let digits := cs.takeWhile isDigit
  if digits.isEmpty then none
  else match (cs.dropWhile isDigit).dropWhile isSpace with
    | ':' :: rest => some (ofDigits digits, rest)
    | _ => none

/-- The items up to the length of the array; a length of more than 64 bits is no bound. -/
def bounded (count : Nat) (items : List Literal) : List Literal :=
  if count < Nat.pow 2 64 then items.take count else items

/-- The name in front of a field and its equals sign. -/
def fieldName? (cs : List Char) : Option (String × List Char) :=
  match identifier? (cs.dropWhile isBreakOrSpace) with
  | none => none
  | some (name, rest) =>
    match rest.dropWhile isSpace with
    | '=' :: rest => some (.ofList name, rest.dropWhile isSpace)
    | _ => none

/-- Drops the semicolon after a field, if there is one. -/
def dropSemicolon : List Char → List Char
  | ';' :: cs => cs
  | cs => cs

/-- Where a scalar ends as the value of a field. -/
def fieldStop : List Char := [';', '\x7d']

/-- Where a scalar ends as an item of an array in a field. -/
def fieldItemStop : List Char := ['|', ';', '\x7d']

mutual

/-- A struct between braces. -/
def parseStruct : Nat → List Char → Option (Literal × List Char)
  | 0, _ => none
  | fuel + 1, cs =>
    match cs.dropWhile isSpace with
    | '\x7b' :: rest =>
      let (fields, rest) := parseFields fuel rest
      match rest.dropWhile isBreakOrSpace with
      | '\x7d' :: rest => some (.struct fields, rest)
      | _ => none
    | _ => none

/-- As many fields as there are. -/
def parseFields : Nat → List Char → List (String × Literal) × List Char
  | 0, cs => ([], cs)
  | fuel + 1, cs =>
    match fieldName? cs with
    | none => ([], cs)
    | some (name, rest) =>
      let (value, rest) := parseFieldValue fuel rest
      let (more, rest) := parseFields fuel (dropSemicolon rest)
      ((name, value) :: more, rest)

/-- The value of a field: a struct, else an array, else a scalar. -/
def parseFieldValue : Nat → List Char → Literal × List Char
  | 0, cs => scalarUntil fieldStop cs
  | fuel + 1, cs =>
    match parseStruct fuel cs with
    | some found => found
    | none =>
      match count? cs with
      | some (count, rest) =>
        let (items, rest) := parseItems fuel fieldItemStop rest
        (.array (bounded count items), rest)
      | none => scalarUntil fieldStop cs

/-- One or more items with bars between them, each a struct or a scalar. -/
def parseItems : Nat → List Char → List Char → List Literal × List Char
  | 0, _, cs => ([], cs)
  | fuel + 1, stop, cs =>
    let (item, rest) := (parseStruct fuel cs).getD (scalarUntil stop cs)
    match rest with
    | '|' :: rest =>
      let (more, rest) := parseItems fuel stop rest
      (item :: more, rest)
    | _ => ([item], rest)

end

/-- The literal at the front of the characters, and the rest: a struct, else an array, else a scalar
that takes everything. -/
def parseChars (cs : List Char) : Literal × List Char :=
  let fuel := cs.length + 3
  match parseStruct fuel cs with
  | some found => found
  | none =>
    match count? cs with
    | some (count, rest) =>
      let (items, rest) := parseItems fuel ['|'] rest
      (.array (bounded count items), rest)
    | none => scalarUntil [] cs

/-- The literal at the front of a text, and the rest. -/
def parse (s : String) : Literal × String :=
  let (literal, rest) := parseChars s.toList
  (literal, .ofList rest)

end Literal

end GoTrees
