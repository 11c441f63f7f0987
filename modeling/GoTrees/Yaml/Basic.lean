import GoTrees.Binary64.Shortest

/-!
# Document values

A document is a value of the usual kinds: null, truth values, numbers, strings, sequences and mappings.
`Node` is the written form, in which scalars still have their source text and style and a value may stand
for another one; `Value` is what they mean.
-/

namespace GoTrees.Yaml

/-- A value of a document. Whole numbers have 64 bits, with or without a sign. -/
inductive Value where
  | null
  | bool (b : Bool)
  | int (n : Int)
  | float (x : Binary64)
  | string (s : String)
  | sequence (items : List Value)
  /-- Keys are unique. -/
  | mapping (pairs : List (Value × Value))
  deriving BEq, Repr, Inhabited

namespace Value

/-- The pairs without those whose key comes again later. -/
def lastOfEach : List (Value × Value) → List (Value × Value)
  | [] => []
  | (k, v) :: rest =>
    let rest := lastOfEach rest
    if rest.any fun p => p.1 == k then rest else (k, v) :: rest

/-- The value of a key in a mapping. -/
def get? (v : Value) (key : String) : Option Value :=
  match v with
  | .mapping pairs =>
    pairs.findSome? fun
      | (.string k, w) => if k == key then some w else none
      | _ => none
  | _ => none

def string? (v : Value) (key : String) : Option String :=
  match v.get? key with
  | some (.string s) => some s
  | _ => none

/-- The truth value of a key. -/
def bool? (v : Value) (key : String) : Option Bool :=
  match v.get? key with
  | some (.bool b) => some b
  | _ => none

/-- The whole number of a key, within 32 bits. -/
def int32? (v : Value) (key : String) : Option Int :=
  match v.get? key with
  | some (.int n) => if -0x80000000 ≤ n && n < 0x80000000 then some n else none
  | _ => none

/-- The items of the sequence of a key, none if there is no sequence. -/
def items (v : Value) (key : String) : List Value :=
  match v.get? key with
  | some (.sequence items) => items
  | _ => []

/-- The text of a number: infinities and what is not a number have a point in front. -/
def floatText : Binary64 → String
  | .nan => ".nan"
  | .infinite negative => Binary64.signText negative ++ ".inf"
  | x => x.text

/-- The text of a scalar; null, sequences and mappings have none. -/
def scalarText : Value → String
  | .string s => s
  | .bool b => if b then "true" else "false"
  | .int n => toString n
  | .float x => floatText x
  | .null | .sequence _ | .mapping _ => ""

/-- The name that stands for an alternative: a string, or the only key of a mapping to null. -/
def alternative? : Value → Option String
  | .string s => some s
  | .mapping [(.string s, .null)] => some s
  | _ => none

mutual

/-- How deep a value is nested. -/
def depth : Value → Nat
  | .sequence items => depthOfItems items + 1
  | .mapping pairs => depthOfPairs pairs + 1
  | _ => 0

/-- How deep the deepest item is nested. -/
def depthOfItems : List Value → Nat
  | [] => 0
  | v :: rest => max v.depth (depthOfItems rest)

/-- How deep the deepest value of a key is nested. -/
def depthOfPairs : List (Value × Value) → Nat
  | [] => 0
  | (_, v) :: rest => max v.depth (depthOfPairs rest)

end

end Value

/-- The name of a kind. Kinds that every document knows have the handle `!!`. -/
structure Tag where
  handle : String
  suffix : String
  deriving DecidableEq, Repr

/-- How a scalar is written. A block scalar counts as quoted. -/
inductive Style where
  | plain
  | quoted
  | tagged (tag : Tag)
  deriving DecidableEq, Repr

/-- A value as it is written. -/
inductive Node where
  | scalar (style : Style) (text : String)
  | sequence (items : List Node)
  | mapping (pairs : List (Node × Node))
  /-- The value that has been given a name at this place among the names. -/
  | alias (place : Nat)
  deriving Repr

/-- A value that is left out is written like null. -/
def Node.empty : Node := .scalar .plain "~"

/-- A document as it is written. -/
structure Written where
  root : Node
  /-- The values that have been given a name, in the order of the names. None of them is an alias, but a
  value can hold an alias of itself. -/
  named : Array Node
  deriving Repr

/-- The value itself in place of an alias. -/
def Written.resolve (w : Written) : Node → Node
  | .alias place => w.named[place]?.getD (.alias place)
  | n => n

end GoTrees.Yaml
