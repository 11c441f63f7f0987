import GoTrees.Yaml.Scalar
import GoTrees.Yaml.Token.Scan

/-!
# From tokens to values

A text holds one document. Items, keys and values that are left out are empty, and a sequence may stand
in a mapping without being further in than its key. An alias stands for the latest value before it that
has its name.
-/

namespace GoTrees.Yaml

/-- How far tokens are read. -/
structure Reader where
  tokens : List Token
  /-- The names that have been given, the latest one first, with their values once these are complete. -/
  anchors : List (String × Node) := []

/-- Steps of a reader, which can fail. -/
abbrev Reading := StateT Reader Option

namespace Reading

/-! ### Tokens -/

/-- The next token. -/
def peek : Reading (Option Token) := do return (← get).tokens.head?

/-- Is the next token one of these? -/
def sees (ts : List Token) : Reading Bool := do return (← peek).any ts.contains

/-- Past the next token. -/
def skip : Reading Unit := modify fun r => { r with tokens := r.tokens.drop 1 }

/-- Past a token, if it is the next one. -/
def accepts (t : Token) : Reading Bool := do
  if ← sees [t] then
    skip
    return true
  else return false

/-- Past a token, which has to be the next one. -/
def expect (t : Token) : Reading Unit := do
  unless ← accepts t do failure

/-! ### Named values -/

/-- Gives a name to the value that follows. -/
def openAnchor (name : String) : Reading Nat := do
  let place := (← get).anchors.length
  modify fun r => { r with anchors := (name, .empty) :: r.anchors }
  return place

/-- Completes the value of the name that was given at a place. -/
def closeAnchor (place : Nat) (n : Node) : Reading Unit :=
  modify fun r =>
    { r with anchors := r.anchors.modify (r.anchors.length - 1 - place) fun (name, _) => (name, n) }

/-- An alias of the latest value that has been given a name, which need not be complete. -/
def namedValue (name : String) : Reading Node := do
  let anchors := (← get).anchors
  match anchors.findIdx? fun a => a.1 == name with
  | some later => return .alias (anchors.length - 1 - later)
  | none => failure

/-- An anchor, if there is one. -/
def anchor? : Reading (Option Nat) := do
  match ← peek with
  | some (.anchor name) =>
    skip
    return some (← openAnchor name)
  | _ => return none

/-- A tag, if there is one. -/
def tag? : Reading (Option Tag) := do
  match ← peek with
  | some (.tag t) =>
    skip
    return some t
  | _ => return none

/-- The anchor and the tag of a value, in either order. -/
def labels : Reading (Option Nat × Option Tag) := do
  let first ← anchor?
  let tag ← tag?
  let anchor ← if first.isSome then pure first else anchor?
  return (anchor, tag)

/-- The style of a scalar that may have a tag. -/
def styled (style : Style) : Option Tag → Style
  | some t => .tagged t
  | none => style

/-! ### Values -/

/-- A value that is left out after a label. -/
def nothing (labelled : Bool) (tag : Option Tag) : Reading Node :=
  if labelled then return .scalar (styled .plain tag) "" else failure

mutual

/-- A value. In brackets it is no block; after a key the items of a sequence may follow without a start. -/
def node : Nat → Bool → Bool → Reading Node
  | 0, _, _ => failure
  | fuel + 1, inBlock, afterKey => do
    match ← peek with
    | some (.alias name) =>
      skip
      namedValue name
    | _ =>
      let (anchor, tag) ← labels
      let n ← content fuel inBlock afterKey (anchor.isSome || tag.isSome) tag
      if let some place := anchor then closeAnchor place n
      return n

/-- A value after its labels. With a label it can be empty. -/
def content : Nat → Bool → Bool → Bool → Option Tag → Reading Node
  | 0, _, _, _, _ => failure
  | fuel + 1, inBlock, afterKey, labelled, tag => do
    match ← peek with
    | some (.scalar style text) =>
      skip
      return .scalar (styled style tag) text
    | some .flowSequenceStart =>
      skip
      return .sequence (← flowItems fuel true)
    | some .flowMappingStart =>
      skip
      return .mapping (← flowPairs fuel true)
    | some t =>
      if t == .blockEntry && afterKey then return .sequence (← looseItems fuel)
      else if t == .blockSequenceStart && inBlock then
        skip
        return .sequence (← blockItems fuel)
      else if t == .blockMappingStart && inBlock then
        skip
        return .mapping (← blockPairs fuel)
      else nothing labelled tag
    | none => nothing labelled tag

/-- A value, or an empty one before these tokens. -/
def nodeBefore : Nat → Bool → Bool → List Token → Reading Node
  | 0, _, _, _ => failure
  | fuel + 1, inBlock, afterKey, ends => do
    if ← sees ends then return .empty else node fuel inBlock afterKey

def blockItems : Nat → Reading (List Node)
  | 0 => failure
  | fuel + 1 => do
    if ← accepts .blockEnd then return []
    expect .blockEntry
    let n ← nodeBefore fuel true false [.blockEntry, .blockEnd]
    return n :: (← blockItems fuel)

/-- The items that follow without a start, and without an end. -/
def looseItems : Nat → Reading (List Node)
  | 0 => failure
  | fuel + 1 => do
    if ← accepts .blockEntry then
      let n ← nodeBefore fuel true false [.blockEntry, .key, .value, .blockEnd]
      return n :: (← looseItems fuel)
    else return []

/-- The keys and values of a block. -/
def blockPairs : Nat → Reading (List (Node × Node))
  | 0 => failure
  | fuel + 1 => do
    if ← accepts .blockEnd then return []
    let k ← if ← accepts .key then nodeBefore fuel true true [.key, .value, .blockEnd]
      else if ← sees [.value] then pure .empty
      else failure
    let v ← valueBefore fuel true [.key, .value, .blockEnd]
    return (k, v) :: (← blockPairs fuel)

/-- A value after its colon, or an empty one where there is no colon. -/
def valueBefore : Nat → Bool → List Token → Reading Node
  | 0, _, _ => failure
  | fuel + 1, inBlock, ends => do
    if ← accepts .value then nodeBefore fuel inBlock inBlock ends else return .empty

/-- The items in square brackets; commas separate them. -/
def flowItems : Nat → Bool → Reading (List Node)
  | 0, _ => failure
  | fuel + 1, first => do
    if ← accepts .flowSequenceEnd then return []
    unless first do expect .flowEntry
    if ← accepts .flowSequenceEnd then return []
    let n ← if ← accepts .key then flowPair fuel else node fuel false false
    return n :: (← flowItems fuel false)

/-- An item that is a mapping of one key. A key that is left out takes the next token with it. -/
def flowPair : Nat → Reading Node
  | 0 => failure
  | fuel + 1 => do
    let k ← if ← sees [.value, .flowEntry, .flowSequenceEnd] then
        skip
        pure .empty
      else node fuel false false
    let v ← valueBefore fuel false [.flowEntry, .flowSequenceEnd]
    return .mapping [(k, v)]

/-- The keys and values in braces; commas separate them. A key without a colon has an empty value. -/
def flowPairs : Nat → Bool → Reading (List (Node × Node))
  | 0, _ => failure
  | fuel + 1, first => do
    if ← accepts .flowMappingEnd then return []
    unless first do expect .flowEntry
    if ← accepts .flowMappingEnd then return []
    let pair ← if ← accepts .key then
        let k ← nodeBefore fuel false false [.value, .flowEntry, .flowMappingEnd]
        pure (k, ← valueBefore fuel false [.flowEntry, .flowMappingEnd])
      else if ← sees [.value] then
        pure (.empty, ← valueBefore fuel false [.flowEntry, .flowMappingEnd])
      else
        pure (← node fuel false false, .empty)
    return pair :: (← flowPairs fuel false)

end

/-! ### Documents -/

/-- Past all tokens of a kind. -/
def skipAll (t : Token) : Reading Unit :=
  modify fun r => { r with tokens := r.tokens.dropWhile (· == t) }

/-- The only document. One that starts with a marker can be empty. -/
def document (fuel : Nat) : Reading Node := do
  let n ← if ← sees [.directive, .documentStart] then
      skipAll .directive
      expect .documentStart
      if (← peek).isNone then pure .empty
      else nodeBefore fuel true false [.directive, .documentStart, .documentEnd]
    else node fuel true false
  skipAll .documentEnd
  if (← peek).isSome then failure
  return n

end Reading

/-- The only document of a list of tokens. Every token is met by a few steps at most. -/
def Written.ofTokens? (tokens : List Token) : Option Written :=
  ((Reading.document (4 * tokens.length + 4)).run { tokens }).map fun (root, r) =>
    { root, named := (r.anchors.reverse.map Prod.snd).toArray }

/-- The only document of a text, as it is written. -/
def read? (text : String) : Option Written := (Token.scan? text).bind Written.ofTokens?

/-- The value of the only document of a text. -/
def parse? (text : String) : Option Value := (read? text).bind Written.value?

end GoTrees.Yaml
