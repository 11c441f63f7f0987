import GoTrees.Yaml.Token.Basic
import GoTrees.Yaml.Token.Label
import GoTrees.Yaml.Token.Text

/-!
# From text to tokens

Most keys are known as such only when their colon is met, so the place where a key may have started is
kept, and the tokens of the key are put in front of it later. A key ends on its line and has at most 1024
characters. Outside brackets, a token further in than the block around it starts a block, and one further
out ends blocks.
-/

namespace GoTrees.Yaml

/-- A place where a key may have started. -/
structure KeyStart where
  /-- The number of tokens before it. -/
  before : Nat
  mark : Mark
  /-- Does a key have to stand here? -/
  isRequired : Bool
  deriving Repr

/-- How far a text is split into tokens. -/
structure Scanner where
  source : Source
  /-- The tokens so far, the last one first. -/
  tokens : List Token := []
  /-- The number of tokens. -/
  count : Nat := 0
  /-- May a key start here? -/
  keyAllowed : Bool := true
  /-- Where a key may have started, within the innermost brackets. -/
  key : Option KeyStart := none
  /-- The same for the brackets around them. -/
  outerKeys : List (Option KeyStart) := []
  /-- The column of the innermost block. -/
  indent : Int := -1
  /-- The columns of the blocks around it. -/
  outerIndents : List Int := []
  /-- The place right after a quoted scalar. -/
  quoteEnd : Option Nat := none
  deriving Repr

/-- The most characters of a key. -/
def keyLimit : Nat := 1024

/-- The most brackets within each other. -/
def flowLimit : Nat := 255

namespace Scanner

/-! ### Tokens, keys and blocks -/

/-- Is it within brackets? -/
def inFlow (s : Scanner) : Bool := !s.outerKeys.isEmpty

/-- The column of what is left. -/
def column (s : Scanner) : Nat := s.source.mark.column

def push (s : Scanner) (t : Token) : Scanner := { s with tokens := t :: s.tokens, count := s.count + 1 }

/-- With a token after the first `before` ones. -/
def insert (s : Scanner) (before : Nat) (t : Token) : Scanner :=
  let later := s.count - before
  { s with tokens := s.tokens.take later ++ t :: s.tokens.drop later, count := s.count + 1 }

/-- Past some characters. -/
def advance (s : Scanner) (count : Nat) : Scanner := { s with source := s.source.advance count }

/-- A key may start next, or may not. -/
def allowKey (s : Scanner) (allowed : Bool) : Scanner := { s with keyAllowed := allowed }

/-- No key has started; if one had to, the text is malformed. -/
def dropKey? (s : Scanner) : Option Scanner :=
  if s.key.any (·.isRequired) then none else some { s with key := none }

/-- Keeps the place as the start of a key, if one may start here. -/
def markKey? (s : Scanner) : Option Scanner :=
  if s.keyAllowed then
    s.dropKey?.map fun s =>
      { s with key := some {
          before := s.count
          mark := s.source.mark
          isRequired := s.inFlow && s.indent == s.column } }
  else some s

/-- Is a key that started there too long by now, or not on one line? -/
def isStale (m : Mark) (k : KeyStart) : Bool := k.mark.line < m.line || k.mark.index + keyLimit < m.index

/-- Forgets the starts of keys that are stale; none of them may have been required. -/
def dropStale? (s : Scanner) : Option Scanner :=
  let stale := isStale s.source.mark
  if (s.key :: s.outerKeys).any fun k => k.any fun k => stale k && k.isRequired then none
  else
    let fresh (k : Option KeyStart) : Option KeyStart := k.filter fun k => !stale k
    some { s with key := fresh s.key, outerKeys := s.outerKeys.map fresh }

/-- Starts a block if the column is further in than the block around it. -/
def startBlock (s : Scanner) (column : Nat) (before : Nat) (t : Token) : Scanner :=
  if !s.inFlow && s.indent < column then
    { s.insert before t with indent := column, outerIndents := s.indent :: s.outerIndents }
  else s

/-- Ends the blocks that are further in than a column, where these are the columns of outer blocks. -/
def endBlocksFrom (column : Int) (s : Scanner) : List Int → Scanner
  | [] => s
  | outer :: more =>
    if column < s.indent then
      endBlocksFrom column ({ s with indent := outer, outerIndents := more }.push .blockEnd) more
    else s

/-- Ends the blocks that are further in than a column. -/
def endBlocks (s : Scanner) (column : Int) : Scanner :=
  if s.inFlow then s else endBlocksFrom column s s.outerIndents

/-! ### Gaps -/

/-- Past blanks, breaks and comments: whether a key may start there, and what is left. A tab is a blank
only where no key may start; outside brackets one may after a break. -/
def gapFrom (inFlow inComment allowed : Bool) (m : Mark) : List Char → Bool × Source
  | [] => (allowed, ⟨[], m⟩)
  | c :: cs =>
    if isBreak c then gapFrom inFlow false (allowed || !inFlow) (m.after c) cs
    else if inComment || c == ' ' || (c == '\t' && (inFlow || !allowed)) then
      gapFrom inFlow inComment allowed (m.after c) cs
    else if c == '#' then gapFrom inFlow true allowed (m.after c) cs
    else (allowed, ⟨c :: cs, m⟩)

/-- Past blanks, breaks and comments. -/
def skipGap (s : Scanner) : Scanner :=
  let (keyAllowed, source) := gapFrom s.inFlow false s.keyAllowed s.source.mark s.source.rest
  { s with keyAllowed, source }

/-! ### Kinds of tokens -/

def directive? (s : Scanner) : Option Scanner :=
  match (s.endBlocks (-1)).dropKey?, Yaml.directive? (s.source.advance 1) with
  | some s, some source => some ({ s with source }.allowKey false |>.push .directive)
  | _, _ => none

/-- A line between documents. -/
def marker? (s : Scanner) (t : Token) : Option Scanner :=
  (s.endBlocks (-1)).dropKey?.map fun s => (s.allowKey false).advance 3 |>.push t

def open? (s : Scanner) (t : Token) : Option Scanner :=
  if flowLimit ≤ s.outerKeys.length then none
  else s.markKey?.map fun s =>
    { s with key := none, outerKeys := s.key :: s.outerKeys }.allowKey true |>.advance 1 |>.push t

def close? (s : Scanner) (t : Token) : Option Scanner :=
  s.dropKey?.map fun s =>
    let s := match s.outerKeys with
      | key :: outerKeys => { s with key, outerKeys }
      | [] => s
    (s.allowKey false).advance 1 |>.push t

def comma? (s : Scanner) : Option Scanner :=
  s.dropKey?.map fun s => (s.allowKey true).advance 1 |>.push .flowEntry

/-- A dash before an item. -/
def dash? (s : Scanner) : Option Scanner :=
  if s.inFlow || !s.keyAllowed then none
  else
    (s.startBlock s.column s.count .blockSequenceStart).dropKey?.map fun s =>
      (s.allowKey true).advance 1 |>.push .blockEntry

/-- A question mark before a key. -/
def question? (s : Scanner) : Option Scanner :=
  if !s.inFlow && !s.keyAllowed then none
  else
    (s.startBlock s.column s.count .blockMappingStart).dropKey?.map fun s =>
      (s.allowKey !s.inFlow).advance 1 |>.push .key

/-- A colon after a key. The key has started earlier on the line, or with a question mark. -/
def colon? (s : Scanner) : Option Scanner :=
  match s.key with
  | some k =>
    let s := (s.insert k.before .key).startBlock k.mark.column k.before .blockMappingStart
    some ({ s with key := none }.allowKey false |>.advance 1 |>.push .value)
  | none =>
    if !s.inFlow && !s.keyAllowed then none
    else
      let s := s.startBlock s.column s.count .blockMappingStart
      some ((s.allowKey !s.inFlow).advance 1 |>.push .value)

/-- Something that a key can start with, after which no key may start. -/
def word? (s : Scanner) (read : Source → Option (Token × Source)) : Option Scanner :=
  match s.markKey?, read s.source with
  | some s, some (t, source) => some ({ s with source }.allowKey false |>.push t)
  | _, _ => none

/-- A quoted scalar, which a colon may follow directly. -/
def quoted? (s : Scanner) (double : Bool) : Option Scanner :=
  (s.word? fun source =>
    (quotedText? double (source.advance 1)).map fun (text, rest) => (.scalar .quoted text, rest)).map
  fun s => { s with quoteEnd := some s.source.mark.index }

/-- A block scalar. -/
def block? (s : Scanner) (joined : Bool) : Option Scanner :=
  (s.word? fun source =>
    (blockText? joined s.indent (source.advance 1)).map fun (text, rest) =>
      (.scalar .quoted text, rest)).map (·.allowKey true)

/-- A plain scalar. A key may start after it if lines ended there. -/
def plain? (s : Scanner) : Option Scanner :=
  match s.markKey?, plainText? s.inFlow (s.indent + 1) s.source with
  | some s, some (text, broken, source) =>
    some ({ s with source }.allowKey broken |>.push (.scalar .plain text))
  | _, _ => none

/-- The token that starts with a character. -/
def token? (s : Scanner) (c : Char) (cs : List Char) : Option Scanner :=
  match c with
  | '[' => s.open? .flowSequenceStart
  | '\x7b' => s.open? .flowMappingStart
  | ']' => s.close? .flowSequenceEnd
  | '\x7d' => s.close? .flowMappingEnd
  | ',' => s.comma?
  | '*' => s.word? fun source => (anchorName? (source.advance 1)).map fun (n, rest) => (.alias n, rest)
  | '&' => s.word? fun source => (anchorName? (source.advance 1)).map fun (n, rest) => (.anchor n, rest)
  | '!' => s.word? fun source => (tag? (source.advance 1)).map fun (t, rest) => (.tag t, rest)
  | '\'' => s.quoted? false
  | '"' => s.quoted? true
  | '|' => if s.inFlow then s.plain? else s.block? false
  | '>' => if s.inFlow then s.plain? else s.block? true
  | '-' => if gapFollows cs then s.dash? else s.plain?
  | '?' => if gapFollows cs then s.question? else s.plain?
  | ':' =>
    let afterQuote := s.quoteEnd == some s.source.mark.index
    if gapFollows cs || (s.inFlow && (flowMarkFollows cs || afterQuote)) then s.colon? else s.plain?
  | '%' | '@' | '\x60' => none
  | _ => s.plain?

/-- The next token, which starts with a character. -/
def next? (s : Scanner) (c : Char) (cs : List Char) : Option Scanner :=
  let lineStarts := s.column == 0
  if lineStarts && c == '%' then s.directive?
  else if lineStarts && startsWithMarker '-' (c :: cs) then s.marker? .documentStart
  else if lineStarts && startsWithMarker '.' (c :: cs) then s.marker? .documentEnd
  else s.token? c cs

/-- The tokens of what is left. Every step reads a character, so their number bounds the steps. -/
def run : Nat → Scanner → Option (List Token)
  | 0, _ => none
  | steps + 1, s =>
    match s.skipGap.dropStale? with
    | none => none
    | some s =>
      let s := s.endBlocks s.column
      match s.source.rest with
      | [] => (s.endBlocks (-1)).dropKey?.map fun s => s.tokens.reverse
      | c :: cs =>
        match s.next? c cs with
        | none => none
        | some s => run steps s

end Scanner

def Token.scan? (text : String) : Option (List Token) :=
  let source := Source.ofText text
  ({ source } : Scanner).run (source.rest.length + 1)

end GoTrees.Yaml
