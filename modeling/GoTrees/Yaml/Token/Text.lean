import GoTrees.Numeral
import GoTrees.Yaml.Source

/-!
# The text of scalars

Plain and quoted scalars can go over several lines, which are joined by spaces; empty lines among them
are line breaks. A block scalar is a number of indented lines, kept or joined. Texts are gathered with
their last character first.
-/

namespace GoTrees.Yaml

/-! ### Between words -/

/-- What stands between two words of a scalar. -/
inductive Gap where
  | none
  /-- Blanks within a line, the last one first. -/
  | blanks (cs : List Char)
  /-- Line breaks. -/
  | breaks (count : Nat)
  /-- Line breaks after one that is escaped. -/
  | joined (count : Nat)
  deriving Repr

namespace Gap

/-- With one more blank. Blanks around line breaks do not count. -/
def addBlank (c : Char) : Gap → Gap
  | .none => .blanks [c]
  | .blanks cs => .blanks (c :: cs)
  | g => g

/-- With one more line break. -/
def addBreak : Gap → Gap
  | .none | .blanks _ => .breaks 1
  | .breaks n => .breaks (n + 1)
  | .joined n => .joined (n + 1)

/-- Is there nothing between the words? -/
def isNone : Gap → Bool
  | .none => true
  | _ => false

/-- Are the words on different lines? -/
def isBroken : Gap → Bool
  | .breaks _ | .joined _ => true
  | _ => false

/-- What the gap is in the text: one break is a space, and of more the first is dropped. -/
def text : Gap → List Char
  | .none => []
  | .blanks cs => cs
  | .breaks n => if n ≤ 1 then [' '] else List.replicate (n - 1) '\n'
  | .joined n => List.replicate n '\n'

end Gap

/-! ### Plain scalars -/

/-- Does a plain scalar end before this character? -/
def endsPlain (inFlow : Bool) (indent : Int) (gap : Gap) (m : Mark) (c : Char) (cs : List Char) : Bool :=
  markerFollows m (c :: cs)
    || (!gap.isNone && (c == '#' || (!inFlow && m.column < indent)))
    || (c == ':' && (gapFollows cs || (inFlow && flowMarkFollows cs)))
    || (inFlow && isFlowMark c)

/-- More of a plain scalar whose lines are indented this far: its text, what stands after its last word,
and what is left. A tab cannot indent a line. -/
def plainFrom (inFlow : Bool) (indent : Int) (text : List Char) (gap : Gap) (m : Mark) :
    List Char → Option (List Char × Gap × Source)
  | [] => some (text, gap, ⟨[], m⟩)
  | c :: cs =>
    if isGap c then
      if c == '\t' && gap.isBroken && m.column < indent then none
      else plainFrom inFlow indent text (gap.addBlank c) (m.after c) cs
    else if isBreak c then plainFrom inFlow indent text gap.addBreak (m.after c) cs
    else if endsPlain inFlow indent gap m c cs then some (text, gap, ⟨c :: cs, m⟩)
    else plainFrom inFlow indent (c :: (gap.text ++ text)) .none (m.after c) cs

/-- A plain scalar: its text, whether lines ended after it, and what is left. -/
def plainText? (inFlow : Bool) (indent : Int) (s : Source) : Option (String × Bool × Source) :=
  (plainFrom inFlow indent [] .none s.mark s.rest).map fun (text, gap, rest) =>
    (.ofList text.reverse, gap.isBroken, rest)

/-! ### Quoted scalars -/

/-- How far a quoted scalar is read. -/
inductive QuotedPart where
  | text
  /-- After a backslash. -/
  | escape
  /-- Within the number of a character, of which some digits are missing. -/
  | code (missing : Nat) (number : Nat)
  deriving Repr

/-- The character that an escape stands for. -/
def escapedChar? (c : Char) : Option Char :=
  List.lookup c
    [('0', '\x00'), ('a', '\x07'), ('b', '\x08'), ('t', '\t'), ('\t', '\t'), ('n', '\n'), ('v', '\x0b'),
     ('f', '\x0c'), ('r', '\r'), ('e', '\x1b'), (' ', ' '), ('"', '"'), ('\'', '\''), ('\\', '\\'),
     ('N', '\u0085'), ('_', '\u00a0'), ('L', '\u2028'), ('P', '\u2029')]

/-- How many digits the number of a character has after an escape. -/
def codeLength? (c : Char) : Option Nat := List.lookup c [('x', 2), ('u', 4), ('U', 8)]

/-- More of a quoted scalar, up to its closing quote: its text and what is left. -/
def quotedFrom (double : Bool) (part : QuotedPart) (text : List Char) (gap : Gap) (m : Mark) :
    List Char → Option (List Char × Source)
  | [] => none
  | c :: cs =>
    match part with
    | .escape =>
      if isBreak c then quotedFrom double .text text (.joined 0) (m.after c) cs
      else match codeLength? c, escapedChar? c with
        | some n, _ => quotedFrom double (.code n 0) text .none (m.after c) cs
        | none, some x => quotedFrom double .text (x :: text) .none (m.after c) cs
        | none, none => none
    | .code missing number =>
      match Numeral.digitOf? 16 c with
      | none => none
      | some d =>
        let number := 16 * number + d
        if 1 < missing then quotedFrom double (.code (missing - 1) number) text .none (m.after c) cs
        else if number.isValidChar then
          quotedFrom double .text (Char.ofNat number :: text) .none (m.after c) cs
        else none
    | .text =>
      if markerFollows m (c :: cs) then none
      else if isGap c then quotedFrom double .text text (gap.addBlank c) (m.after c) cs
      else if isBreak c then quotedFrom double .text text gap.addBreak (m.after c) cs
      else if double && c == '\\' then quotedFrom double .escape (gap.text ++ text) .none (m.after c) cs
      else if c == (if double then '"' else '\'') then
        match double, cs with
        | false, '\'' :: more =>
          quotedFrom double .text ('\'' :: (gap.text ++ text)) .none ((m.after c).after '\'') more
        | _, _ => some (gap.text ++ text, ⟨cs, m.after c⟩)
      else quotedFrom double .text (c :: (gap.text ++ text)) .none (m.after c) cs

/-- A quoted scalar after its opening quote: its text and what is left. -/
def quotedText? (double : Bool) (s : Source) : Option (String × Source) :=
  (quotedFrom double .text [] .none s.mark s.rest).map fun (text, rest) => (.ofList text.reverse, rest)

/-! ### Block scalars -/

/-- What happens to the line breaks at the end. -/
inductive Chomp where
  | clip
  | strip
  | keep
  deriving DecidableEq, Repr

/-- The head of a block scalar. -/
structure BlockHead where
  chomp : Chomp := .clip
  /-- How much further in than its surroundings the scalar is, if the head says so. -/
  increment : Option Nat := none
  deriving Repr

/-- The sign for the end of a block scalar, if there is one. -/
def takeChomp (s : Source) : Option Chomp × Source :=
  match s.rest.head? with
  | some '+' => (some .keep, s.advance 1)
  | some '-' => (some .strip, s.advance 1)
  | _ => (none, s)

/-- The digit for the indentation of a block scalar, if there is one. It is not zero. -/
def takeIncrement? (s : Source) : Option (Option Nat × Source) :=
  match s.rest with
  | c :: _ =>
    match Numeral.digitOf? 10 c with
    | some 0 => none
    | some n => some (some n, s.advance 1)
    | none => some (none, s)
  | [] => some (none, s)

/-- The head of a block scalar, and the lines after it. -/
def blockHead? (s : Source) : Option (BlockHead × Source) :=
  let (before, s) := takeChomp s
  match takeIncrement? s with
  | none => none
  | some (increment, s) =>
    let (after, s) := if before.isSome then (none, s) else takeChomp s
    s.endLine?.map fun s => ({ chomp := (before.or after).getD .clip, increment }, s)

/-- The lines of a block scalar so far. -/
structure BlockText where
  text : List Char := []
  /-- Does a break follow the text? -/
  isBroken : Bool := false
  /-- The empty lines after that. -/
  empties : Nat := 0
  /-- Does the last line start with a blank? -/
  isBlankLed : Bool := false
  deriving Repr

namespace BlockText

/-- With one more empty line. -/
def addEmpty (b : BlockText) : BlockText := { b with empties := b.empties + 1 }

/-- With the first character of a line. Joined lines have a space between them, unless one of them
starts with a blank or there are empty lines between them. -/
def addLine (b : BlockText) (joined : Bool) (c : Char) : BlockText :=
  let between : List Char :=
    if !b.isBroken then []
    else if joined && !b.isBlankLed && !isGap c then (if b.empties == 0 then [' '] else [])
    else ['\n']
  { text := c :: (List.replicate b.empties '\n' ++ between ++ b.text), isBlankLed := isGap c }

/-- The text of a whole block scalar. -/
def finish (b : BlockText) (chomp : Chomp) : String :=
  let last : List Char := if b.isBroken then ['\n'] else []
  let tail := match chomp with
    | .strip => []
    | .clip => last
    | .keep => last ++ List.replicate b.empties '\n'
  .ofList (b.text.reverse ++ tail)

end BlockText

/-- How far a block scalar is read. -/
inductive BlockPart where
  /-- Before the first line, with the widest line of blanks so far. -/
  | measure (widest : Nat)
  /-- At the start of a line, which is indented this far. -/
  | start (indent : Nat)
  /-- Within such a line. -/
  | line (indent : Nat)
  deriving Repr

/-- More of a block scalar, whose lines are indented to the column `floor` or further in. -/
def blockFrom (joined : Bool) (floor : Nat) (part : BlockPart) (b : BlockText) (m : Mark) :
    List Char → Option (BlockText × Source)
  | [] => some (b, ⟨[], m⟩)
  | c :: cs =>
    match part with
    | .measure widest =>
      let widest := max widest m.column
      if c == ' ' then blockFrom joined floor (.measure widest) b (m.after c) cs
      else if c == '\t' then none
      else if isBreak c then blockFrom joined floor (.measure widest) b.addEmpty (m.after c) cs
      else if m.column == max widest floor then
        blockFrom joined floor (.line m.column) (b.addLine joined c) (m.after c) cs
      else some (b, ⟨c :: cs, m⟩)
    | .start indent =>
      if isGap c && m.column < indent then
        if c == ' ' then blockFrom joined floor part b (m.after c) cs else none
      else if isBreak c then blockFrom joined floor part b.addEmpty (m.after c) cs
      else if m.column == indent then
        blockFrom joined floor (.line indent) (b.addLine joined c) (m.after c) cs
      else some (b, ⟨c :: cs, m⟩)
    | .line indent =>
      if isBreak c then blockFrom joined floor (.start indent) { b with isBroken := true } (m.after c) cs
      else blockFrom joined floor part { b with text := c :: b.text } (m.after c) cs

/-- A block scalar after its first character, where the block around it is indented this far: its text
and what is left. -/
def blockText? (joined : Bool) (indent : Int) (s : Source) : Option (String × Source) :=
  match blockHead? s with
  | none => none
  | some (head, s) =>
    let part : BlockPart := match head.increment with
      | some n => .start (indent.toNat + n)
      | none => .measure 0
    (blockFrom joined (max (indent + 1).toNat 1) part {} s.mark s.rest).map fun (b, rest) =>
      (b.finish head.chomp, rest)

end GoTrees.Yaml
