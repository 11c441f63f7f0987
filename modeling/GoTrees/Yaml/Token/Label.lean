import GoTrees.Numeral
import GoTrees.Yaml.Basic
import GoTrees.Yaml.Source

/-!
# Names of values and of kinds

An anchor names the value after it, and an alias stands for the value that has the name. A tag names the
kind of the value after it: it is written in full between angle brackets, with a handle between
exclamation marks, or with a single exclamation mark. Directives stand before a document and change
nothing.
-/

namespace GoTrees.Yaml

/-! ### Anchors and aliases -/

/-- May this follow the name of an anchor or alias? -/
def endsName (cs : List Char) : Bool :=
  gapFollows cs || cs.head?.any fun c => ['?', ':', ',', ']', '\x7d', '%', '@', '\x60'].contains c

/-- The name of an anchor or alias after its first character, and what is left. -/
def anchorName? (s : Source) : Option (String × Source) :=
  let (name, rest) := s.span isNameChar
  if !name.isEmpty && endsName rest.rest then some (name, rest) else none

/-! ### Tags -/

/-- Characters of the suffix of a tag. -/
def isSuffixChar (c : Char) : Bool :=
  isNameChar c || [';', '/', '?', ':', '@', '&', '=', '+', '$', ',', '.', '!', '~', '*', '\'', '(', ')', '[',
    ']'].contains c

/-- How many bytes the encoding of a character has, by its first one. -/
def encodedLength? (byte : Nat) : Option Nat :=
  if byte < 0x80 then some 1
  else if byte / 0x20 = 6 then some 2
  else if byte / 0x10 = 14 then some 3
  else if byte / 8 = 30 then some 4
  else none

/-- The suffix of a tag, its last character first, and what is left. A percent sign is followed by a byte
in hexadecimal digits; `missing` bytes complete the character whose bytes so far make up `number`. -/
def suffixFrom (text : List Char) (missing number : Nat) : List Char → Option (List Char × List Char)
  | '%' :: a :: b :: cs =>
    match Numeral.ofDigits? 16 [a, b] with
    | none => none
    | some byte =>
      let length := if missing = 0 then encodedLength? byte else if byte / 0x40 = 2 then some missing else none
      let number := if missing = 0 then byte else 0x100 * number + byte
      match length with
      | none => none
      | some length =>
        if 1 < length then suffixFrom text (length - 1) number cs
        else if number.isValidChar then suffixFrom (Char.ofNat number :: text) 0 0 cs
        else none
  | c :: cs =>
    if 0 < missing || c == '%' then none
    else if isSuffixChar c then suffixFrom (c :: text) 0 0 cs
    else some (text, c :: cs)
  | [] => if 0 < missing then none else some (text, [])

/-- The suffix of a tag and what is left. -/
def suffix? (s : Source) : Option (String × Source) :=
  (suffixFrom [] 0 0 s.rest).map fun (text, rest) =>
    (.ofList text.reverse, s.advance (s.rest.length - rest.length))

/-- A suffix that is not empty, and what is left. -/
def someSuffix? (s : Source) : Option (String × Source) :=
  (suffix? s).filter fun (text, _) => !text.isEmpty

/-- The name between the exclamation mark that has been read and the next, if one follows directly; or
else the name alone. -/
def handle (s : Source) : String × Bool × Source :=
  let (name, rest) := s.span isNameChar
  if rest.rest.head? == some '!' then (name, true, rest.advance 1) else (name, false, rest)

/-- A tag after its exclamation mark, and what is left. -/
def tagBody? (s : Source) : Option (Tag × Source) :=
  if s.rest.head? == some '<' then
    match someSuffix? (s.advance 1) with
    | some (suffix, rest) =>
      if rest.rest.head? == some '>' then some ({ handle := "", suffix }, rest.advance 1) else none
    | none => none
  else
    let (name, closed, rest) := handle s
    if closed then
      (someSuffix? rest).map fun (suffix, rest) => ({ handle := "!" ++ name ++ "!", suffix }, rest)
    else
      (suffix? rest).map fun (more, rest) =>
        let suffix := name ++ more
        (if suffix.isEmpty then { handle := "", suffix := "!" } else { handle := "!", suffix }, rest)

/-- A tag after its exclamation mark, which is a word of its own, and what is left. -/
def tag? (s : Source) : Option (Tag × Source) := (tagBody? s).filter fun (_, rest) => gapFollows rest.rest

/-! ### Directives -/

/-- One part of a version, of at most nine digits, and what is left. -/
def versionPart? (s : Source) : Option Source :=
  let (digits, rest) := s.span Numeral.isDigit
  if digits.isEmpty || 9 < digits.length then none else some rest

/-- What is left after a version. -/
def version? (s : Source) : Option Source :=
  match versionPart? (s.skipWhile isGap) with
  | some rest => if rest.rest.head? == some '.' then versionPart? (rest.advance 1) else none
  | none => none

/-- What is left after a handle and what it stands for. -/
def tagRule? (s : Source) : Option Source :=
  let s := s.skipWhile isGap
  if s.rest.head? == some '!' then
    let (name, closed, rest) := handle (s.advance 1)
    if closed || name.isEmpty then
      ((someSuffix? (rest.skipWhile isGap)).map Prod.snd).filter fun rest => gapFollows rest.rest
    else none
  else none

/-- What is left after a directive whose percent sign has been read. Directives of unknown names are
skipped. -/
def directive? (s : Source) : Option Source :=
  let (name, rest) := s.span isNameChar
  if name.isEmpty || !gapFollows rest.rest then none
  else
    let body := match name with
      | "YAML" => version? rest
      | "TAG" => tagRule? rest
      | _ => some (rest.skipWhile fun c => !isBreak c)
    body.bind Source.endLine?

end GoTrees.Yaml
