import GoTrees.Binary64.Basic

/-!
# Numbers in text

Whole numbers are an optional sign and ASCII digits, within 64 bits. Double-precision numbers have a
digit on either side of an optional point and an optional exponent, or are an infinity or not a
number, spelled in any case.
-/

namespace GoTrees.Numeral

def isDigit (c : Char) : Bool := '0' ≤ c && c ≤ '9'

/-- The value of a digit of a base up to sixteen, in either case. -/
def digitOf? (base : Nat) (c : Char) : Option Nat :=
  let value :=
    if isDigit c then some (c.toNat - '0'.toNat)
    else if 'a' ≤ c && c ≤ 'f' then some (c.toNat - 'a'.toNat + 10)
    else if 'A' ≤ c && c ≤ 'F' then some (c.toNat - 'A'.toNat + 10)
    else none
  value.filter (· < base)

/-- The number that digits of a base spell, if there are any and nothing else. -/
def ofDigits? (base : Nat) (ds : List Char) : Option Nat :=
  if ds.isEmpty then none
  else ds.foldl (fun acc d =>
    match acc, digitOf? base d with
    | some n, some v => some (base * n + v)
    | _, _ => none) (some 0)

/-- The number that a list of ASCII digits spells. -/
def ofDigits (ds : List Char) : Nat := ds.foldl (fun n d => 10 * n + (d.toNat - '0'.toNat)) 0

/-- Takes an optional sign off the front; `true` stands for minus. -/
def takeSign : List Char → Bool × List Char
  | '-' :: cs => (true, cs)
  | '+' :: cs => (false, cs)
  | cs => (false, cs)

/-- Least and greatest number of 64 bits with a sign. -/
def minInt64 : Int := -0x8000000000000000

/-- See `minInt64`. -/
def maxInt64 : Int := 0x7fffffffffffffff

/-- A whole number of any size: an optional sign and at least one digit. -/
def wholeChars? (cs : List Char) : Option Int :=
  let (negative, ds) := takeSign cs
  if ds.isEmpty || !ds.all isDigit then none
  else some (if negative then -Int.ofNat (ofDigits ds) else Int.ofNat (ofDigits ds))

def int64? (s : String) : Option Int :=
  (wholeChars? s.toList).filter fun n => minInt64 ≤ n && n ≤ maxInt64

/-- An ASCII letter in lower case. -/
def lower (c : Char) : Char := if 'A' ≤ c && c ≤ 'Z' then Char.ofNat (c.toNat + 32) else c

/-- The text with its ASCII letters in lower case. -/
def lowerText (s : String) : String := .ofList (s.toList.map lower)

/-- The exponent part of a number: empty, or a letter `e`, an optional sign and digits. -/
def exponentChars? : List Char → Option Int
  | [] => some 0
  | c :: cs => if c = 'e' || c = 'E' then wholeChars? cs else none

/-- The digits before and after an optional point, and what follows them. -/
def splitMantissa (cs : List Char) : List Char × List Char × List Char :=
  let whole := cs.takeWhile isDigit
  match cs.dropWhile isDigit with
  | '.' :: rest => (whole, rest.takeWhile isDigit, rest.dropWhile isDigit)
  | rest => (whole, [], rest)

def binary64? (s : String) : Option Binary64 :=
  let (negative, cs) := takeSign s.toList
  match String.ofList (cs.map lower) with
  | "inf" | "infinity" => some (.infinite negative)
  | "nan" => some .nan
  | _ =>
    let (whole, fraction, rest) := splitMantissa cs
    if whole.isEmpty && fraction.isEmpty then none
    else (exponentChars? rest).map fun e =>
      .ofDecimal negative (ofDigits (whole ++ fraction)) (e - Int.ofNat fraction.length)

end GoTrees.Numeral
