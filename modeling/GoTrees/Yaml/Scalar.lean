import GoTrees.Numeral
import GoTrees.Yaml.Basic

/-!
# What scalars mean

A quoted scalar is a string. A plain one is null, a truth value, a whole number in one of four bases, a
number, or else a string. Digits after a leading zero are no number. A decimal number of more than 64 bits
is refused if 128 bits could hold it. A document is refused if it is nested too deep, which one with an
alias inside of what it stands for always is.
-/

namespace GoTrees.Yaml

open Numeral

/-- The base of a number whose digits come after a zero and this letter. -/
def baseOf? : Char → Option Nat
  | 'x' => some 16
  | 'o' => some 8
  | 'b' => some 2
  | _ => none

/-- A whole number of 64 bits with a letter for its base. There can be a sign before the zero, and a plus
also after the letter, if the number is not negative. -/
def based? (cs : List Char) : Option Int :=
  let (negative, rest) := takeSign cs
  match rest with
  | '0' :: letter :: ds =>
    match baseOf? letter with
    | none => none
    | some base =>
      if negative then
        ((ofDigits? base ds).map fun n => -Int.ofNat n).filter (minInt64 ≤ ·)
      else
        let ds := if ds.head? == some '+' then ds.drop 1 else ds
        ((ofDigits? base ds).map Int.ofNat).filter (· < 0x10000000000000000)
  | _ => none

/-- Digits after a leading zero. -/
def isZeroLed (cs : List Char) : Bool :=
  match (takeSign cs).2 with
  | '0' :: d :: ds => (d :: ds).all isDigit
  | _ => false

/-- Does a whole number fit 64 bits, with or without a sign? -/
def fits64 (n : Int) : Bool := minInt64 ≤ n && n < 0x10000000000000000

/-- Does a whole number fit 128 bits, with or without a sign? -/
def fits128 (n : Int) : Bool :=
  -0x80000000000000000000000000000000 ≤ n && n < 0x100000000000000000000000000000000

/-- The number of a plain scalar that is no whole number. -/
def float? (text : String) : Option Binary64 :=
  if [".inf", ".Inf", ".INF"].contains (String.ofList (text.toList.dropWhile (· == '+'))) then
    some (.infinite false)
  else if ["-.inf", "-.Inf", "-.INF"].contains text then some (.infinite true)
  else if [".nan", ".NaN", ".NAN"].contains text then some .nan
  else match binary64? text with
    | some (.finite negative m e) => some (.finite negative m e)
    | _ => none

/-- A plain scalar that is no whole number. -/
def plainOther (text : String) : Value :=
  match float? text with
  | some x => .float x
  | none => .string text

def plainValue? (text : String) : Option Value :=
  match text with
  | "~" | "null" => some .null
  | "true" => some (.bool true)
  | "false" => some (.bool false)
  | _ =>
    match based? text.toList, isZeroLed text.toList, wholeChars? text.toList with
    | some n, _, _ => some (.int n)
    | none, true, _ => some (.string text)
    | none, false, some n =>
      if fits64 n then some (.int n)
      else if fits128 n then none
      else some (plainOther text)
    | none, false, none => some (plainOther text)

/-- The value of a scalar with a tag; a tag of the core kinds has to fit the text. -/
def taggedValue? (tag : Tag) (text : String) : Option Value :=
  if tag.handle == "!!" then
    match tag.suffix with
    | "bool" =>
      match text with
      | "true" => some (.bool true)
      | "false" => some (.bool false)
      | _ => none
    | "int" => (int64? text).map .int
    | "float" => (binary64? text).map .float
    | "null" => if text == "~" || text == "null" then some .null else none
    | _ => some (.string text)
  else some (.string text)

/-- The value of a scalar. -/
def scalarValue? (style : Style) (text : String) : Option Value :=
  match style with
  | .plain => plainValue? text
  | .quoted => some (.string text)
  | .tagged tag => taggedValue? tag text

/-! ### Whole documents -/

/-- The most sequences and mappings within each other. -/
def depthLimit : Nat := 128

/-- The value of a written value, which can be nested this deep. An alias has the value that it stands
for, and is nested as deep as that is. -/
def Written.evaluate? (w : Written) (depth : Nat) (n : Node) : Option Value :=
  match w.resolve n, depth with
  | .scalar style text, _ => scalarValue? style text
  | .sequence items, depth + 1 => (items.mapM fun item => w.evaluate? depth item).map .sequence
  | .mapping pairs, depth + 1 =>
    (pairs.mapM fun (k, v) =>
      (w.evaluate? depth k).bind fun key => (w.evaluate? depth v).map (key, ·)).map
    fun pairs => .mapping (Value.lastOfEach pairs)
  | _, _ => none

/-- The value of a whole document. -/
def Written.value? (w : Written) : Option Value := w.evaluate? depthLimit w.root

end GoTrees.Yaml
