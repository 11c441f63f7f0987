import GoTrees.Yaml.Basic

/-!
# Values on one line

A value is written on one line with brackets and commas, and reads back as the same value. Strings are in
double quotes. Numbers that are not whole have a fraction part, or an exponent if they are very great or
very small.
-/

namespace GoTrees.Yaml

/-- A character between double quotes. -/
def inlineChar (c : Char) : List Char :=
  match c with
  | '"' => ['\\', '"']
  | '\\' => ['\\', '\\']
  | '\n' => ['\\', 'n']
  | '\r' => ['\\', 'r']
  | '\t' => ['\\', 't']
  | '\x08' => ['\\', 'b']
  | '\x0c' => ['\\', 'f']
  | c =>
    if c.toNat < 16 then ['\\', 'u', '0', '0', '0'] ++ Nat.toDigits 16 c.toNat
    else if c.toNat < 32 then ['\\', 'u', '0', '0'] ++ Nat.toDigits 16 c.toNat
    else [c]

/-- A string between double quotes. -/
def inlineString (s : String) : String := .ofList ('"' :: s.toList.flatMap inlineChar ++ ['"'])

/-- A positive number in scientific notation, with a sign in the exponent. -/
def scientific (digits : Nat) (exponent : Int) : String :=
  match Nat.toDigits 10 digits with
  | [] => ""
  | d :: ds =>
    let fraction : List Char := if ds.isEmpty then [] else '.' :: ds
    let power := exponent + Int.ofNat ds.length
    .ofList (d :: fraction) ++ (if 0 ≤ power then "e+" else "e") ++ toString power

/-- A positive number: positional from `10 ^ -5` up to below `10 ^ 16`, and scientific outside. -/
def inlineDecimal (digits : Nat) (exponent : Int) : String :=
  let point := Int.ofNat (Nat.toDigits 10 digits).length + exponent
  if -5 < point && point ≤ 16 then
    Binary64.positional digits exponent ++ (if 0 ≤ exponent then ".0" else "")
  else scientific digits exponent

/-- A number that is not whole, or not of 64 bits. -/
def inlineFloat : Binary64 → String
  | .nan => ".nan"
  | .infinite negative => Binary64.signText negative ++ ".inf"
  | .finite negative m e =>
    if m = 0 then Binary64.signText negative ++ "0.0"
    else
      let (digits, exponent) := Binary64.shortest m e
      Binary64.signText negative ++ inlineDecimal digits exponent

mutual

/-- A value on one line. -/
def Value.inline : Value → String
  | .null => "null"
  | .bool b => if b then "true" else "false"
  | .int n => toString n
  | .float x => inlineFloat x
  | .string s => inlineString s
  | .sequence items => "[" ++ Value.inlineItems items ++ "]"
  | .mapping pairs => "\x7b" ++ Value.inlinePairs pairs ++ "\x7d"

/-- Items with commas between them. -/
def Value.inlineItems : List Value → String
  | [] => ""
  | [v] => v.inline
  | v :: rest => v.inline ++ "," ++ Value.inlineItems rest

/-- Keys and values with commas between them. -/
def Value.inlinePairs : List (Value × Value) → String
  | [] => ""
  | [(k, v)] => k.inline ++ ":" ++ v.inline
  | (k, v) :: rest => k.inline ++ ":" ++ v.inline ++ "," ++ Value.inlinePairs rest

end

end GoTrees.Yaml
