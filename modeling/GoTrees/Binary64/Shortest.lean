import GoTrees.Binary64.Basic

/-!
# The shortest decimal of a double-precision number

The text of a number has the fewest digits that still read back as the number, the nearest of those,
and the upper one of two equally near. Digits are written positionally, never with an exponent, and
a whole number has no fraction part.
-/

namespace GoTrees.Binary64

/-- The reals that round to a positive number, in quarters of its unit: the bounds, and whether they
belong to the interval themselves. -/
structure Interval where
  low : Nat
  value : Nat
  high : Nat
  closed : Bool

/-- The interval of the reals that round to `mantissa · 2 ^ exponent`, in units of
`2 ^ (exponent - 2)`. Below a power of two the gap is half as wide. -/
def interval (mantissa : Nat) (exponent : Int) : Interval where
  low := if mantissa = Nat.pow 2 52 && minExponent < exponent then 4 * mantissa - 1 else 4 * mantissa - 2
  value := 4 * mantissa
  high := 4 * mantissa + 2
  closed := mantissa % 2 = 0

/-- A power of two times a power of ten as a fraction. -/
def powers (two ten : Int) : Nat × Nat :=
  (Nat.pow 2 two.toNat * Nat.pow 10 ten.toNat, Nat.pow 2 (-two).toNat * Nat.pow 10 (-ten).toNat)

/-- The multiple of `10 ^ grid` that stands for the interval in units of `2 ^ unit`, if one of the
two neighbours of the value lies in it. -/
def candidate (i : Interval) (unit grid : Int) : Option Nat :=
  let (num, den) := powers unit (-grid)
  let below := i.value * num / den
  let inside (n : Nat) : Bool :=
    if i.closed then i.low * num ≤ n * den && n * den ≤ i.high * num
    else i.low * num < n * den && n * den < i.high * num
  match inside below, inside (below + 1) with
  | true, false => some below
  | false, true => some (below + 1)
  | true, true =>
    if i.value * num - below * den < (below + 1) * den - i.value * num then some below
    else some (below + 1)
  | false, false => none

/-- The first hit among ever finer grids. -/
def scan (i : Interval) (unit : Int) : Nat → Int → Nat × Int
  | 0, grid => (0, grid)
  | fuel + 1, grid =>
    match candidate i unit grid with
    | some n => (n, grid)
    | none => scan i unit fuel (grid - 1)

/-- The digits and the decimal exponent of the shortest decimal of a positive number. The scan
starts on a grid wider than the number and meets a hit within a few more than seventeen steps. -/
def shortest (mantissa : Nat) (exponent : Int) : Nat × Int :=
  let top := (Int.ofNat mantissa.log2 + exponent + 1) * 30103 / 100000 + 2
  scan (interval mantissa exponent) (exponent - 2) 400 top

/-- `digits · 10 ^ exponent` written positionally. -/
def positional (digits : Nat) (exponent : Int) : String :=
  let ds := Nat.toDigits 10 digits
  match exponent with
  | .ofNat k => .ofList (ds ++ List.replicate k '0')
  | .negSucc k =>
    let places := k + 1
    if places < ds.length then
      .ofList (ds.take (ds.length - places) ++ '.' :: ds.drop (ds.length - places))
    else
      .ofList ('0' :: '.' :: List.replicate (places - ds.length) '0' ++ ds)

/-- The sign of a negative number. -/
def signText (negative : Bool) : String := if negative then "-" else ""

def text : Binary64 → String
  | .nan => "NaN"
  | .infinite negative => signText negative ++ "inf"
  | .finite negative 0 _ => signText negative ++ "0"
  | .finite negative m e =>
    let (digits, exponent) := shortest m e
    signText negative ++ positional digits exponent

end GoTrees.Binary64
