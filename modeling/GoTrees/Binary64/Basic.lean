/-!
# Double-precision numbers

A number of the binary format with 53 bits of precision, as a value of its own: not a number, an
infinity, or a sign with a whole number of units `2 ^ exponent`. Rounding and printing work on these
parts in exact arithmetic.
-/

namespace GoTrees

/-- A double-precision number. A finite one is `± mantissa · 2 ^ exponent`. -/
inductive Binary64 where
  | nan
  | infinite (negative : Bool)
  | finite (negative : Bool) (mantissa : Nat) (exponent : Int)
  deriving DecidableEq, Repr

namespace Binary64

/-- The least exponent, that of the subnormal numbers. -/
def minExponent : Int := -1074

/-- The greatest exponent of a finite number. -/
def maxExponent : Int := 971

def zero (negative : Bool) : Binary64 := .finite negative 0 minExponent

/-- `num / den` to the nearest whole number, a half to the even neighbour. -/
def roundDiv (num den : Nat) : Nat :=
  let q := num / den
  let twice := 2 * (num % den)
  if twice < den then q
  else if den < twice then q + 1
  else if q % 2 = 0 then q else q + 1

/-- `num / den` in units of `2 ^ e`, as a fraction. -/
def scaled (num den : Nat) : Int → Nat × Nat
  | .ofNat k => (num, den * Nat.pow 2 k)
  | .negSucc k => (num * Nat.pow 2 (k + 1), den)

/-- The exponent whose units give `num / den` 53 bits, but no exponent below the least one. -/
def exponentFor (num den : Nat) : Int :=
  let guess := max minExponent (Int.ofNat num.log2 - Int.ofNat den.log2 - 53)
  let (n, d) := scaled num den guess
  if n / d < Nat.pow 2 53 then guess else guess + 1

/-- The number nearest to `num / den`, a half to the even mantissa; beyond the greatest finite
number it is an infinity. -/
def ofFraction (negative : Bool) (num den : Nat) : Binary64 :=
  let e := exponentFor num den
  let (n, d) := scaled num den e
  let m := roundDiv n d
  let (m, e) := if m = Nat.pow 2 53 then (Nat.pow 2 52, e + 1) else (m, e)
  if maxExponent < e then .infinite negative else .finite negative m e

/-- The number of decimal digits of a positive number. -/
def digitCount (n : Nat) : Nat := (Nat.toDigits 10 n).length

/-- The number nearest to `digits · 10 ^ exponent`. Decimals far outside the range are decided by
their magnitude alone. -/
def ofDecimal (negative : Bool) (digits : Nat) (exponent : Int) : Binary64 :=
  if digits = 0 then zero negative
  else
    let top := Int.ofNat (digitCount digits) + exponent
    if 310 < top then .infinite negative
    else if top < -330 then zero negative
    else match exponent with
      | .ofNat k => ofFraction negative (digits * Nat.pow 10 k) 1
      | .negSucc k => ofFraction negative digits (Nat.pow 10 (k + 1))

end Binary64

end GoTrees
