/-!
# Double-precision numbers

A finite double is held exactly, as a sign, a mantissa and a power of two. The operations round
what exact arithmetic on natural numbers gives. A decimal is read with such operations, and so not
always as the double nearest to it.
-/

namespace LdapFilter.Json

/-- The number `± mantissa * 2 ^ exponent`. Both zeros have mantissa and exponent zero. -/
structure Binary64 where
  negative : Bool
  mantissa : Nat
  exponent : Int
deriving DecidableEq, Repr

namespace Binary64

def zero (negative : Bool) : Binary64 := ⟨negative, 0, 0⟩

/-! ### Rounding -/

/-- The whole number nearest to a quotient; a half goes to the even neighbour. -/
def roundQuotient (num den : Nat) : Nat :=
  let low := num / den
  match compare (2 * (num % den)) den with
  | .lt => low
  | .gt => low + 1
  | .eq => low + low % 2

/-- The power of two at or below a positive quotient. -/
def leadingPower (num den : Nat) : Int :=
  let guess : Int := (num.log2 : Int) - den.log2
  if den * Nat.pow 2 guess.toNat ≤ num * Nat.pow 2 (-guess).toNat then guess else guess - 1

/-- The double nearest to a quotient, and none when that is beyond the largest one. The mantissa has
at most 53 bits, and fewer only at the smallest exponent. -/
def ofQuotient? (negative : Bool) (num den : Nat) : Option Binary64 :=
  let exponent := max (leadingPower num den - 52) (-1074)
  let mantissa :=
    roundQuotient (num * Nat.pow 2 (-exponent).toNat) (den * Nat.pow 2 exponent.toNat)
  let (mantissa, exponent) :=
    if mantissa = Nat.pow 2 53 then (Nat.pow 2 52, exponent + 1) else (mantissa, exponent)
  if mantissa = 0 then some (zero negative)
  else if exponent ≤ 971 then some ⟨negative, mantissa, exponent⟩ else none

/-! ### Decimals -/

/-- The product of two doubles, rounded. -/
def mul? (x y : Binary64) : Option Binary64 :=
  let exponent := x.exponent + y.exponent
  ofQuotient? (x.negative ^^ y.negative) (x.mantissa * y.mantissa * Nat.pow 2 exponent.toNat)
    (Nat.pow 2 (-exponent).toNat)

/-- The quotient of two doubles, rounded. -/
def div? (x y : Binary64) : Option Binary64 :=
  let exponent := x.exponent - y.exponent
  ofQuotient? (x.negative ^^ y.negative) (x.mantissa * Nat.pow 2 exponent.toNat)
    (y.mantissa * Nat.pow 2 (-exponent).toNat)

/-- A power of ten, rounded. -/
def tenPow? (n : Nat) : Option Binary64 :=
  ofQuotient? false (Nat.pow 10 n) 1

/-- The largest power of ten among the doubles is `10 ^ 308`. -/
def maxTenPower : Nat := 308

/-- A double divided by a power of ten, which is taken apart when it is no double itself. -/
def divTenPow? (x : Binary64) (n : Nat) : Option Binary64 := do
  if n ≤ maxTenPower then x.div? (← tenPow? n)
  else if x.mantissa = 0 then some x
  else
    let quotient ← x.div? (← tenPow? maxTenPower)
    quotient.divTenPow? (n - maxTenPower)
termination_by n
decreasing_by
  simp only [maxTenPower] at *
  omega

/-- `± significand * 10 ^ scale` with a rounded significand and rounded powers, and none when that
is beyond the largest double. -/
def ofDecimal? (negative : Bool) (significand : Nat) (scale : Int) : Option Binary64 := do
  let x ← ofQuotient? negative significand 1
  match scale with
  | .ofNat n =>
    if n ≤ maxTenPower then x.mul? (← tenPow? n) else if x.mantissa = 0 then some x else none
  | .negSucc n => x.divTenPow? (n + 1)

/-! ### Whole numbers among the doubles -/

/-- The size of a double without its sign, when that is a whole number. -/
def magnitude? (x : Binary64) : Option Nat :=
  let unit := Nat.pow 2 (-x.exponent).toNat
  if x.mantissa % unit = 0 then some (x.mantissa / unit * Nat.pow 2 x.exponent.toNat) else none

/-- The whole number that a double is, if it is one. -/
def toInt? (x : Binary64) : Option Int :=
  x.magnitude?.map fun n : Nat => if x.negative then -(n : Int) else n

/-! ### Exact decimal text -/

/-- The exact decimal text of a double, with a point and at least one digit after it. -/
def text (x : Binary64) : List Char :=
  let places := (-x.exponent).toNat
  let unit := Nat.pow 2 places
  let whole := x.mantissa / unit * Nat.pow 2 x.exponent.toNat
  let fraction := Nat.toDigits 10 (x.mantissa % unit * Nat.pow 5 places)
  let padded := List.replicate (places - fraction.length) '0' ++ fraction
  let sign := if x.negative then ['-'] else []
  let stripped := (padded.reverse.dropWhile (· == '0')).reverse
  sign ++ Nat.toDigits 10 whole ++ '.' :: if stripped = [] then ['0'] else stripped

end Binary64

end LdapFilter.Json
