import LdapFilter.Json.Binary64

/-!
# Numbers in documents

A number is a whole number of 64 bits or a double, according to how it is written.
-/

namespace LdapFilter.Json

inductive Number where
  /-- Written with digits alone, and within 64 bits. -/
  | integer (n : Int)
  /-- Written in any other way. -/
  | real (x : Binary64)
deriving DecidableEq, Repr

structure Literal where
  negative : Bool
  /-- The digits before the point. -/
  whole : List Char
  /-- The digits after the point; none without a point. -/
  fraction : List Char
  /-- The power of ten, when one is written. -/
  exponent : Option Int

namespace Number

/-- A significand with further digits, up to the one that it has no room for within 64 bits, and how
many digits are left over. -/
def gather : Nat → List Char → Nat × Nat
  | significand, [] => (significand, 0)
  | significand, c :: cs =>
    let next := Nat.ofDigitChars 10 [c] significand
    if next < UInt64.size then gather next cs else (significand, cs.length + 1)

/-- The double that a literal is read as. Digits before the point that the significand has no room
for still count for the power of ten; those after the point are lost. With
`9007199254740993.0` the significand is rounded up before it is divided by ten, and the double is
`9007199254740994`. -/
def real? (l : Literal) : Option Binary64 :=
  let (significand, unread) := gather 0 l.whole
  let (significand, lost) := gather significand l.fraction
  let scale := l.exponent.getD 0 + unread - (l.fraction.length - lost : Nat)
  Binary64.ofDecimal? l.negative significand scale

/-- The number that a literal denotes, and none when it is too large for a double. Digits alone
denote an integer from `-2 ^ 63` to `2 ^ 64 - 1`; beyond that, and for `-0`, they denote a
double. -/
def ofLiteral? (l : Literal) : Option Number :=
  let digits := Nat.ofDigitChars 10 l.whole 0
  let integral := l.fraction = [] ∧ l.exponent = none
  if integral ∧ l.negative = false ∧ digits < UInt64.size then some (.integer digits)
  else if integral ∧ l.negative = true ∧ 0 < digits ∧ Int64.minValue.toInt ≤ -(digits : Int) then
    some (.integer (-(digits : Int)))
  else (real? l).map .real

end Number

end LdapFilter.Json
