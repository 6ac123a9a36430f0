import LdapFilter.Text.Decimal

/-!
# Dates and times in settings files

A date, a time of day, or a date with a time of day, which may then be at an offset from universal
time. The numbers have a fixed width, and a date has to be in the calendar.
-/

namespace LdapFilter.Config

open Text

/-- The number that digits denote, when it is in a range, ends included. -/
def inRange? (low high : Nat) (cs : List Char) : Option Nat :=
  (Decimal.toNat? cs).filter fun n => low ≤ n && n ≤ high

def daysIn (year month : Nat) : Nat :=
  if month = 2 then
    if year % 4 = 0 ∧ (year % 100 ≠ 0 ∨ year % 400 = 0) then 29 else 28
  else if [4, 6, 9, 11].contains month then 30 else 31

def isDate : List Char → Bool
  | [y₁, y₂, y₃, y₄, '-', m₁, m₂, '-', d₁, d₂] =>
    match Decimal.toNat? [y₁, y₂, y₃, y₄], inRange? 1 12 [m₁, m₂] with
    | some year, some month => (inRange? 1 (daysIn year month) [d₁, d₂]).isSome
    | _, _ => false
  | _ => false

/-- What follows the fraction of a second, when there is one; it has at least one digit. -/
def afterFraction? : List Char → Option (List Char)
  | '.' :: cs =>
    if (cs.takeWhile Char.isDigit).isEmpty then none else some (cs.dropWhile Char.isDigit)
  | cs => some cs

/-- What follows a time of day. There may be a leap second. -/
def afterTime? : List Char → Option (List Char)
  | h₁ :: h₂ :: ':' :: m₁ :: m₂ :: ':' :: s₁ :: s₂ :: cs => do
    let _ ← inRange? 0 23 [h₁, h₂]
    let _ ← inRange? 0 59 [m₁, m₂]
    let _ ← inRange? 0 60 [s₁, s₂]
    afterFraction? cs
  | _ => none

/-- Whether text is an offset from universal time. -/
def isOffset : List Char → Bool
  | ['Z'] | ['z'] => true
  | [sign, h₁, h₂, ':', m₁, m₂] =>
    (sign = '+' || sign = '-') && (inRange? 0 23 [h₁, h₂]).isSome && (inRange? 0 59 [m₁, m₂]).isSome
  | _ => false

/-- Whether text is a date, a time of day, or both with a letter or a space between them. -/
def isMoment (cs : List Char) : Bool :=
  isDate cs || afterTime? cs = some [] ||
    isDate (cs.take 10) &&
      match cs.drop 10 with
      | c :: rest =>
        (c = 'T' || c = 't' || c = ' ') &&
          match afterTime? rest with
          | some offset => offset = [] || isOffset offset
          | none => false
      | [] => false

end LdapFilter.Config
