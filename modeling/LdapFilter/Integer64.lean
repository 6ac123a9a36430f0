import LdapFilter.Json.Basic
import LdapFilter.Text.Blank
import LdapFilter.Text.Decimal

/-!
# Signed 64-bit integers in documents

A number or a text in a document may stand for a signed 64-bit integer. What lies outside the
range stands for none; nothing is wrapped or cut off.
-/

namespace LdapFilter.Integer64

open Text

/-- The integer that a whole number is, when it is in range. -/
def ofInt? (n : Int) : Option Int64 :=
  if Int64.minValue.toInt ≤ n ∧ n ≤ Int64.maxValue.toInt then some (Int64.ofInt n) else none

/-- The largest size up to which every whole number is a double. -/
def exactLimit : Nat := Nat.pow 2 53

/-- The integer that a number is. A double has to be whole, and no larger than `exactLimit`. -/
def ofNumber? : Json.Number → Option Int64
  | .integer n => ofInt? n
  | .real x => (x.toInt?.filter fun n => n.natAbs ≤ exactLimit).bind ofInt?

/-- The integer that a text denotes, with blanks around it. -/
def ofText? (text : String) : Option Int64 :=
  (Decimal.toInt? (trim text.toList)).bind ofInt?

/-- The integer that a part of a document gives, as a number or as text. -/
def ofJson? : Json → Option Int64
  | .number n => ofNumber? n
  | .string s => ofText? s
  | _ => none

/-- An integer is the whole number that it was made of. -/
theorem toInt_of_ofInt?_eq_some {n : Int} {m : Int64} (h : ofInt? n = some m) : m.toInt = n := by
  unfold ofInt? at h
  split at h
  · next hn =>
    cases h
    rw [Int64.toInt_minValue, Int64.toInt_maxValue] at hn
    exact Int64.toInt_ofInt_of_le hn.1 (by omega)
  · simp at h

/-- Every integer is in range. -/
theorem ofInt?_toInt (m : Int64) : ofInt? m.toInt = some m := by
  rw [ofInt?, if_pos ⟨m.minValue_le_toInt, m.toInt_le⟩, Int64.ofInt_toInt]

end LdapFilter.Integer64
