/-!
# Hexadecimal digits
-/

namespace LdapFilter.Text.Hexadecimal

/-- The value of a hexadecimal digit, in either case. -/
def value? (c : Char) : Option Nat :=
  if c.isDigit then some (c.toNat - '0'.toNat)
  else if 'a' ≤ c ∧ c ≤ 'f' then some (c.toNat - 'a'.toNat + 10)
  else if 'A' ≤ c ∧ c ≤ 'F' then some (c.toNat - 'A'.toNat + 10)
  else none

/-- A digit, written in lower case, has its value. -/
theorem value?_digitChar {n : Nat} (h : n < 16) : value? n.digitChar = some n := by
  revert n
  decide

end LdapFilter.Text.Hexadecimal
