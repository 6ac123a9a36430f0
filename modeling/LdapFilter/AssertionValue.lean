/-!
# Assertion values

A value may stand in a filter only without the characters that have a meaning there. Escaping
replaces each of them by a backslash and two hexadecimal digits.

Main statement: escaping is needed exactly when the value has such a character
(`escape?_eq_none_iff`).
-/

namespace LdapFilter.AssertionValue

/-- The characters that may not stand for themselves, each with the digits of its code. -/
def codes : List (Char × List Char) :=
  [('*', ['2', 'a']), ('(', ['2', '8']), (')', ['2', '9']), ('\\', ['5', 'c']),
    ('\x00', ['0', '0'])]

def isSpecial (c : Char) : Bool :=
  (codes.lookup c).isSome

def escapeChar (c : Char) : List Char :=
  match codes.lookup c with
  | some digits => '\\' :: digits
  | none => [c]

/-- A value as it stands in a filter. -/
def escape (value : String) : String :=
  String.ofList (value.toList.flatMap escapeChar)

/-- The escaped value, when it differs from the value. -/
def escape? (value : String) : Option String :=
  if value.toList.any isSpecial then some (escape value) else none

/-- Escaping is needed exactly when a value has a special character. -/
theorem escape?_eq_none_iff {value : String} :
    escape? value = none ↔ ∀ c ∈ value.toList, isSpecial c = false := by
  simp [escape?]

/-- Where escaping is not needed, it changes nothing. -/
theorem escape_eq_self {value : String} (h : escape? value = none) : escape value = value := by
  have hchars : ∀ c ∈ value.toList, escapeChar c = [c] := fun c hc => by
    have hnone : codes.lookup c = none := by
      simpa [isSpecial] using escape?_eq_none_iff.1 h c hc
    rw [escapeChar, hnone]
  rw [escape, List.flatMap_def, List.map_congr_left hchars, ← List.flatMap_def]
  simp

end LdapFilter.AssertionValue
