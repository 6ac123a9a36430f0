import LdapFilter.Error
import LdapFilter.Text.Decimal

/-!
# Attribute tests

The leaves of a filter: an attribute has a value, or is absent, or passes one of the directory's
extensible matching rules.
-/

namespace LdapFilter

open Text

/-! ### Matching rules -/

inductive MatchingRule where
  /-- Every bit of a mask is set. -/
  | allBits
  /-- Some bit of a mask is set. -/
  | someBits
  /-- A chain of memberships leads to an entry. -/
  | inChain
deriving DecidableEq, Repr

namespace MatchingRule

def oid : MatchingRule → String
  | allBits => "1.2.840.113556.1.4.803"
  | someBits => "1.2.840.113556.1.4.804"
  | inChain => "1.2.840.113556.1.4.1941"

/-- An attribute as it stands in a test by a rule. -/
def property (rule : MatchingRule) (attr : String) : String :=
  attr ++ ":" ++ rule.oid ++ ":"

/-- The attribute of a property with a rule: what stands before the last colon but one. A text
that does not end in a colon, or has no other colon, is returned as it is. -/
def attributeOf (property : String) : String :=
  match property.toList.reverse with
  | ':' :: rest =>
    match rest.dropWhile (· ≠ ':') with
    | _ :: attr => String.ofList attr.reverse
    | [] => property
  | _ => property

/-- The attribute of a property is the one that it was made of, with all colons in it. -/
theorem attributeOf_property (rule : MatchingRule) (attr : String) :
    attributeOf (rule.property attr) = attr := by
  have hoid : rule.oid.toList.reverse.all (· ≠ ':') = true := by
    cases rule <;> decide
  have hreverse : (rule.property attr).toList.reverse =
      ':' :: (rule.oid.toList.reverse ++ ':' :: attr.toList.reverse) := by
    simp [property]
  have hrest : (rule.oid.toList.reverse ++ ':' :: attr.toList.reverse).dropWhile (· ≠ ':') =
      ':' :: attr.toList.reverse := by
    rw [List.dropWhile_append_of_pos (List.all_eq_true.1 hoid)]
    rfl
  rw [attributeOf, hreverse]
  simp only [hrest, List.reverse_reverse, String.ofList_toList]

end MatchingRule

/-- Which bits of a mask have to be set. -/
inductive BitRule where
  | all
  | any
deriving DecidableEq, Repr

namespace BitRule

def matchingRule : BitRule → MatchingRule
  | all => .allBits
  | any => .someBits

def kind : BitRule → Kind
  | all => .bitwiseAnd
  | any => .bitwiseOr

end BitRule

/-! ### Tests -/

inductive Test where
  /-- The attribute has the value. -/
  | equal (attr value : String)
  /-- The attribute has no value. -/
  | absent (attr : String)
  /-- The attribute has bits of the mask set. -/
  | bitwise (rule : BitRule) (attr : String) (mask : Int64)
  /-- A chain of the attribute leads to the entry. -/
  | inChain (attr entry : String)
deriving DecidableEq, Repr

namespace Test

def kind : Test → Kind
  | equal _ _ | absent _ => .equal
  | bitwise rule _ _ => rule.kind
  | inChain _ _ => .inChain

def attr : Test → String
  | equal a _ | absent a | bitwise _ a _ | inChain a _ => a

/-- The attribute as it stands in the test, with the matching rule where there is one. -/
def property : Test → String
  | equal a _ | absent a => a
  | bitwise rule a _ => rule.matchingRule.property a
  | inChain a _ => MatchingRule.inChain.property a

/-- The attribute that stands before the matching rule in the test, where there is one. -/
def ruleAttribute? (t : Test) : Option String :=
  match t with
  | equal _ _ | absent _ => none
  | bitwise _ _ _ | inChain _ _ => some (MatchingRule.attributeOf t.property)

/-- Whether a test is an equality or an absence. A member of a nor group is negated exactly then. -/
def isLiteral : Test → Bool
  | equal _ _ | absent _ => true
  | bitwise _ _ _ | inChain _ _ => false

/-- The bytes that an equality has beside its attribute and value. -/
def equalOverhead : Nat := 3

/-- The bytes that an absence has beside its attribute. -/
def absentOverhead : Nat := 7

/-- How many bytes the text of a test has. -/
def size (t : Test) : Nat :=
  match t with
  | equal _ value => t.property.utf8ByteSize + value.utf8ByteSize + equalOverhead
  | absent _ => t.property.utf8ByteSize + absentOverhead
  | bitwise _ _ mask => t.property.utf8ByteSize + Decimal.width mask.toInt + equalOverhead
  | inChain _ entry => t.property.utf8ByteSize + entry.utf8ByteSize + equalOverhead

/-! ### Making tests -/

/-- An attribute that is not empty, for a test of a kind. -/
def nonEmpty (kind : Kind) (attr : String) : Except FilterError String :=
  if attr = "" then .error (.emptyProperty kind) else .ok attr

/-- A test of an equality; without a value, or with an empty one, it tests for absence. -/
def ofValue (attr : String) (value : Option String) : Except FilterError Test := do
  let attr ← nonEmpty .equal attr
  match value.filter (· ≠ "") with
  | some value => return .equal attr value
  | none => return .absent attr

def ofMask (rule : BitRule) (attr : String) (mask : Int64) : Except FilterError Test := do
  let attr ← nonEmpty rule.kind attr
  return .bitwise rule attr mask

def ofEntry (attr entry : String) : Except FilterError Test := do
  let attr ← nonEmpty .inChain attr
  return .inChain attr entry

end Test

end LdapFilter
