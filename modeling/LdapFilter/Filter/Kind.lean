/-!
# Kinds of filters
-/

namespace LdapFilter

inductive Kind where
  /-- An attribute has a value, or is absent. -/
  | equal
  /-- All children match. -/
  | and
  /-- Some child matches. -/
  | or
  /-- A single test does not match. -/
  | not
  /-- No member matches. -/
  | nor
  /-- Every bit of a mask is set. -/
  | bitwiseAnd
  /-- Some bit of a mask is set. -/
  | bitwiseOr
  /-- A chain of memberships leads to an entry. -/
  | inChain
deriving DecidableEq, Repr

namespace Kind

/-- The kind as reports name it. -/
def name : Kind → String
  | equal => "Equal"
  | and => "And"
  | or => "Or"
  | not => "Not"
  | nor => "Nor"
  | bitwiseAnd => "BitwiseAnd"
  | bitwiseOr => "BitwiseOr"
  | inChain => "Recurse"

def isLeaf : Kind → Bool
  | equal | bitwiseAnd | bitwiseOr | inChain => true
  | and | or | not | nor => false

end Kind

end LdapFilter
