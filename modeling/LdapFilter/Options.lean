import LdapFilter.AssertionValue
import LdapFilter.Attribute
import LdapFilter.Error

/-!
# Options

The limits and checks under which a query document is compiled. Without any, every attribute is
accepted and values stand in the filter as they are.
-/

namespace LdapFilter

open Text

structure Options where
  /-- How deep payloads may be nested. -/
  maxDepth : Nat := 20
  /-- How many pairs a document may have. -/
  maxNodes : Nat := 10000
  /-- The attributes that may be tested, in any letter case; all of them if the list is empty. -/
  allowedAttributes : List String := []
  /-- Whether attributes must be attribute descriptions. -/
  validateAttributes : Bool := false
  /-- Whether text operands are escaped. -/
  escapeValues : Bool := false
deriving DecidableEq, Repr

namespace Options

/-- Limits are 64-bit words wherever they are written down, and so less than this. -/
def countLimit : Nat := UInt64.size

/-- The options for documents from outside. -/
def strict : Options where
  validateAttributes := true
  escapeValues := true

def allows (o : Options) (attr : String) : Bool :=
  o.allowedAttributes.isEmpty || o.allowedAttributes.any fun allowed => caseless allowed attr

/-- Check the syntax of an attribute, and then the list of allowed ones. -/
def checkAttribute (o : Options) (attr : String) : Except FilterError Unit :=
  if o.validateAttributes && !Attribute.isDescription attr then .error (.invalidAttribute attr)
  else if !o.allows attr then .error (.attributeNotAllowed attr)
  else .ok ()

/-- A text operand as it enters the filter. -/
def operandText (o : Options) (text : String) : String :=
  if o.escapeValues then AssertionValue.escape text else text

/-- An attribute passes exactly when its syntax is right, where that matters, and it is allowed. -/
theorem checkAttribute_eq_ok_iff {o : Options} {attr : String} :
    o.checkAttribute attr = .ok () ↔
      (o.validateAttributes = true → Attribute.isDescription attr = true)
        ∧ o.allows attr = true := by
  unfold checkAttribute
  cases o.validateAttributes <;> cases Attribute.isDescription attr <;> cases o.allows attr <;>
    simp

end Options

end LdapFilter
