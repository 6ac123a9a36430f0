import LdapFilter.Filter.Kind
import LdapFilter.Keyword

/-!
# Errors

What can go wrong with a query document or with a filter, and how it is reported.
-/

namespace LdapFilter

/-- The part of a document whose shape is at fault: the document itself, or the payload of a
keyword. -/
inductive Place where
  | document
  | payload (k : Keyword)
deriving DecidableEq, Repr

/-- The shape that a part of a document should have had. -/
inductive Shape where
  | documentObject
  | someProperty
  | testsObject
  | objectArray
  | anyObject
  | singleTest
  | singleProperty
deriving DecidableEq, Repr

/-- The tests that take an operand of their own sort. -/
inductive Operand where
  /-- The value of a literal attribute. -/
  | literal
  /-- The mask of a test of all bits. -/
  | allBits
  /-- The mask of a test of some bits. -/
  | someBits
  /-- The name of the entry at the end of a chain. -/
  | entry
deriving DecidableEq, Repr

/-- Why a filter has no document. -/
inductive Conflict where
  /-- The attribute of an equality spells a keyword. -/
  | keywordAttribute (attr : String)
  /-- Two tests of one object name the same attribute. -/
  | repeatedAttribute (attr : String)
  /-- One object has more tests of a keyword than the keyword has spellings. -/
  | spellingsExhausted (k : Keyword)
deriving DecidableEq, Repr

inductive FilterError where
  /-- A part of the document has the wrong shape. -/
  | structural (place : Place) (expected : Shape)
  /-- An operand is not what its test requires. -/
  | malformedValue (operand : Operand) (attr : String)
  /-- A test has no attribute. -/
  | emptyProperty (kind : Kind)
  /-- A child was added to a filter that takes none. -/
  | notAGroup (kind : Kind)
  /-- A child was added to a filter that does not take its kind. -/
  | invalidChild (parent child : Kind)
  /-- Payloads are nested too deep. -/
  | nestingTooDeep (max actual : Nat)
  /-- The document has too many pairs. -/
  | tooManyNodes (max : Nat)
  /-- An attribute is not on the list of allowed ones. -/
  | attributeNotAllowed (attr : String)
  /-- An attribute is not an attribute description. -/
  | invalidAttribute (attr : String)
  /-- A filter has no document. -/
  | unrepresentable (conflict : Conflict)
  /-- The text of a document is not JSON. -/
  | invalidJson
deriving DecidableEq, Repr

namespace Place

def name : Place → String
  | document => "filter"
  | payload k => k.name

end Place

namespace Shape

def description : Shape → String
  | documentObject => "a JSON object"
  | someProperty => "at least one property"
  | testsObject => "an object of attribute tests"
  | objectArray => "an array of objects"
  | anyObject => "an object"
  | singleTest => "a single attribute test"
  | singleProperty => "an object with exactly one property"

end Shape

namespace Operand

def filterName : Operand → String
  | literal => "equal"
  | allBits => Keyword.band.name
  | someBits => Keyword.bor.name
  | entry => Keyword.recurse.name

def description : Operand → String
  | literal => "a string, integer, boolean or null"
  | allBits | someBits => "a 64-bit integer"
  | entry => "a distinguished name string"

end Operand

namespace Conflict

def message : Conflict → String
  | keywordAttribute a => "attribute '" ++ a ++ "' collides with a keyword"
  | repeatedAttribute a => "more than one '" ++ a ++ "' test in one object"
  | spellingsExhausted k => "too many '" ++ k.name ++ "' tests in one object"

end Conflict

namespace FilterError

def message : FilterError → String
  | structural place expected =>
    "Invalid '" ++ place.name ++ "' filter: expected " ++ expected.description
  | malformedValue operand attr =>
    "Invalid value for '" ++ attr ++ "' in '" ++ operand.filterName ++ "' filter: expected "
      ++ operand.description
  | emptyProperty kind => kind.name ++ " filter requires a non-empty property name"
  | notAGroup kind => "Cannot add children to a " ++ kind.name ++ " filter"
  | invalidChild parent child =>
    child.name ++ " filter is not allowed inside a " ++ parent.name ++ " filter"
  | nestingTooDeep max actual =>
    "Filter nesting depth " ++ actual.repr ++ " exceeds maximum " ++ max.repr
  | tooManyNodes max => "Filter contains too many nodes (max " ++ max.repr ++ ")"
  | attributeNotAllowed attr => "Attribute '" ++ attr ++ "' is not allowed in filters"
  | invalidAttribute attr => "Invalid attribute description '" ++ attr ++ "'"
  | unrepresentable conflict => "Filter cannot be written as JSON: " ++ conflict.message
  | invalidJson => "Invalid JSON filter document"

end FilterError

end LdapFilter
