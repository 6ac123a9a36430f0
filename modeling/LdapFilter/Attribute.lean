/-!
# Attribute descriptions

The syntax of an attribute description: a name or a numeric identifier, with any number of
options after it. All of it is ASCII.
-/

namespace LdapFilter.Attribute

/-- The characters of names and options: letters, digits and the hyphen. -/
def isKeyChar (c : Char) : Bool :=
  c.isAlphanum || c = '-'

/-- A name: a letter, and then letters, digits and hyphens. -/
def isDescriptor : List Char → Bool
  | [] => false
  | c :: cs => c.isAlpha && cs.all isKeyChar

/-- A number of a numeric identifier: a zero, or digits that do not start with one. -/
def isArc : List Char → Bool
  | [] => false
  | ['0'] => true
  | '0' :: _ => false
  | cs => cs.all Char.isDigit

/-- A numeric identifier: two or more numbers with dots between them. -/
def isNumericOid (cs : List Char) : Bool :=
  2 ≤ (cs.splitOn '.').length && (cs.splitOn '.').all isArc

/-- An option: one or more letters, digits and hyphens. -/
def isOption (cs : List Char) : Bool :=
  cs ≠ [] && cs.all isKeyChar

def isDescription (s : String) : Bool :=
  match s.toList.splitOn ';' with
  | [] => false
  | base :: options => (isDescriptor base || isNumericOid base) && options.all isOption

end LdapFilter.Attribute
