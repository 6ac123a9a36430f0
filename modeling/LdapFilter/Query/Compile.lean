import LdapFilter.Filter.Basic
import LdapFilter.Integer64
import LdapFilter.Json.Reader
import LdapFilter.Options

/-!
# From documents to filters

A query document is an object, and its first pair is the filter. A key that spells a keyword asks
for a combination or for a matching rule, and its payload says of what; any other key is an
attribute, tested for the value beside it.

Compiling stops at the first error. The pairs of a document are counted as they come, whatever
they turn out to be, and the nesting is checked before a payload is looked at.
-/

namespace LdapFilter.Query

open Text

/-! ### Single tests -/

/-- The text that a scalar is tested for, with none for the absence of any value. A number has to
be a 64-bit integer, and lists and objects are tested for nothing. -/
def literalText? (o : Options) : Json → Option (Option String)
  | .null => some none
  | .string s => some (some (o.operandText s))
  | .bool true => some (some "True")
  | .bool false => some (some "False")
  | .number n => (Integer64.ofNumber? n).map fun m => some (Decimal.text m.toInt)
  | .array _ | .object _ => none

def literal (o : Options) (attr : String) (value : Json) : Except FilterError Test := do
  o.checkAttribute attr
  match literalText? o value with
  | some text => Test.ofValue attr text
  | none => .error (.malformedValue .literal attr)

def onlyPair (k : Keyword) : Json → Except FilterError (String × Json)
  | .object [pair] => .ok pair
  | _ => .error (.structural (.payload k) .singleProperty)

def bitKeyword : BitRule → Keyword
  | .all => .band
  | .any => .bor

def bitOperand : BitRule → Operand
  | .all => .allBits
  | .any => .someBits

def bitwise (o : Options) (rule : BitRule) (payload : Json) : Except FilterError Test := do
  let (attr, operand) ← onlyPair (bitKeyword rule) payload
  o.checkAttribute attr
  match Integer64.ofJson? operand with
  | some mask => Test.ofMask rule attr mask
  | none => .error (.malformedValue (bitOperand rule) attr)

def chain (o : Options) (payload : Json) : Except FilterError Test := do
  let (attr, operand) ← onlyPair .recurse payload
  o.checkAttribute attr
  match operand with
  | .string entry => Test.ofEntry attr (o.operandText entry)
  | _ => .error (.malformedValue .entry attr)

/-! ### Limits -/

def countPair (o : Options) (count : Nat) : Except FilterError Nat :=
  if o.maxNodes < count + 1 then .error (.tooManyNodes o.maxNodes) else .ok (count + 1)

def enter (o : Options) (depth : Nat) : Except FilterError Unit :=
  if o.maxDepth < depth then .error (.nestingTooDeep o.maxDepth depth) else .ok ()

/-! ### Groups -/

/-- The groups that the pairs of a payload may make up. -/
inductive Group where
  | and
  | or
  | nor
deriving DecidableEq, Repr

namespace Group

def keyword : Group → Keyword
  | .and => .and
  | .or => .or
  | .nor => .nor

/-- The group without children. Asking for room for some of them makes no difference to it. -/
def empty (_room : Nat) : Group → Filter
  | .and => .andOf []
  | .or => .orOf []
  | .nor => .noneOf []

def accept : Group → Filter → Except FilterError Unit
  | .and, _ | .or, _ => .ok ()
  | .nor, child => (child.asTest .nor).map fun _ => ()

def gather : Group → List Filter → Except FilterError Filter
  | .and, children => .ok (.andOf children)
  | .or, children => .ok (.orOf children)
  | .nor, children => Filter.norOf children

end Group

/-! ### Pairs -/

mutual
/-- The filter of a pair at a depth, after some number of pairs; with it comes the number of
pairs so far. -/
def pair (o : Options) (depth count : Nat) (key : String) (value : Json) :
    Except FilterError (Filter × Nat) := do
  let count ← countPair o count
  match Keyword.ofKey? key with
  | none => return (.test (← literal o key value), count)
  | some .band => return (.test (← bitwise o .all value), count)
  | some .bor => return (.test (← bitwise o .any value), count)
  | some .recurse => return (.test (← chain o value), count)
  | some .and => do
    enter o (depth + 1)
    match value with
    | .object members => do
      let (children, count) ← pairs o .and (depth + 1) count members
      return (← Group.and.gather children, count)
    | _ => .error (.structural (.payload .and) .testsObject)
  | some .or => do
    enter o (depth + 1)
    match value with
    | .array objects => do
      let (children, count) ← items o .or (depth + 1) count objects
      return (← Group.or.gather children, count)
    | _ => .error (.structural (.payload .or) .objectArray)
  | some .nor => do
    enter o (depth + 1)
    match value with
    | .array objects => do
      let (children, count) ← items o .nor (depth + 1) count objects
      return (← Group.nor.gather children, count)
    | _ => .error (.structural (.payload .nor) .objectArray)
  | some .not => do
    enter o (depth + 1)
    match value with
    | .object [] => .error (.structural (.payload .not) .someProperty)
    | .object [(key, value)] => do
      let (inner, count) ← pair o (depth + 1) count key value
      match inner.test? with
      | some t => return (.not t, count)
      | none => .error (.structural (.payload .not) .singleTest)
    | .object (first :: second :: rest) => do
      let (children, count) ← pairs o .nor (depth + 1) count (first :: second :: rest)
      return (← Group.nor.gather children, count)
    | _ => .error (.structural (.payload .not) .anyObject)

/-- The children that the pairs of an object give to a group. A child that the group does not
take is an error before the next pair is looked at. -/
def pairs (o : Options) (group : Group) (depth count : Nat) :
    List (String × Json) → Except FilterError (List Filter × Nat)
  | [] => .ok ([], count)
  | (key, value) :: rest => do
    let (child, count) ← pair o depth count key value
    group.accept child
    let (children, count) ← pairs o group depth count rest
    return (child :: children, count)

/-- The children that the pairs of a list of objects give to a group. -/
def items (o : Options) (group : Group) (depth count : Nat) :
    List Json → Except FilterError (List Filter × Nat)
  | [] => .ok ([], count)
  | .object members :: rest => do
    let (children, count) ← pairs o group depth count members
    let (others, count) ← items o group depth count rest
    return (children ++ others, count)
  | _ :: _ => .error (.structural (.payload group.keyword) .objectArray)
end

/-! ### Documents -/

/-- A filter as the whole of a document: an equality or an absence stands in a group of its own. -/
def rooted : Filter → Filter
  | .test t => if t.isLiteral then Filter.andOf [.test t] else .test t
  | f => f

/-- The filter of a document. Pairs after the first one do not matter. -/
def compile (o : Options) : Json → Except FilterError Filter
  | .object [] => .error (.structural .document .someProperty)
  | .object ((key, value) :: _) => do
    let (f, _) ← pair o 0 0 key value
    return rooted f
  | _ => .error (.structural .document .documentObject)

def compileText (o : Options) (text : String) : Except FilterError Filter :=
  match Json.parse? text with
  | some document => compile o document
  | none => .error .invalidJson

/-- The filter of the document that a text starts with, when nothing follows it. An error in the
document comes before one in the text that follows. -/
def decode (text : String) : Except FilterError Filter :=
  match Json.read? text.toList with
  | some (document, rest) => do
    let f ← compile {} document
    if Json.isEnd rest then return f else throw .invalidJson
  | none => .error .invalidJson

end LdapFilter.Query
