import LdapFilter.Attribute
import LdapFilter.Text.Hexadecimal

/-!
# Reading the text of filters

What a directory reads in the text of a filter, by the string representation of search filters
(RFC 4515, with the empty groups of RFC 4526). A text is read from the left; the groups and
negations that are still open stand on a stack of frames.

Values are octets: a character stands for its UTF-8 encoding, and a backslash with two hexadecimal
digits for a single octet.
-/

namespace LdapFilter

inductive Comparison where
  | equal
  | approximate
  | greaterOrEqual
  | lessOrEqual
deriving DecidableEq, Repr

/-- What is read in the text of a filter. -/
inductive Reading where
  | and (parts : List Reading)
  | or (parts : List Reading)
  | not (part : Reading)
  | compare (comparison : Comparison) (attr : String) (value : List UInt8)
  | present (attr : String)
  /-- The runs of octets between the asterisks of a value. -/
  | substrings (attr : String) (runs : List (List UInt8))
  | extensible (attr : Option String) (dnAttributes : Bool) (rule : Option String)
      (value : List UInt8)
deriving Inhabited

namespace Reading

/-! ### Values -/

def octets (cs : List Char) : List UInt8 :=
  cs.flatMap String.utf8EncodeChar

/-- Whether a character may stand for itself in a value. -/
def isPlain (c : Char) : Bool :=
  !(['\x00', '(', ')', '*', '\\'].contains c)

/-- The octets that a value stands for. -/
def value? : List Char → Option (List UInt8)
  | [] => some []
  | '\\' :: high :: low :: cs => do
    let m ← Text.Hexadecimal.value? high
    let n ← Text.Hexadecimal.value? low
    let rest ← value? cs
    return UInt8.ofNat (16 * m + n) :: rest
  | c :: cs =>
    if isPlain c then (value? cs).map fun rest => String.utf8EncodeChar c ++ rest else none

/-! ### Items -/

def attribute? (cs : List Char) : Option String :=
  if Attribute.isDescription (String.ofList cs) then some (String.ofList cs) else none

def rule? (cs : List Char) : Option String :=
  if Attribute.isDescriptor cs || Attribute.isNumericOid cs then some (String.ofList cs) else none

/-- Whether a text asks for the attributes of distinguished names; its letter case is free. -/
def isDn (cs : List Char) : Bool :=
  [['d', 'n'], ['d', 'N'], ['D', 'n'], ['D', 'N']].contains cs

/-- An extensible match, by the parts between the colons in front of its value. -/
def extensible? (value : List UInt8) : List (List Char) → Option Reading
  | [attr] => (attribute? attr).map fun attr => extensible (some attr) false none value
  | [[], rule] => (rule? rule).map fun rule => extensible none false (some rule) value
  | [attr, rule] => do
    let attr ← attribute? attr
    if isDn rule then return extensible (some attr) true none value
    let rule ← rule? rule
    return extensible (some attr) false (some rule) value
  | [[], dn, rule] => do
    guard (isDn dn)
    let rule ← rule? rule
    return extensible none true (some rule) value
  | [attr, dn, rule] => do
    guard (isDn dn)
    let attr ← attribute? attr
    let rule ← rule? rule
    return extensible (some attr) true (some rule) value
  | _ => none

def compare? (comparison : Comparison) (attr text : List Char) : Option Reading := do
  let attr ← attribute? attr
  let value ← value? text
  return compare comparison attr value

/-- A test for equality, for presence or for substrings, by the asterisks in its value. -/
def simple? (attr text : List Char) : Option Reading := do
  if text = ['*'] then return present (← attribute? attr)
  match text.splitOn '*' with
  | [text] => compare? .equal attr text
  | texts =>
    let attr ← attribute? attr
    let runs ← texts.mapM value?
    return substrings attr runs

/-- A single test, by the two sides of its equals sign. The last character of the left side tells
what kind of test it is. -/
def sides? (left text : List Char) : Option Reading :=
  match left.getLast? with
  | some '~' => compare? .approximate left.dropLast text
  | some '>' => compare? .greaterOrEqual left.dropLast text
  | some '<' => compare? .lessOrEqual left.dropLast text
  | some ':' => do
    let value ← value? text
    extensible? value (left.dropLast.splitOn ':')
  | _ => simple? left text

/-- A single test. The first equals sign ends its left side. -/
def item? (cs : List Char) : Option Reading :=
  match cs.dropWhile (· ≠ '=') with
  | [] => none
  | _ :: text => sides? (cs.takeWhile (· ≠ '=')) text

/-! ### Filters -/

inductive Operator where
  | and
  | or
  | not
deriving DecidableEq, Repr

/-- An operator that is not closed yet, with the filters read after it so far. -/
structure Frame where
  operator : Operator
  parts : List Reading

/-- The filter that a frame makes up; a negation has exactly one part. -/
def Frame.close? : Frame → Option Reading
  | ⟨.and, parts⟩ => some (.and parts)
  | ⟨.or, parts⟩ => some (.or parts)
  | ⟨.not, [part]⟩ => some (.not part)
  | ⟨.not, _⟩ => none

inductive Progress where
  /-- The outermost filter is complete. -/
  | done (r : Reading)
  | more (frames : List Frame)

/-- A filter is complete: it goes to the innermost frame. -/
def complete (r : Reading) : List Frame → Progress
  | [] => .done r
  | frame :: frames => .more (⟨frame.operator, frame.parts ++ [r]⟩ :: frames)

def isItemChar (c : Char) : Bool :=
  c ≠ '(' && c ≠ ')'

/-- One piece of a text: the start of an operator, an item, or the end of an operator. -/
def step (frames : List Frame) : List Char → Option (Progress × List Char)
  | '(' :: '&' :: cs => some (.more (⟨.and, []⟩ :: frames), cs)
  | '(' :: '|' :: cs => some (.more (⟨.or, []⟩ :: frames), cs)
  | '(' :: '!' :: cs => some (.more (⟨.not, []⟩ :: frames), cs)
  | '(' :: cs =>
    match cs.dropWhile isItemChar with
    | ')' :: rest => (item? (cs.takeWhile isItemChar)).map fun r => (complete r frames, rest)
    | _ => none
  | ')' :: cs =>
    match frames with
    | [] => none
    | frame :: frames => frame.close?.map fun r => (complete r frames, cs)
  | _ => none

theorem length_dropWhile_isItemChar {cs rest : List Char} {c : Char}
    (h : cs.dropWhile isItemChar = c :: rest) : rest.length < cs.length := by
  have hsub := (List.dropWhile_sublist isItemChar (l := cs)).length_le
  rw [h, List.length_cons] at hsub
  omega

/-- A piece of a text is not empty. -/
theorem length_step {frames : List Frame} {cs rest : List Char} {p : Progress}
    (h : step frames cs = some (p, rest)) : rest.length < cs.length := by
  unfold step at h
  split at h
  · cases h
    simp only [List.length_cons]
    omega
  · cases h
    simp only [List.length_cons]
    omega
  · cases h
    simp only [List.length_cons]
    omega
  · split at h
    · next hdrop =>
      have hlt := length_dropWhile_isItemChar hdrop
      obtain ⟨r, -, hr⟩ := Option.map_eq_some_iff.1 h
      cases hr
      simp only [List.length_cons]
      omega
    · simp at h
  · split at h
    · simp at h
    · obtain ⟨r, -, hr⟩ := Option.map_eq_some_iff.1 h
      cases hr
      simp
  · simp at h

/-- Read on until the outermost filter is complete; what follows it is returned unread. -/
def readFrom (frames : List Frame) (cs : List Char) : Option (Reading × List Char) :=
  match _h : step frames cs with
  | none => none
  | some (.done r, rest) => some (r, rest)
  | some (.more frames, rest) => readFrom frames rest
termination_by cs.length
decreasing_by exact length_step _h

/-- The filter that a whole text is. -/
def read? (text : String) : Option Reading :=
  match readFrom [] text.toList with
  | some (r, []) => some r
  | _ => none

end Reading

end LdapFilter
