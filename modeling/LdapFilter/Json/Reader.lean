import LdapFilter.Json.Token

/-!
# Reading documents

A document is read token by token. What is read of the surrounding lists and objects stands on a
stack of frames, one for each list or object that is still open, so the stack's height is the
nesting at the point that reading has come to.
-/

namespace LdapFilter.Json

/-- How many lists and objects may be open at the same time. -/
def maxNesting : Nat := 127

/-- An open list or object around the value that is being read, with the items or members before
that value, last one first. -/
inductive Frame where
  | item (before : List Json)
  | member (before : List (String × Json)) (key : String)

/-- What may come next. The list or object that a closing token would end, with what it holds so
far, is part of the state. -/
inductive State where
  /-- A value. -/
  | value
  /-- The first item of a list, or its end. -/
  | firstItem
  /-- A comma, or the end of a list. -/
  | afterItem (items : List Json)
  /-- The first key of an object, or its end. -/
  | firstKey
  /-- A key. -/
  | key (members : List (String × Json))
  /-- The colon after a key. -/
  | colon (members : List (String × Json)) (key : String)
  /-- A comma, or the end of an object. -/
  | afterMember (members : List (String × Json))

inductive Progress where
  /-- The outermost value is complete. -/
  | done (value : Json)
  | more (state : State) (frames : List Frame)

namespace Progress

/-- A value is complete: it goes to the innermost frame. -/
def complete (value : Json) : List Frame → Progress
  | [] => .done value
  | .item before :: frames => .more (.afterItem (value :: before)) frames
  | .member before key :: frames => .more (.afterMember ((key, value) :: before)) frames

def start (frames : List Frame) : Token → Option Progress
  | .null => some (complete .null frames)
  | .bool b => some (complete (.bool b) frames)
  | .number n => some (complete (.number n) frames)
  | .string s => some (complete (.string s) frames)
  | .openArray => if frames.length < maxNesting then some (.more .firstItem frames) else none
  | .openObject => if frames.length < maxNesting then some (.more .firstKey frames) else none
  | _ => none

/-- One token, in a state and inside some frames. -/
def step (frames : List Frame) : State → Token → Option Progress
  | .value, t => start frames t
  | .firstItem, .closeArray => some (complete (.array []) frames)
  | .firstItem, t => start (.item [] :: frames) t
  | .afterItem items, .comma => some (.more .value (.item items :: frames))
  | .afterItem items, .closeArray => some (complete (.array items.reverse) frames)
  | .firstKey, .closeObject => some (complete (.object []) frames)
  | .firstKey, .string key => some (.more (.colon [] key) frames)
  | .key members, .string key => some (.more (.colon members key) frames)
  | .colon members key, .colon => some (.more .value (.member members key :: frames))
  | .afterMember members, .comma => some (.more (.key members) frames)
  | .afterMember members, .closeObject => some (complete (.object members.reverse) frames)
  | _, _ => none

end Progress

/-- Read on until the outermost value is complete; what follows it is returned unread. -/
def readFrom (state : State) (frames : List Frame) (cs : List Char) :
    Option (Json × List Char) :=
  match _h : Token.read? cs with
  | none => none
  | some (t, rest) =>
    match Progress.step frames state t with
    | none => none
    | some (.done value) => some (value, rest)
    | some (.more state frames) => readFrom state frames rest
termination_by cs.length
decreasing_by exact Token.length_read? _h

/-- The value at the start of a text as it is written, with every member of its objects, and the
text after it. -/
def readVerbatim? (cs : List Char) : Option (Json × List Char) :=
  readFrom .value [] cs

/-- The value at the start of a text, with one member for each key, and the text after it. -/
def read? (cs : List Char) : Option (Json × List Char) :=
  (readVerbatim? cs).map fun v => (v.1.settled, v.2)

def isEnd (cs : List Char) : Bool :=
  cs.all Token.isSpace

/-- The value that a whole text is, as it is written. -/
def parseVerbatim? (text : String) : Option Json :=
  ((readVerbatim? text.toList).filter fun v => isEnd v.2).map Prod.fst

/-- The value that a whole text is, with one member for each key. -/
def parse? (text : String) : Option Json :=
  ((read? text.toList).filter fun v => isEnd v.2).map Prod.fst

end LdapFilter.Json
