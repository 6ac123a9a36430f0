import LdapFilter.Config.Number
import LdapFilter.Config.Token
import LdapFilter.Options.Settings

/-!
# Values in settings files

A value is read from the tokens that it consists of. Lists and inline tables are cut into pieces at
the commas that are not inside another list or table, and each piece is read by itself.
-/

namespace LdapFilter.Config

/-! ### Pieces -/

/-- How many lists and inline tables are open after a token. -/
def openAfter (depth : Nat) : Token → Nat
  | .openBracket | .openBrace => depth + 1
  | .closeBracket | .closeBrace => depth - 1
  | _ => depth

/-- The runs of tokens between separators; a separator inside a list or an inline table separates
nothing. The run so far has its last token first. -/
def pieces (separator : Token) (depth : Nat) (piece : List Token) : List Token → List (List Token)
  | [] => [piece.reverse]
  | t :: ts =>
    if t = separator ∧ depth = 0 then piece.reverse :: pieces separator 0 [] ts
    else pieces separator (openAfter depth t) (t :: piece) ts

/-- Tokens without the line ends around them. -/
def trimLines (ts : List Token) : List Token :=
  ((ts.dropWhile (· = .newline)).reverse.dropWhile (· = .newline)).reverse

/-! ### Keys -/

inductive KeyPart where
  | name (name : String)
  | dot
deriving DecidableEq, Repr

def isBareChar (c : Char) : Bool :=
  c.isAlphanum || c = '_' || c = '-'

/-- The name that a run of characters is; nothing for no characters. -/
def bareName? (cs : List Char) : Option (List KeyPart) :=
  if cs = [] then some []
  else if cs.all isBareChar then some [.name (String.ofList cs)] else none

def keyParts? : Token → Option (List KeyPart)
  | .word cs => ((cs.splitOn '.').mapM bareName?).map fun names =>
    (names.intersperse [.dot]).flatten
  | .quoted text false => some [.name text]
  | _ => none

/-- The names of a key, which have single dots between them. -/
def alternating? : List KeyPart → Option (List String)
  | [.name name] => some [name]
  | .name name :: .dot :: parts => (alternating? parts).map (name :: ·)
  | _ => none

/-- The names that lead to the place of a value. -/
def path? (ts : List Token) : Option (List String) := do
  let parts ← ts.mapM keyParts?
  alternating? parts.flatten

/-- The path in front of an equals sign, and the tokens after it. -/
def assignment? (ts : List Token) : Option (List String × List Token) :=
  match ts.dropWhile (· ≠ .equals) with
  | .equals :: value => (path? (ts.takeWhile (· ≠ .equals))).map fun path => (path, value)
  | _ => none

/-! ### Values -/

inductive Value where
  | integer (n : Int)
  | switch (on : Bool)
  | text (text : String)
  | list (items : List Value)
  | table (members : List (List String × Value))
  /-- A number that is not written as a whole one, or a date or time. -/
  | other

namespace Value

def ofWord? (cs : List Char) : Option Value :=
  if cs = "true".toList then some (.switch true)
  else if cs = "false".toList then some (.switch false)
  else match integer? cs with
    | some n => some (.integer n)
    | none => if isFloat cs || isMoment cs then some .other else none

/-- The items of a list up to its end. A comma may follow the last one. -/
def items? (ts : List Token) : Option (List (List Token)) :=
  if ts.getLast? = some .closeBracket then
    let items := (pieces .comma 0 [] ts.dropLast).map trimLines
    some (if items.getLast? = some [] then items.dropLast else items)
  else none

/-- The members of an inline table up to its end. -/
def members? (ts : List Token) : Option (List (List String × List Token)) :=
  if ts = [.closeBrace] then some []
  else if ts.getLast? = some .closeBrace then (pieces .comma 0 [] ts.dropLast).mapM assignment?
  else none

/-- Whether each path leads to a place of its own, which is not inside the place of another. -/
def areApart (paths : List (List String)) : Bool :=
  paths.Pairwise fun p q => !p.isPrefixOf q && !q.isPrefixOf p

/-- The value that tokens are, when lists and inline tables are nested no deeper than given. -/
def read? : Nat → List Token → Option Value
  | _, [.word cs] => ofWord? cs
  | _, [.quoted s _] => some (.text s)
  | nesting + 1, .openBracket :: ts => do
    let items ← items? ts
    return .list (← items.mapM (read? nesting))
  | nesting + 1, .openBrace :: ts => do
    let members ← members? ts
    if areApart (members.map Prod.fst) then
      let values ← members.mapM fun m => read? nesting m.2
      return .table ((members.map Prod.fst).zip values)
    else none
  | _, _ => none

def maxNesting : Nat := 80

def ofTokens? (ts : List Token) : Option Value :=
  read? maxNesting ts

/-! ### Settings -/

def text? : Value → Option String
  | .text s => some s
  | _ => none

def setting : Value → Setting
  | .integer (.ofNat n) => .count n
  | .switch on => .switch on
  | .list items => ((items.mapM text?).map .names).getD .other
  | _ => .other

/-- The setting that a member of a table is, when its path is a single name. -/
def namedSetting? : List String × Value → Option (String × Setting)
  | ([name], value) => some (name, value.setting)
  | _ => none

/-- The settings that a value holds: those of a table, or those of a list, each under the name of
its position. What has no position is passed over. -/
def settings? : Value → Option (List (String × Setting))
  | .table members => members.mapM namedSetting?
  | .list items => some (Options.settingNames.zip (items.map setting))
  | _ => none

end Value

end LdapFilter.Config
