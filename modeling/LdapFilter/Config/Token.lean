import LdapFilter.Config.Moment
import LdapFilter.Text.Hexadecimal

/-!
# Tokens of settings files

A settings file is a TOML document. Its text is scanned character by character: each character
turns one `Mode` into the next and may complete a token. Comments and blanks leave no token, the
end of a line does. A line ends in a line feed, and a carriage return stands right in front of one
or nowhere; text on several lines keeps the line ends as they are written.
-/

namespace LdapFilter.Config

open Text

/-- The smallest parts of a settings file that mean something. -/
inductive Token where
  | newline
  | equals
  | comma
  | openBracket
  | closeBracket
  | openBrace
  | closeBrace
  /-- A run of characters without quotes, dots among them: a value, a key or a part of one. -/
  | word (cs : List Char)
  /-- Text between quotes, on one line or on any number of lines. -/
  | quoted (text : String) (multiLine : Bool)
deriving DecidableEq, Repr

namespace Token

def isWordChar (c : Char) : Bool :=
  c.isAlphanum || ['_', '-', '+', '.', ':'].contains c

/-- The token that a character is by itself. -/
def ofChar? : Char → Option Token
  | '\n' => some .newline
  | '=' => some .equals
  | ',' => some .comma
  | '[' => some .openBracket
  | ']' => some .closeBracket
  | '{' => some .openBrace
  | '}' => some .closeBrace
  | _ => none

end Token

/-- Where the scanner stands. Text that is not complete has its last character first. -/
inductive Mode where
  | between
  | comment
  | word (done : List Char)
  /-- After a date and a space, where the time of day may follow. -/
  | afterDate (done : List Char)
  /-- After one or two quotes that may open text. -/
  | opening (quote : Char) (two : Bool)
  /-- Inside text on one line. -/
  | line (quote : Char) (done : List Char)
  /-- Inside text on any number of lines, after some quotes in a row. -/
  | block (quote : Char) (done : List Char) (quotes : Nat)
  /-- Right after the quotes that open text on any number of lines. -/
  | blockStart (quote : Char)
  /-- After a backslash. -/
  | escape (multiLine : Bool) (done : List Char)
  /-- Inside a character given by number, before some more digits. -/
  | number (multiLine : Bool) (done : List Char) (left value : Nat)
  /-- After a backslash at the end of a line, where blanks and line ends are passed over. -/
  | continuation (done : List Char) (lineEnded : Bool)

/-- A scanner: where it stands, and the tokens so far, last one first. -/
structure Scanner where
  mode : Mode
  tokens : List Token

namespace Scanner

/-- Whether a character is a blank that leaves no token. A carriage return is one, since the line
feed after it is what ends the line. -/
def isBlank (c : Char) : Bool :=
  c = ' ' || c = '\t' || c = '\r'

def isControl (c : Char) : Bool :=
  c ≠ '\t' && (c.toNat < 0x20 || c.toNat = 0x7F)

/-- The letters of escapes for one character, each with that character. -/
def escapes : List (Char × Char) :=
  [('b', '\x08'), ('t', '\t'), ('n', '\n'), ('f', '\x0C'), ('r', '\r'), ('"', '"'), ('\\', '\\')]

def textMode (multiLine : Bool) (done : List Char) : Mode :=
  if multiLine then .block '"' done 0 else .line '"' done

def textToken (multiLine : Bool) (done : List Char) : Token :=
  .quoted (String.ofList done.reverse) multiLine

/-- One character between tokens. -/
def stepBetween (tokens : List Token) (c : Char) : Option Scanner :=
  if isBlank c then some ⟨.between, tokens⟩
  else if c = '#' then some ⟨.comment, tokens⟩
  else if c = '"' ∨ c = '\'' then some ⟨.opening c false, tokens⟩
  else if Token.isWordChar c then some ⟨.word [c], tokens⟩
  else (Token.ofChar? c).map fun t => ⟨.between, t :: tokens⟩

/-- One character inside text on one line. -/
def stepLine (tokens : List Token) (quote : Char) (done : List Char) (c : Char) : Option Scanner :=
  if c = quote then some ⟨.between, textToken false done :: tokens⟩
  else if c = '\\' ∧ quote = '"' then some ⟨.escape false done, tokens⟩
  else if isControl c then none
  else some ⟨.line quote (c :: done), tokens⟩

/-- One character inside text on any number of lines. Three quotes end the text, and up to two
more quotes in front of them belong to it. -/
def stepBlock (tokens : List Token) (quote : Char) (done : List Char) (quotes : Nat) (c : Char) :
    Option Scanner :=
  if c = quote then
    if quotes = 4 then
      some ⟨.between, textToken true (quote :: quote :: done) :: tokens⟩
    else some ⟨.block quote done (quotes + 1), tokens⟩
  else if 3 ≤ quotes then
    stepBetween (textToken true (List.replicate (quotes - 3) quote ++ done) :: tokens) c
  else
    let done := List.replicate quotes quote ++ done
    if c = '\\' ∧ quote = '"' then some ⟨.escape true done, tokens⟩
    else if isControl c ∧ c ≠ '\n' ∧ c ≠ '\r' then none
    else some ⟨.block quote (c :: done) 0, tokens⟩

/-- One character after a backslash. -/
def stepEscape (tokens : List Token) (multiLine : Bool) (done : List Char) (c : Char) :
    Option Scanner :=
  if c = 'u' then some ⟨.number multiLine done 4 0, tokens⟩
  else if c = 'U' then some ⟨.number multiLine done 8 0, tokens⟩
  else if multiLine ∧ (isBlank c ∨ c = '\n') then some ⟨.continuation done (c = '\n'), tokens⟩
  else (escapes.lookup c).map fun d => ⟨textMode multiLine (d :: done), tokens⟩

/-- One digit of a character given by number. The last digit has to give a character. -/
def stepNumber (tokens : List Token) (multiLine : Bool) (done : List Char) (left value : Nat)
    (c : Char) : Option Scanner := do
  let digit ← Hexadecimal.value? c
  let value := value * 16 + digit
  if 1 < left then return ⟨.number multiLine done (left - 1) value, tokens⟩
  else if value.isValidChar then return ⟨textMode multiLine (Char.ofNat value :: done), tokens⟩
  else none

def step (s : Scanner) (c : Char) : Option Scanner :=
  match s.mode with
  | .between => stepBetween s.tokens c
  | .comment =>
    if c = '\n' then some ⟨.between, .newline :: s.tokens⟩
    else if isControl c ∧ c ≠ '\r' then none
    else some s
  | .word done =>
    if Token.isWordChar c then some ⟨.word (c :: done), s.tokens⟩
    else if c = ' ' ∧ isDate done.reverse then some ⟨.afterDate done, s.tokens⟩
    else stepBetween (.word done.reverse :: s.tokens) c
  | .afterDate done =>
    if c.isDigit then some ⟨.word (c :: ' ' :: done), s.tokens⟩
    else stepBetween (.word done.reverse :: s.tokens) c
  | .opening quote false =>
    if c = quote then some ⟨.opening quote true, s.tokens⟩ else stepLine s.tokens quote [] c
  | .opening quote true =>
    if c = quote then some ⟨.blockStart quote, s.tokens⟩
    else stepBetween (textToken false [] :: s.tokens) c
  | .line quote done => stepLine s.tokens quote done c
  | .blockStart quote =>
    if c = '\r' then some s
    else if c = '\n' then some ⟨.block quote [] 0, s.tokens⟩
    else stepBlock s.tokens quote [] 0 c
  | .block quote done quotes => stepBlock s.tokens quote done quotes c
  | .escape multiLine done => stepEscape s.tokens multiLine done c
  | .number multiLine done left value => stepNumber s.tokens multiLine done left value c
  | .continuation done lineEnded =>
    if isBlank c then some s
    else if c = '\n' then some ⟨.continuation done true, s.tokens⟩
    else if lineEnded then stepBlock s.tokens '"' done 0 c
    else none

/-- The tokens at the end of a text. Text that is still open is refused. -/
def finish (s : Scanner) : Option (List Token) :=
  match s.mode with
  | .between | .comment => some s.tokens.reverse
  | .word done | .afterDate done => some (.word done.reverse :: s.tokens).reverse
  | .opening _ true => some (textToken false [] :: s.tokens).reverse
  | .block quote done quotes =>
    if 3 ≤ quotes then
      some (textToken true (List.replicate (quotes - 3) quote ++ done) :: s.tokens).reverse
    else none
  | _ => none

end Scanner

/-- Whether every carriage return stands right in front of a line feed. -/
def returnsPaired : List Char → Bool
  | [] => true
  | ['\r'] => false
  | '\r' :: c :: cs => c = '\n' && returnsPaired cs
  | _ :: cs => returnsPaired cs

/-- A text without the mark that may stand in front of it. -/
def dropMark : List Char → List Char
  | '\uFEFF' :: cs => cs
  | cs => cs

def scan? (text : String) : Option (List Token) :=
  let cs := dropMark text.toList
  if returnsPaired cs then (cs.foldlM Scanner.step ⟨.between, []⟩).bind Scanner.finish else none

end LdapFilter.Config
