import LdapFilter.Options
import LdapFilter.Text.Decimal

/-!
# Arguments

The arguments of a command line are read from left to right, and the first one that is wrong, or
that asks for the help text or the version, settles the matter. Options may be given by a long
name, or by letters that share one hyphen; a value stands in the same argument or in the next.
-/

namespace LdapFilter.CommandLine

open Text

/-- What a command line asks to be done. -/
structure Request where
  /-- The file that holds the document. -/
  file : Option String := none
  /-- The settings file. -/
  config : Option String := none
  maxDepth : Option Nat := none
  maxNodes : Option Nat := none
  /-- The allowed attributes, when any are given. -/
  allow : List String := []
  escapeValues : Bool := false
  validateAttributes : Bool := false
  /-- Whether the document is written back, in place of the filter. -/
  json : Bool := false
deriving DecidableEq, Repr

/-- Why nothing is to be done. -/
inductive Stop where
  /-- The arguments are wrong. -/
  | usage
  | help
  | version
deriving DecidableEq, Repr

/-- The options without a value. -/
inductive Switch where
  | escapeValues
  | validateAttributes
  | json
  | verbose
  | help
  | version
deriving DecidableEq, Repr

/-- The options with a value. -/
inductive Parameter where
  | config
  | maxDepth
  | maxNodes
  | allow
deriving DecidableEq, Repr

/-! ### Names -/

namespace Switch

def ofLong? : String → Option Switch
  | "escape-values" => some .escapeValues
  | "validate-attributes" => some .validateAttributes
  | "json" => some .json
  | "verbose" => some .verbose
  | "help" => some .help
  | "version" => some .version
  | _ => none

def ofShort? : Char → Option Switch
  | 'v' => some .verbose
  | 'h' => some .help
  | 'V' => some .version
  | _ => none

end Switch

namespace Parameter

def ofLong? : String → Option Parameter
  | "config" => some .config
  | "max-depth" => some .maxDepth
  | "max-nodes" => some .maxNodes
  | "allow" => some .allow
  | _ => none

def ofShort? : Char → Option Parameter
  | 'c' => some .config
  | _ => none

end Parameter

/-! ### Single options -/

namespace Request

/-- A path, which must not be empty. -/
def path (value : String) : Except Stop String :=
  if value = "" then .error .usage else .ok value

/-- A 64-bit count, with an optional plus sign. -/
def count (value : String) : Except Stop Nat :=
  match (Decimal.toNatPlus? value.toList).filter (· < Options.countLimit) with
  | some n => .ok n
  | none => .error .usage

/-- Fill in what may be given only once. -/
def once (old : Option α) (new : Except Stop α) : Except Stop (Option α) :=
  match old with
  | none => some <$> new
  | some _ => .error .usage

/-- Turn a switch on, which may be done only once. How much is reported on the way to an answer is
no part of it. -/
def turnOn (r : Request) : Switch → Except Stop Request
  | .escapeValues => if r.escapeValues then .error .usage else .ok { r with escapeValues := true }
  | .validateAttributes =>
    if r.validateAttributes then .error .usage else .ok { r with validateAttributes := true }
  | .json => if r.json then .error .usage else .ok { r with json := true }
  | .verbose => .ok r
  | .help => .error .help
  | .version => .error .version

/-- Give a parameter its value. Only the list of allowed attributes takes more than one. -/
def assign (r : Request) (p : Parameter) (value : String) : Except Stop Request := do
  match p with
  | .config => return { r with config := ← once r.config (path value) }
  | .maxDepth => return { r with maxDepth := ← once r.maxDepth (count value) }
  | .maxNodes => return { r with maxNodes := ← once r.maxNodes (count value) }
  | .allow => return { r with allow := r.allow ++ [value] }

/-- Take an argument that belongs to no option. -/
def place (r : Request) (value : String) : Except Stop Request := do
  return { r with file := ← once r.file (path value) }

/-! ### Arguments with options -/

/-- An option by its long name, with a value after an equals sign or without one. A parameter
without a value waits for the next argument. -/
def long (r : Request) (cs : List Char) : Except Stop (Request × Option Parameter) :=
  let name := String.ofList (cs.takeWhile (· ≠ '='))
  match Switch.ofLong? name, Parameter.ofLong? name, cs.dropWhile (· ≠ '=') with
  | some s, _, [] => do return (← r.turnOn s, none)
  | none, some p, [] => .ok (r, some p)
  | none, some p, _ :: value => do return (← r.assign p (String.ofList value), none)
  | _, _, _ => .error .usage

/-- The value that follows a parameter's letter; an equals sign in front of it is no part of it. -/
def attached : List Char → String
  | '=' :: cs => String.ofList cs
  | cs => String.ofList cs

/-- Options by their letters. What follows the letter of a parameter is its value; when nothing
does, the parameter waits for the next argument. -/
def letters (r : Request) : List Char → Except Stop (Request × Option Parameter)
  | [] => .ok (r, none)
  | c :: cs =>
    match Switch.ofShort? c, Parameter.ofShort? c with
    | some s, _ => do letters (← r.turnOn s) cs
    | none, some p =>
      if cs = [] then .ok (r, some p) else do return (← r.assign p (attached cs), none)
    | none, none => .error .usage

/-- The options of an argument, without the hyphen in front. -/
def options (r : Request) : List Char → Except Stop (Request × Option Parameter)
  | '-' :: cs => long r cs
  | cs => letters r cs

/-- Whether an argument is made of options; a hyphen alone is not. -/
def isOption (arg : String) : Bool :=
  match arg.toList with
  | '-' :: _ :: _ => true
  | _ => false

/-- Read arguments; while a parameter is waiting for its value, the first of them is this value.
After two hyphens alone there are no more options, and an argument made of options is never the
value of another one. -/
def readAll (r : Request) : Option Parameter → List String → Except Stop Request
  | none, [] => .ok r
  | some _, [] => .error .usage
  | some p, value :: rest =>
    if isOption value then .error .usage else do readAll (← r.assign p value) none rest
  | none, arg :: rest =>
    if arg = "--" then rest.foldlM place r
    else if isOption arg then do
      let (r, waiting) ← r.options (arg.toList.drop 1)
      readAll r waiting rest
    else do readAll (← r.place arg) none rest

/-- The request with a settings file from the surroundings, when it names none itself. -/
def withConfig (r : Request) (config : Option String) : Except Stop Request :=
  match r.config, config with
  | none, some value => do return { r with config := some (← path value) }
  | _, _ => .ok r

def parse (args : List String) (config : Option String) : Except Stop Request := do
  let r ← readAll {} none args
  r.withConfig config

/-- The options of a request, on top of those of the settings file. Switches only turn on, and
given attributes replace the configured ones. -/
def effective (r : Request) (configured : Options) : Options where
  maxDepth := r.maxDepth.getD configured.maxDepth
  maxNodes := r.maxNodes.getD configured.maxNodes
  allowedAttributes := if r.allow.isEmpty then configured.allowedAttributes else r.allow
  validateAttributes := r.validateAttributes || configured.validateAttributes
  escapeValues := r.escapeValues || configured.escapeValues

end Request

end LdapFilter.CommandLine
