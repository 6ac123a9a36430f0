import LdapFilter.CommandLine.Arguments
import LdapFilter.Config.Basic
import LdapFilter.Filter.Render
import LdapFilter.Json.Printer
import LdapFilter.Query.Compile
import LdapFilter.Query.WriteBack

/-!
# Runs

A run loads the settings, reads the document and compiles it, in this order, and reports the first
thing that goes wrong. It reaches files and the standard input only through `Surroundings`.
-/

namespace LdapFilter.CommandLine

inductive ReadError where
  | missing
  | denied
  | directory
  /-- What should be a directory on the way is none. -/
  | notDirectory
  /-- The bytes are not UTF-8. -/
  | invalidText
  | other (reason : String)
deriving DecidableEq, Repr

def decodeText (bytes : ByteArray) : Except ReadError String :=
  match String.fromUTF8? bytes with
  | some text => .ok text
  | none => .error .invalidText

/-- What a run finds around it. -/
structure Surroundings (m : Type → Type) where
  /-- The settings file, for requests that name none. -/
  config : Option String
  fileText : String → m (Except ReadError String)
  inputText : m (Except ReadError String)

inductive Source where
  | input
  | file (path : String)
deriving DecidableEq, Repr

inductive Failure where
  | unreadableConfig (path : String) (e : ReadError)
  | invalidConfig (path : String)
  | unreadableDocument (source : Source) (e : ReadError)
  | invalidDocument (source : Source) (e : FilterError)
  | unwritable (e : FilterError)
deriving DecidableEq, Repr

namespace ReadError

def message : ReadError → String
  | missing => "No such file or directory (os error 2)"
  | denied => "Permission denied (os error 13)"
  | directory => "Is a directory (os error 21)"
  | notDirectory => "Not a directory (os error 20)"
  | invalidText => "stream did not contain valid UTF-8"
  | other reason => reason

end ReadError

namespace Source

def name : Source → String
  | input => "stdin"
  | file path => path

end Source

namespace Failure

def message : Failure → String
  | unreadableConfig path e => "Failed to read config file: " ++ path ++ ": " ++ e.message
  | invalidConfig path => "Failed to parse config file: " ++ path
  | unreadableDocument source e => "Failed to read " ++ source.name ++ ": " ++ e.message
  | invalidDocument source e =>
    "Failed to compile filter from " ++ source.name ++ ": " ++ e.message
  | unwritable e => "Failed to write filter back as JSON: " ++ e.message

end Failure

structure Report where
  exitCode : UInt32
  output : String := ""
  /-- The report of a failure. -/
  error : Option String := none
deriving DecidableEq, Repr

/-! ### Stages -/

namespace Request

/-- Where the document of a request comes from: a hyphen stands for the standard input. -/
def source (r : Request) : Source :=
  match r.file with
  | some path => if path = "-" then .input else .file path
  | none => .input

/-- The options of a request, with those of its settings file. -/
def loadOptions [Monad m] (s : Surroundings m) (r : Request) : ExceptT Failure m Options :=
  match r.config with
  | none => return r.effective {}
  | some path => do
    match ← s.fileText path with
    | .error e => throw (.unreadableConfig path e)
    | .ok text =>
      match Config.parse? text with
      | none => throw (.invalidConfig path)
      | some configured => return r.effective configured

def readDocument [Monad m] (s : Surroundings m) (r : Request) : ExceptT Failure m String := do
  let result ← match r.source with
    | .input => s.inputText
    | .file path => s.fileText path
  match result with
  | .error e => throw (.unreadableDocument r.source e)
  | .ok text => return text

def answer (r : Request) (o : Options) (document : String) : Except Failure String := do
  let f ← (Query.compileText o document).mapError (.invalidDocument r.source)
  if r.json then return (← f.toJson.mapError .unwritable).pretty
  else return f.render

def run [Monad m] (s : Surroundings m) (r : Request) : ExceptT Failure m String := do
  let o ← r.loadOptions s
  let document ← r.readDocument s
  r.answer o document

end Request

/-! ### Runs -/

def versionText : String := "adfilter 0.1.0\n"

def helpText : String :=
  "Compile a JSON filter document to an LDAP search filter\n\n"
    ++ "Usage: adfilter [OPTIONS] [FILE]\n\n"
    ++ "Arguments:\n"
    ++ "  [FILE]  JSON document to compile; stdin when omitted or `-`\n\n"
    ++ "Options:\n"
    ++ "  -c, --config <CONFIG>        Path to a TOML config file with a [filter] table\n"
    ++ "      --max-depth <MAX_DEPTH>  Maximum nesting depth\n"
    ++ "      --max-nodes <MAX_NODES>  Maximum node count\n"
    ++ "      --escape-values          Escape special characters in values\n"
    ++ "      --validate-attributes    Reject names that are not attribute descriptions\n"
    ++ "      --allow <ATTR>           Allow only the named attribute (repeatable)\n"
    ++ "      --json                   Print the normalized JSON document\n"
    ++ "  -v, --verbose...             Increase log verbosity\n"
    ++ "  -h, --help                   Print help\n"
    ++ "  -V, --version                Print version\n"

def Stop.report : Stop → Report
  | usage => ⟨2, "", none⟩
  | help => ⟨0, helpText, none⟩
  | version => ⟨0, versionText, none⟩

def run [Monad m] (s : Surroundings m) (args : List String) : m Report := do
  match Request.parse args s.config with
  | .error stop => return stop.report
  | .ok r =>
    match ← (r.run s).run with
    | .ok text => return ⟨0, text ++ "\n", none⟩
    | .error failure => return ⟨1, "", some ("Error: " ++ failure.message)⟩

end LdapFilter.CommandLine
