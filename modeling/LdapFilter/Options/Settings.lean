import LdapFilter.Json.Reader
import LdapFilter.Options

/-!
# Settings

Options are written as settings, each with a name, or else as a list, each at its position. A
setting that is not written keeps its default; a name that is unknown or repeated, or a value of
the wrong sort, spoils all of them.
-/

namespace LdapFilter

inductive Setting where
  | count (n : Nat)
  | switch (on : Bool)
  | names (names : List String)
  /-- A value that no setting takes. -/
  | other
deriving DecidableEq, Repr

namespace Options

def set? (o : Options) (name : String) (setting : Setting) : Option Options :=
  match name, setting with
  | "max_depth", .count n => if n < countLimit then some { o with maxDepth := n } else none
  | "max_nodes", .count n => if n < countLimit then some { o with maxNodes := n } else none
  | "allowed_attributes", .names names => some { o with allowedAttributes := names }
  | "validate_attributes", .switch on => some { o with validateAttributes := on }
  | "escape_values", .switch on => some { o with escapeValues := on }
  | _, _ => none

/-- The names of the settings, in the order of their positions in a list. -/
def settingNames : List String :=
  ["max_depth", "max_nodes", "allowed_attributes", "validate_attributes", "escape_values"]

/-- The options with the given settings, and defaults for the others. -/
def ofSettings? (settings : List (String × Setting)) : Option Options :=
  if (settings.map Prod.fst).Nodup then settings.foldlM (fun o s => o.set? s.1 s.2) {} else none

end Options

/-! ### Settings in documents -/

namespace Setting

/-- A text, when a document is one. -/
def name? : Json → Option String
  | .string s => some s
  | _ => none

/-- The setting that a document gives: a count is a whole number written without a point. -/
def ofJson : Json → Setting
  | .number (.integer (.ofNat n)) => .count n
  | .bool on => .switch on
  | .array items => ((items.mapM name?).map names).getD .other
  | _ => .other

end Setting

namespace Options

/-- The options that an object gives, or a list that is no longer than there are settings. -/
def ofJson? : Json → Option Options
  | .object members => ofSettings? (members.map fun m => (m.1, Setting.ofJson m.2))
  | .array items =>
    if items.length ≤ settingNames.length then
      ofSettings? (settingNames.zip (items.map Setting.ofJson))
    else none
  | _ => none

/-- The options that a text gives. Members of its object with the same key are not settled, so
they count as repeated names. -/
def parse? (text : String) : Option Options :=
  (Json.parseVerbatim? text).bind ofJson?

end Options

end LdapFilter
