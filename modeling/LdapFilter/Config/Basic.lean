import LdapFilter.Config.Value

/-!
# Settings files

A settings file holds settings in its table `filter` and nothing else. The table may be written
under a header, inline, or key by key with dots, and a list of settings may stand in its place;
whichever way is chosen is the only one in the file.
-/

namespace LdapFilter.Config

/-- The way in which the table of settings is written. -/
inductive Manner where
  | unwritten
  | header
  | dotted
  | inlined
deriving DecidableEq, Repr

structure Draft where
  manner : Manner := .unwritten
  settings : List (String × Setting) := []

def tableName : String := "filter"

namespace Draft

def assign (d : Draft) (path : List String) (value : Value) : Option Draft :=
  match d.manner, path with
  | .header, [name] => some ⟨.header, d.settings ++ [(name, value.setting)]⟩
  | .unwritten, [table] =>
    if table = tableName then value.settings?.map fun settings => ⟨.inlined, settings⟩ else none
  | .unwritten, [table, name] | .dotted, [table, name] =>
    if table = tableName then some ⟨.dotted, d.settings ++ [(name, value.setting)]⟩ else none
  | _, _ => none

def add (d : Draft) : List Token → Option Draft
  | [] => some d
  | .openBracket :: ts =>
    if ts.getLast? = some .closeBracket ∧ path? ts.dropLast = some [tableName]
        ∧ d.manner = .unwritten then
      some ⟨.header, d.settings⟩
    else none
  | ts => do
    let (path, value) ← assignment? ts
    d.assign path (← Value.ofTokens? value)

end Draft

/-- The options that a settings file gives. -/
def parse? (text : String) : Option Options := do
  let tokens ← scan? text
  let draft ← (pieces .newline 0 [] tokens).foldlM Draft.add {}
  Options.ofSettings? draft.settings

end LdapFilter.Config
