import LdapFilter.Config.Basic
import LdapFilter.Proofs.Basic

/-!
# What settings give

Each of the options that settings give is written under its name, or it is the default one
(`areGivenBy_of_ofSettings?`).
-/

namespace LdapFilter

namespace Options

/-! ### Single settings -/

/-- The setting of some name that options have. -/
def setting? (o : Options) : String → Option Setting
  | "max_depth" => some (.count o.maxDepth)
  | "max_nodes" => some (.count o.maxNodes)
  | "allowed_attributes" => some (.names o.allowedAttributes)
  | "validate_attributes" => some (.switch o.validateAttributes)
  | "escape_values" => some (.switch o.escapeValues)
  | _ => none

variable {o o' : Options} {settings : List (String × Setting)}

/-- One setting is changed, and nothing else. -/
theorem setting?_of_set? {name : String} {setting : Setting} (h : o.set? name setting = some o')
    (other : String) :
    o'.setting? other = if other = name then some setting else o.setting? other := by
  unfold set? at h
  split at h
  case h_1 | h_2 =>
    obtain ⟨-, ⟨⟩⟩ := Option.ite_none_right_eq_some.1 h
    simp only [setting?]
    split <;> simp_all
  case h_3 | h_4 | h_5 =>
    cases h
    simp only [setting?]
    split <;> simp_all
  case h_6 => cases h

/-! ### All settings -/

/-- A setting is the one that is written under its name, or the old one when none is. -/
theorem setting?_of_foldlM (hnodup : (settings.map Prod.fst).Nodup)
    (h : settings.foldlM (fun o s => o.set? s.1 s.2) o = some o') (name : String) :
    o'.setting? name = (settings.lookup name).or (o.setting? name) := by
  induction settings generalizing o with
  | nil =>
    cases h
    rfl
  | cons s settings ih =>
    obtain ⟨first, setting⟩ := s
    obtain ⟨hfirst, hnodup⟩ := List.nodup_cons.1 hnodup
    rw [List.foldlM_cons, Option.bind_eq_bind, Option.bind_eq_some_iff] at h
    obtain ⟨o₁, hset, h⟩ := h
    rw [ih hnodup h, setting?_of_set? hset, List.lookup_cons]
    by_cases hname : name = first
    · subst hname
      have hrest : settings.lookup name = none := by
        rw [List.lookup_eq_none_iff]
        intro other hother
        have hmem : other.1 ∈ settings.map Prod.fst := List.mem_map_of_mem hother
        have hne : name ≠ other.1 := fun heq => hfirst (heq ▸ hmem)
        simpa using hne
      simp [hrest]
    · have hbeq : (name == first) = false := by simpa using hname
      simp [hname, hbeq]

/-- A setting of the options is the one that is written under its name, or else the default. -/
theorem setting?_of_ofSettings? (h : ofSettings? settings = some o) (name : String) :
    o.setting? name = (settings.lookup name).or (({} : Options).setting? name) := by
  rw [ofSettings?] at h
  split at h
  · next hnodup => exact setting?_of_foldlM hnodup h name
  · cases h

end Options

/-! ### Values of settings -/

namespace Setting

def count? : Setting → Option Nat
  | .count n => some n
  | _ => none

def names? : Setting → Option (List String)
  | .names list => some list
  | _ => none

def switch? : Setting → Option Bool
  | .switch on => some on
  | _ => none

end Setting

namespace Options

variable {o : Options} {settings : List (String × Setting)}

/-- The options that settings give, each under its name. -/
structure AreGivenBy (o : Options) (settings : List (String × Setting)) : Prop where
  maxDepth : o.maxDepth =
    ((settings.lookup "max_depth").bind Setting.count?).getD ({} : Options).maxDepth
  maxNodes : o.maxNodes =
    ((settings.lookup "max_nodes").bind Setting.count?).getD ({} : Options).maxNodes
  allowedAttributes : o.allowedAttributes =
    ((settings.lookup "allowed_attributes").bind Setting.names?).getD
      ({} : Options).allowedAttributes
  validateAttributes : o.validateAttributes =
    ((settings.lookup "validate_attributes").bind Setting.switch?).getD
      ({} : Options).validateAttributes
  escapeValues : o.escapeValues =
    ((settings.lookup "escape_values").bind Setting.switch?).getD ({} : Options).escapeValues

theorem eq_getD_of_or {α : Type} {read : Setting → Option α} {written : Option Setting}
    {setting default : Setting} {a b : α} (h : some setting = written.or (some default))
    (hsetting : read setting = some a) (hdefault : read default = some b) :
    a = (written.bind read).getD b := by
  cases written with
  | none =>
    cases h
    rw [hsetting] at hdefault
    exact Option.some.inj hdefault
  | some s =>
    cases h
    simp [hsetting]

theorem areGivenBy_of_ofSettings? (h : ofSettings? settings = some o) : o.AreGivenBy settings where
  maxDepth := eq_getD_of_or (setting?_of_ofSettings? h "max_depth") rfl rfl
  maxNodes := eq_getD_of_or (setting?_of_ofSettings? h "max_nodes") rfl rfl
  allowedAttributes := eq_getD_of_or (setting?_of_ofSettings? h "allowed_attributes") rfl rfl
  validateAttributes := eq_getD_of_or (setting?_of_ofSettings? h "validate_attributes") rfl rfl
  escapeValues := eq_getD_of_or (setting?_of_ofSettings? h "escape_values") rfl rfl

end Options

/-! ### Settings files -/

namespace Config

/-- The settings in the table of a settings file. -/
def settings? (text : String) : Option (List (String × Setting)) := do
  let tokens ← scan? text
  let draft ← (pieces .newline 0 [] tokens).foldlM Draft.add {}
  return draft.settings

/-- The options of a settings file are those that the settings in its table give. -/
theorem parse?_eq_some_iff {text : String} {o : Options} : parse? text = some o ↔
    ∃ settings, settings? text = some settings ∧ Options.ofSettings? settings = some o := by
  simp only [parse?, settings?, Option.bind_eq_bind, Option.bind_eq_some_iff]
  constructor
  · rintro ⟨tokens, htokens, draft, hdraft, h⟩
    exact ⟨_, ⟨tokens, htokens, draft, hdraft, rfl⟩, h⟩
  · rintro ⟨_, ⟨tokens, htokens, draft, hdraft, ⟨⟩⟩, h⟩
    exact ⟨tokens, htokens, draft, hdraft, h⟩

end Config

end LdapFilter
