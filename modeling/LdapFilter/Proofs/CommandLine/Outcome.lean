import LdapFilter.Filter.Equality
import LdapFilter.Proofs.CommandLine.Items
import LdapFilter.Proofs.CommandLine.Normal
import LdapFilter.Proofs.Settings

/-!
# What a command line comes to

A run is settled by the items of its command line and by what it finds around it. The options under
which it compiles are read off the items and the settings file (`MergesTo`). It fails with the first
of its stages that fails, and prints nothing then; when none fails, it prints what the document is
compiled to (`run_of_spells`).
-/

namespace LdapFilter.CommandLine

open Query (compileText)

/-! ### Surroundings -/

/-- What a run finds around it, as bytes: files, the standard input, and the settings file for
command lines that name none. -/
structure World where
  config : Option String
  fileBytes : String → Except ReadError ByteArray
  inputBytes : Except ReadError ByteArray

namespace World

def bytes (w : World) : Source → Except ReadError ByteArray
  | .input => w.inputBytes
  | .file path => w.fileBytes path

/-- The text of a source: it has to be there, and to be UTF-8. -/
def text (w : World) (source : Source) : Except ReadError String :=
  w.bytes source >>= decodeText

def surroundings (w : World) : Surroundings Id where
  config := w.config
  fileText path := pure (w.text (.file path))
  inputText := pure (w.text .input)

theorem text_eq_ok_iff {w : World} {source : Source} {text : String} :
    w.text source = .ok text ↔
      ∃ bytes, w.bytes source = .ok bytes ∧ String.fromUTF8? bytes = some text := by
  simp only [World.text, Except.bind_eq_ok_iff, decodeText]
  refine exists_congr fun bytes => and_congr_right fun _ => ?_
  cases String.fromUTF8? bytes <;> simp

end World

/-! ### What the items ask for -/

namespace Item

/-- The settings file: the one that is named on the command line, or else in the surroundings. -/
def settingsFile? (items : List Item) (w : World) : Option String :=
  (values .config items).head?.or w.config

/-- Where the document is: a hyphen stands for the standard input, and so does no argument. -/
def source (items : List Item) : Source :=
  match (arguments items).head? with
  | none => .input
  | some path => if path = "-" then .input else .file path

/-- The options that items make of configured ones: counts replace counts, switches only turn on,
and allowed attributes replace the whole list. -/
structure MergesTo (items : List Item) (configured o : Options) : Prop where
  maxDepth : ∃ given, Request.Once Request.IsCount (values .maxDepth items) given ∧
    o.maxDepth = given.getD configured.maxDepth
  maxNodes : ∃ given, Request.Once Request.IsCount (values .maxNodes items) given ∧
    o.maxNodes = given.getD configured.maxNodes
  allowedAttributes : o.allowedAttributes =
    if values .allow items = [] then configured.allowedAttributes else values .allow items
  validateAttributes : o.validateAttributes = true ↔
    .switch .validateAttributes ∈ items ∨ configured.validateAttributes = true
  escapeValues : o.escapeValues = true ↔
    .switch .escapeValues ∈ items ∨ configured.escapeValues = true

end Item

/-! ### Stages -/

section

variable {w : World} {items : List Item}

/-- The options that are configured: those of the settings file, if there is one. -/
inductive Loads (w : World) : Option String → Options → Prop
  | unnamed : Loads w none {}
  | file {path text : String} {settings : List (String × Setting)} {configured : Options}
      (hread : w.text (.file path) = .ok text) (hsettings : Config.settings? text = some settings)
      (hvalid : Options.ofSettings? settings = some configured)
      (hgiven : configured.AreGivenBy settings) : Loads w (some path) configured

inductive FailsToLoad (w : World) : Option String → Failure → Prop
  | unreadable {path : String} {e : ReadError} (hread : w.text (.file path) = .error e) :
      FailsToLoad w (some path) (.unreadableConfig path e)
  | invalid {path text : String} (hread : w.text (.file path) = .ok text)
      (hinvalid : Config.parse? text = none) : FailsToLoad w (some path) (.invalidConfig path)

/-- The options under which a document is compiled. -/
def Configures (w : World) (items : List Item) (o : Options) : Prop :=
  ∃ configured, Loads w (Item.settingsFile? items w) configured ∧ Item.MergesTo items configured o

/-- No stage fails: the settings are loaded, and the document is read as UTF-8 and compiled to a
filter. -/
structure CompilesTo (w : World) (items : List Item) (o : Options) (document : String)
    (f : Filter) : Prop where
  configures : Configures w items o
  reads : ∃ bytes, w.bytes (Item.source items) = .ok bytes ∧ String.fromUTF8? bytes = some document
  compiles : compileText o document = .ok f

/-- The first stage that fails. -/
inductive FailsWith (w : World) (items : List Item) : Failure → Prop
  | config {failure : Failure} (h : FailsToLoad w (Item.settingsFile? items w) failure) :
      FailsWith w items failure
  | document {o : Options} {e : ReadError} (hload : Configures w items o)
      (hread : w.text (Item.source items) = .error e) :
      FailsWith w items (.unreadableDocument (Item.source items) e)
  | compiling {o : Options} {document : String} {e : FilterError} (hload : Configures w items o)
      (hread : w.text (Item.source items) = .ok document)
      (hcompile : compileText o document = .error e) :
      FailsWith w items (.invalidDocument (Item.source items) e)

/-! ### Requests and items -/

variable {r : Request}

/-- A path is the value that names it. -/
theorem Request.Once.eq_head? {values : List String} {given : Option String}
    (h : Request.Once Request.IsPath values given) : given = values.head? := by
  cases h with
  | absent => rfl
  | given hpath => rw [hpath.2, List.head?_cons]

/-- Values leave no choice of the count that they give. -/
theorem Request.Once.unique {values : List String} {given given' : Option Nat}
    (h : Request.Once Request.IsCount values given)
    (h' : Request.Once Request.IsCount values given') : given = given' := by
  cases h with
  | absent =>
    cases h'
    rfl
  | given hn =>
    cases h' with
    | given hm =>
      have hn := Request.count_eq_ok_iff.2 hn
      rw [Except.ok.inj (hn.symm.trans (Request.count_eq_ok_iff.2 hm))]

/-- A request sums up the items of its command line, with the settings file that they lead to. -/
structure Request.SettledBy (r : Request) (items : List Item) (w : World) : Prop where
  config : r.config = Item.settingsFile? items w
  source : r.source = Item.source items
  json : r.json = true ↔ .switch .json ∈ items
  merges (configured : Options) : Item.MergesTo items configured (r.effective configured)

theorem Request.Summarizes.settledBy {r : Request} (h : r.Summarizes items) (w : World) :
    ({ r with config := r.config.or w.config } : Request).SettledBy items w where
  config := by rw [h.config.eq_head?, Item.settingsFile?]
  source := by
    simp only [Request.source, Item.source, h.file.eq_head?]
    cases (Item.arguments items).head? <;> rfl
  json := h.json
  merges configured := by
    constructor
    · exact ⟨r.maxDepth, h.maxDepth, rfl⟩
    · exact ⟨r.maxNodes, h.maxNodes, rfl⟩
    · simp only [Request.effective, h.allow, List.isEmpty_iff]
    · rw [Request.effective, Bool.or_eq_true, h.validateAttributes]
    · rw [Request.effective, Bool.or_eq_true, h.escapeValues]

theorem Request.eq_of_withConfig {r r' : Request} {config : Option String}
    (h : r.withConfig config = .ok r') : r' = { r with config := r.config.or config } := by
  cases hr : r.config with
  | some path =>
    simp only [Request.withConfig, hr] at h
    cases h
    rw [Option.some_or, ← hr]
  | none =>
    cases config with
    | none =>
      simp only [Request.withConfig, hr] at h
      cases h
      rw [Option.none_or, ← hr]
    | some value =>
      simp only [Request.withConfig, hr] at h
      obtain ⟨path, hpath, ⟨⟩⟩ := Except.bind_eq_ok_iff.1 h
      rw [(Request.path_eq_ok_iff.1 hpath).2, Option.none_or]

/-- What is read from a command line is settled by its items. -/
theorem Request.settledBy_of_parse {args : List String} {r : Request} (hitems : Spells args items)
    (h : Request.parse args w.config = .ok r) : r.SettledBy items w := by
  obtain ⟨r₀, hread, h⟩ := Except.bind_eq_ok_iff.1 h
  rw [Request.readAll_of_spells hitems] at hread
  rw [Request.eq_of_withConfig h]
  exact (Request.summarizes_of_foldlM hread).settledBy w

/-- Items and configured options leave no choice of options. -/
theorem Item.MergesTo.unique {configured o o' : Options} (h : Item.MergesTo items configured o)
    (h' : Item.MergesTo items configured o') : o = o' := by
  have hdepth : o.maxDepth = o'.maxDepth := by
    obtain ⟨given, hgiven, heq⟩ := h.maxDepth
    obtain ⟨given', hgiven', heq'⟩ := h'.maxDepth
    rw [heq, heq', hgiven.unique hgiven']
  have hnodes : o.maxNodes = o'.maxNodes := by
    obtain ⟨given, hgiven, heq⟩ := h.maxNodes
    obtain ⟨given', hgiven', heq'⟩ := h'.maxNodes
    rw [heq, heq', hgiven.unique hgiven']
  have hallowed := h.allowedAttributes.trans h'.allowedAttributes.symm
  have hvalidate := Bool.eq_iff_iff.2 (h.validateAttributes.trans h'.validateAttributes.symm)
  have hescape := Bool.eq_iff_iff.2 (h.escapeValues.trans h'.escapeValues.symm)
  cases o
  cases o'
  rw [Options.mk.injEq]
  exact ⟨hdepth, hnodes, hallowed, hvalidate, hescape⟩

/-! ### Stages of a run -/

/-- The settings file gives options, or there is a reason why it does not. -/
theorem exists_loads_or_failsToLoad (w : World) (file : Option String) :
    (∃ configured, Loads w file configured) ∨ ∃ failure, FailsToLoad w file failure := by
  cases file with
  | none => exact Or.inl ⟨{}, .unnamed⟩
  | some path =>
    cases hread : w.text (.file path) with
    | error e => exact Or.inr ⟨_, .unreadable hread⟩
    | ok text =>
      cases hparse : Config.parse? text with
      | none => exact Or.inr ⟨_, .invalid hread hparse⟩
      | some configured =>
        obtain ⟨settings, hsettings, hvalid⟩ := Config.parse?_eq_some_iff.1 hparse
        have hgiven := Options.areGivenBy_of_ofSettings? hvalid
        exact Or.inl ⟨configured, .file hread hsettings hvalid hgiven⟩

theorem loadOptions_file {path : String} (hconfig : r.config = some path) :
    (r.loadOptions w.surroundings).run =
      match w.text (.file path) with
      | .error e => .error (.unreadableConfig path e)
      | .ok text =>
        match Config.parse? text with
        | none => .error (.invalidConfig path)
        | some configured => .ok (r.effective configured) := by
  rw [Request.loadOptions, hconfig]
  simp only [World.surroundings]
  cases w.text (.file path) with
  | error e => rfl
  | ok text => cases Config.parse? text <;> rfl

theorem loadOptions_of_loads {configured : Options} (h : Loads w r.config configured) :
    (r.loadOptions w.surroundings).run = .ok (r.effective configured) := by
  cases hconfig : r.config with
  | none =>
    rw [hconfig] at h
    cases h
    rw [Request.loadOptions, hconfig]
    rfl
  | some path =>
    rw [hconfig] at h
    cases h with
    | file hread hsettings hvalid =>
      have hparse := Config.parse?_eq_some_iff.2 ⟨_, hsettings, hvalid⟩
      rw [loadOptions_file hconfig, hread]
      simp only [hparse]

theorem loadOptions_of_failsToLoad {failure : Failure} (h : FailsToLoad w r.config failure) :
    (r.loadOptions w.surroundings).run = .error failure := by
  generalize hconfig : r.config = file at h
  cases h with
  | unreadable hread => rw [loadOptions_file hconfig, hread]
  | invalid hread hinvalid =>
    rw [loadOptions_file hconfig, hread]
    simp only [hinvalid]

theorem readDocument_eq (w : World) (r : Request) :
    (r.readDocument w.surroundings).run =
      (w.text r.source).mapError (Failure.unreadableDocument r.source) := by
  rw [Request.readDocument]
  cases r.source with
  | input =>
    simp only [World.surroundings]
    cases w.text .input <;> rfl
  | file path =>
    simp only [World.surroundings]
    cases w.text (.file path) <;> rfl

theorem Request.SettledBy.loadOptions {o : Options} (hr : r.SettledBy items w)
    (h : Configures w items o) : (r.loadOptions w.surroundings).run = .ok o := by
  obtain ⟨configured, hloads, hmerges⟩ := h
  rw [← hr.config] at hloads
  rw [loadOptions_of_loads hloads, hmerges.unique (hr.merges configured)]

theorem Request.SettledBy.readDocument (hr : r.SettledBy items w) :
    (r.readDocument w.surroundings).run =
      (w.text (Item.source items)).mapError (Failure.unreadableDocument (Item.source items)) := by
  rw [readDocument_eq, hr.source]

/-! ### Runs -/

/-- Some stage fails, or none does. -/
theorem Request.SettledBy.compilesTo_or_failsWith (hr : r.SettledBy items w) :
    (∃ o document f, CompilesTo w items o document f) ∨ ∃ failure, FailsWith w items failure := by
  rcases exists_loads_or_failsToLoad w (Item.settingsFile? items w) with
    ⟨configured, hloads⟩ | ⟨failure, hfails⟩
  · have hload : Configures w items (r.effective configured) :=
      ⟨configured, hloads, hr.merges configured⟩
    cases hread : w.text (Item.source items) with
    | error e => exact Or.inr ⟨_, .document hload hread⟩
    | ok document =>
      cases hcompile : compileText (r.effective configured) document with
      | error e => exact Or.inr ⟨_, .compiling hload hread hcompile⟩
      | ok f => exact Or.inl ⟨_, document, f, hload, World.text_eq_ok_iff.1 hread, hcompile⟩
  · exact Or.inr ⟨failure, .config hfails⟩

section

variable {args : List String} (hparse : Request.parse args w.config = .ok r)
  (hr : r.SettledBy items w)
include hparse hr

/-- When no stage fails, a run prints the filter, or the document that it is written as. -/
theorem run_of_compilesTo {o : Options} {document : String} {f : Filter}
    (h : CompilesTo w items o document f) : ∃ j, f.toJson = .ok j ∧
      run w.surroundings args =
        ⟨0, (if .switch .json ∈ items then j.pretty else f.render) ++ "\n", none⟩ := by
  obtain ⟨j, hj, -⟩ := Query.exists_document_of_compileText h.compiles
  refine ⟨j, hj, ?_⟩
  have hdocument : (r.readDocument w.surroundings).run = .ok document := by
    rw [hr.readDocument, World.text_eq_ok_iff.2 h.reads]
    rfl
  rw [run_of_compileText hparse (hr.loadOptions h.configures) hdocument h.compiles hj]
  simp only [hr.json]

/-- When a stage fails, a run prints nothing, and reports the first one that does. -/
theorem run_of_failsWith {failure : Failure} (h : FailsWith w items failure) :
    run w.surroundings args = ⟨1, "", some ("Error: " ++ failure.message)⟩ := by
  have hrun : (r.run w.surroundings).run = .error failure := by
    rw [run_request_eq]
    cases h with
    | config h =>
      rw [← hr.config] at h
      rw [loadOptions_of_failsToLoad h]
      rfl
    | document hload hread =>
      rw [hr.loadOptions hload, hr.readDocument, hread]
      rfl
    | compiling hload hread hcompile =>
      rw [hr.loadOptions hload, hr.readDocument, hread]
      show r.answer _ _ = _
      rw [Request.answer_of_error hcompile, hr.source]
  rw [run_of_parse hparse, hrun]
  rfl

end

/-- A command line that asks for a run is cut into items. Under the options that the items and the
settings file make, the run succeeds exactly when these options are found, the document is read, and
it is compiled; then it prints the filter, or the document that the filter is written as. Otherwise
it prints nothing, and reports the first of these stages that fails. -/
theorem run_of_spells (w : World) (args : List String)
    (hparse : ∃ r, Request.parse args w.config = .ok r) :
    (∃ items, Spells args items) ∧ ∀ items, Spells args items →
      ((run w.surroundings args).exitCode = 0 ↔
        ∃ o document f, CompilesTo w items o document f) ∧
      (∀ o document f, CompilesTo w items o document f → ∃ j, f.toJson = .ok j ∧
        run w.surroundings args =
          ⟨0, (if .switch .json ∈ items then j.pretty else f.render) ++ "\n", none⟩) ∧
      ((∃ o document f, CompilesTo w items o document f) ∨
        ∃ failure, FailsWith w items failure) ∧
      ∀ failure, FailsWith w items failure →
        run w.surroundings args = ⟨1, "", some ("Error: " ++ failure.message)⟩ := by
  obtain ⟨r, hparse⟩ := hparse
  constructor
  · obtain ⟨r₀, hread, -⟩ := Except.bind_eq_ok_iff.1 hparse
    exact Request.exists_spells_of_readAll hread
  · intro items hitems
    have hr := Request.settledBy_of_parse hitems hparse
    refine ⟨⟨fun hexit => ?_, ?_⟩, fun o document f h => run_of_compilesTo hparse hr h,
      hr.compilesTo_or_failsWith, fun failure h => run_of_failsWith hparse hr h⟩
    · refine hr.compilesTo_or_failsWith.resolve_right ?_
      rintro ⟨failure, hfails⟩
      rw [run_of_failsWith hparse hr hfails] at hexit
      cases hexit
    · rintro ⟨o, document, f, h⟩
      obtain ⟨j, -, hrun⟩ := run_of_compilesTo hparse hr h
      rw [hrun]

/-- Five payloads inside each other. -/
def nestedDocument : String :=
  "\x7b\"and\": \x7b\"and\": \x7b\"and\": \x7b\"and\": \x7b\"and\": \x7b\"cn\": \"a*\"" ++
    "\x7d\x7d\x7d\x7d\x7d\x7d"

/-- Settings that leave room for four payloads. -/
def escapingSettings : String :=
  "[filter]\nescape_values = true\nmax_depth = 4\n"

theorem run_of_spells_of_configured_escaping : ∃ w : World, w.config = some "filter.toml" ∧
    w.text (.file "filter.toml") = .ok escapingSettings ∧ w.text .input = .ok nestedDocument ∧
    run w.surroundings ["--max-depth=5"] = ⟨0, "(&(&(&(&(&(cn=a\\2a))))))\n", none⟩ ∧
    (run w.surroundings []).exitCode = 1 := by
  let w : World := ⟨some "filter.toml",
    fun path => if path = "filter.toml" then .ok escapingSettings.toUTF8 else .error .missing,
    .ok nestedDocument.toUTF8⟩
  have hsettings : w.text (.file "filter.toml") = .ok escapingSettings := by
    decide +kernel
  have hdocument : w.text .input = .ok nestedDocument := by
    decide +kernel
  have hvalid : Options.ofSettings? [("escape_values", .switch true), ("max_depth", .count 4)] =
      some { escapeValues := true, maxDepth := 4 } := by
    decide
  have hloads : Loads w (some "filter.toml") { escapeValues := true, maxDepth := 4 } :=
    .file hsettings (by decide +kernel) hvalid (Options.areGivenBy_of_ofSettings? hvalid)
  have hoption : SpellsOptions ("--max-depth=5".toList.drop 1) [.parameter .maxDepth "5"] none :=
    .value .maxDepth ['5']
  have hspells : Spells ["--max-depth=5"] [.parameter .maxDepth "5"] :=
    .options (by decide) (by decide) hoption .nil
  have hcount : Request.IsCount "5" 5 := Request.count_eq_ok_iff.1 (by decide +kernel)
  have hmerges : Item.MergesTo [.parameter .maxDepth "5"] { escapeValues := true, maxDepth := 4 }
      { escapeValues := true, maxDepth := 5 } :=
    ⟨⟨some 5, .given hcount, rfl⟩, ⟨none, .absent, rfl⟩, rfl, by decide, by decide⟩
  have hcompiles : CompilesTo w [.parameter .maxDepth "5"]
      { escapeValues := true, maxDepth := 5 } nestedDocument
      (.andOf [.andOf [.andOf [.andOf [.andOf [.test (.equal "cn" "a\\2a")]]]]]) :=
    ⟨⟨_, hloads, hmerges⟩, World.text_eq_ok_iff.1 hdocument, by decide +kernel⟩
  have hkept : Item.MergesTo [] { escapeValues := true, maxDepth := 4 }
      { escapeValues := true, maxDepth := 4 } :=
    ⟨⟨none, .absent, rfl⟩, ⟨none, .absent, rfl⟩, rfl, by decide, by decide⟩
  have hfails : FailsWith w [] (.invalidDocument .input (.nestingTooDeep 4 5)) :=
    .compiling ⟨_, hloads, hkept⟩ hdocument (by decide +kernel)
  have hparse : ∃ r, Request.parse ["--max-depth=5"] w.config = .ok r :=
    ⟨{ config := some "filter.toml", maxDepth := some 5 }, by decide +kernel⟩
  have hparse' : ∃ r, Request.parse [] w.config = .ok r :=
    ⟨{ config := some "filter.toml" }, by decide +kernel⟩
  obtain ⟨j, -, hrun⟩ :=
    ((run_of_spells w ["--max-depth=5"] hparse).2 _ hspells).2.1 _ _ _ hcompiles
  have hfailed := ((run_of_spells w [] hparse').2 _ .nil).2.2.2 _ hfails
  exact ⟨w, rfl, hsettings, hdocument, hrun, congrArg Report.exitCode hfailed⟩

end

end LdapFilter.CommandLine
