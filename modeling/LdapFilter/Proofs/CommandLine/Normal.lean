import LdapFilter.CommandLine.Run
import LdapFilter.Proofs.CommandLine.Arguments
import LdapFilter.Proofs.WriteBack.Nesting

/-!
# Normal documents

With the switch for documents a run prints the normal form of a document: the one that its filter
is written as. Asking for it changes nothing but the output (`status_run_insert_json`), and the text
that is printed is a document with the same filter and the same normal form
(`run_insert_json_and_again`).
-/

namespace LdapFilter.CommandLine

open Query (compile compileText)

/-! ### Answers -/

namespace Request

variable {r : Request} {o : Options} {document : String}

theorem answer_of_error {e : FilterError} (h : compileText o document = .error e) :
    r.answer o document = .error (.invalidDocument r.source e) := by
  rw [answer, h]
  rfl

theorem answer_of_ok {f : Filter} {j : Json} (h : compileText o document = .ok f)
    (hj : f.toJson = .ok j) :
    r.answer o document = .ok (if r.json then j.pretty else f.render) := by
  have hsplit : r.answer o document =
      if r.json then Json.pretty <$> f.toJson.mapError .unwritable else .ok f.render := by
    rw [answer, h]
    cases r.json <;> rfl
  rw [hsplit, hj]
  cases r.json <;> rfl

/-- Whatever is asked for, a document that is compiled can be written back. -/
theorem answer_ne_unwritable (r : Request) (o : Options) (document : String) (e : FilterError) :
    r.answer o document ≠ .error (.unwritable e) := by
  cases h : compileText o document with
  | error e' =>
    rw [answer_of_error h]
    nofun
  | ok f =>
    obtain ⟨j, hj, -⟩ := Query.exists_document_of_compileText h
    rw [answer_of_ok h hj]
    nofun

end Request

/-! ### Reports -/

/-- What a report says apart from its output: the exit code, and the report of a failure. -/
def Report.status (report : Report) : UInt32 × Option String :=
  (report.exitCode, report.error)

def reportOn : Except Failure String → Report
  | .ok text => ⟨0, text ++ "\n", none⟩
  | .error failure => ⟨1, "", some ("Error: " ++ failure.message)⟩

section

variable {m : Type → Type} [Monad m] {s : Surroundings m}

/-- A run in its stages. -/
theorem run_request_eq (r : Request) : (r.run s).run = (do
    match ← (r.loadOptions s).run with
    | .error failure => return .error failure
    | .ok o =>
      match ← (r.readDocument s).run with
      | .error failure => return .error failure
      | .ok document => return r.answer o document) := by
  rw [Request.run, ExceptT.run_bind]
  refine bind_congr fun loaded => ?_
  cases loaded with
  | error failure => rfl
  | ok o =>
    simp only [ExceptT.run_bind]
    refine bind_congr fun document => ?_
    cases document <;> rfl

variable [LawfulMonad m]

theorem run_of_parse {args : List String} {r : Request}
    (h : Request.parse args s.config = .ok r) : run s args = reportOn <$> (r.run s).run := by
  rw [run, h, map_eq_pure_bind]
  refine bind_congr fun result => ?_
  cases result <;> rfl

/-- What is asked for does not matter for the exit code and the report of a failure. -/
theorem status_reportOn_answer (r : Request) (o : Options) (document : String) (json : Bool) :
    (reportOn ({ r with json := json }.answer o document)).status =
      (reportOn (r.answer o document)).status := by
  cases h : compileText o document with
  | error e =>
    rw [Request.answer_of_error h, Request.answer_of_error h]
    rfl
  | ok f =>
    obtain ⟨j, hj, -⟩ := Query.exists_document_of_compileText h
    rw [Request.answer_of_ok h hj, Request.answer_of_ok h hj]
    rfl

theorem status_run_request (r : Request) (json : Bool) :
    (fun result => (reportOn result).status) <$> ({ r with json := json }.run s).run =
      (fun result => (reportOn result).status) <$> (r.run s).run := by
  have hoptions : { r with json := json }.loadOptions s = r.loadOptions s := rfl
  have hdocument : { r with json := json }.readDocument s = r.readDocument s := rfl
  rw [run_request_eq, run_request_eq, hoptions, hdocument, map_bind, map_bind]
  refine bind_congr fun loaded => ?_
  cases loaded with
  | error failure => rfl
  | ok o =>
    simp only [map_bind]
    refine bind_congr fun text => ?_
    cases text with
    | error failure => rfl
    | ok document => simp only [map_pure, status_reportOn_answer]

/-- A command line that asks for a filter, in two parts between which an option may stand. -/
structure AsksForFilter (config : Option String) (pre post : List String) (r : Request) : Prop where
  terminator : "--" ∉ pre
  reads : ∃ r₀, Request.readAll {} none pre = .ok r₀
  parse : Request.parse (pre ++ post) config = .ok r
  json : r.json = false

theorem AsksForFilter.parse_insert_json {config : Option String} {pre post : List String}
    {r : Request} (h : AsksForFilter config pre post r) :
    Request.parse (pre ++ "--json" :: post) config = .ok { r with json := true } := by
  obtain ⟨r₀, hr₀⟩ := h.reads
  exact Request.parse_insert_json h.terminator hr₀ h.parse h.json

/-- Asking for the document changes neither the exit code nor the report of a failure. -/
theorem status_run_insert_json {pre post : List String} {r : Request}
    (h : AsksForFilter s.config pre post r) :
    Report.status <$> run s (pre ++ "--json" :: post) = Report.status <$> run s (pre ++ post) := by
  rw [run_of_parse h.parse_insert_json, run_of_parse h.parse, Functor.map_map, Functor.map_map]
  exact status_run_request r true

end

/-! ### Running again -/

section

variable {s : Surroundings Id} {r : Request} {o : Options}

theorem run_of_readDocument {args : List String} {document : String}
    (hparse : Request.parse args s.config = .ok r) (ho : (r.loadOptions s).run = .ok o)
    (hdocument : (r.readDocument s).run = .ok document) :
    run s args = reportOn (r.answer o document) := by
  have hrun : (r.run s).run = r.answer o document := by
    rw [run_request_eq, ho, hdocument]
    rfl
  rw [run_of_parse hparse, hrun]
  rfl

theorem run_of_compileText {args : List String} {document : String} {f : Filter} {j : Json}
    (hparse : Request.parse args s.config = .ok r) (ho : (r.loadOptions s).run = .ok o)
    (hdocument : (r.readDocument s).run = .ok document) (hf : compileText o document = .ok f)
    (hj : f.toJson = .ok j) :
    run s args = ⟨0, (if r.json then j.pretty else f.render) ++ "\n", none⟩ := by
  rw [run_of_readDocument hparse ho hdocument, Request.answer_of_ok hf hj]
  rfl

/-- A run that succeeds has found a document and compiled it. -/
theorem exists_compileText_of_exitCode {args : List String}
    (hparse : Request.parse args s.config = .ok r) (ho : (r.loadOptions s).run = .ok o)
    (hexit : (run s args).exitCode = 0) :
    ∃ document f, (r.readDocument s).run = .ok document ∧ compileText o document = .ok f := by
  cases hdocument : (r.readDocument s).run with
  | error failure =>
    have hrun : (r.run s).run = .error failure := by
      rw [run_request_eq, ho, hdocument]
      rfl
    rw [run_of_parse hparse, hrun] at hexit
    cases hexit
  | ok document =>
    rw [run_of_readDocument hparse ho hdocument] at hexit
    cases hf : compileText o document with
    | error e =>
      rw [Request.answer_of_error hf] at hexit
      cases hexit
    | ok f => exact ⟨document, f, rfl, hf⟩

theorem readDocument_of_input {document : String} (hinput : r.source = .input)
    (hs : s.inputText = pure (.ok document)) : (r.readDocument s).run = .ok document := by
  rw [Request.readDocument, hinput, hs]
  rfl

/-- The text that is printed with the switch for documents is a document with the same filter and
the same normal form, as long as values are not escaped and the limits leave it room. -/
theorem run_again {pre post args : List String} {file : Option String} {json : Bool}
    (h : AsksForFilter s.config pre post r) (ho : (r.loadOptions s).run = .ok o)
    (hescape : o.escapeValues = false) (hdepth : 1 ≤ o.maxDepth) (hroom : o.maxDepth ≤ 62)
    (hnodes : 2 ≤ o.maxNodes) (hexit : (run s (pre ++ post)).exitCode = 0)
    (hparse : Request.parse args s.config = .ok { r with file := file, json := json })
    (hinput : ({ r with file := file } : Request).source = .input) :
    run { s with inputText := pure (.ok (run s (pre ++ "--json" :: post)).output) } args =
      if json then run s (pre ++ "--json" :: post) else run s (pre ++ post) := by
  obtain ⟨document, f, hdocument, hf⟩ := exists_compileText_of_exitCode h.parse ho hexit
  obtain ⟨j, hj, hdistinct, hfits, hcompile⟩ := Query.exists_document_of_compileText hf
  have hfilter := run_of_compileText h.parse ho hdocument hf hj
  have hwritten := run_of_compileText h.parse_insert_json ho hdocument hf hj
  have hreadable := Query.isReadable_of_fits hdistinct hfits hroom
  have hverbatim : o.verbatim = o := by rw [Options.verbatim, ← hescape]
  have hagain : compileText o (j.pretty ++ "\n") = .ok f := by
    rw [compileText, hreadable.parse?_pretty]
    exact hverbatim ▸ hcompile hdepth hnodes
  have hread := readDocument_of_input (s := { s with inputText := pure (.ok (j.pretty ++ "\n")) })
    (r := { r with file := file, json := json }) hinput rfl
  have hrun := run_of_compileText (s := { s with inputText := pure (.ok (j.pretty ++ "\n")) })
    hparse ho hread hagain hj
  rw [h.json] at hfilter
  rw [hwritten, hfilter]
  refine hrun.trans ?_
  cases json <;> rfl

end

/-! ### The switch for documents -/

/-- The switch for documents normalizes. Added to a command line that asks for a filter, it changes
neither the exit code nor the report of a failure, and writing back is never what fails. The text
that it makes a run print, read by a second run under the same options, gives the same text with the
switch, and the filter of the first document without it. -/
theorem run_insert_json_and_again :
    (∀ {m : Type → Type} [Monad m] [LawfulMonad m] (s : Surroundings m) (pre post : List String)
      (r : Request), AsksForFilter s.config pre post r →
      Report.status <$> run s (pre ++ "--json" :: post) =
        Report.status <$> run s (pre ++ post)) ∧
    (∀ (r : Request) (o : Options) (document : String) (e : FilterError),
      r.answer o document ≠ .error (.unwritable e)) ∧
    ∀ (s : Surroundings Id) (pre post args : List String) (r : Request) (o : Options)
      (file : Option String) (json : Bool), AsksForFilter s.config pre post r →
      (r.loadOptions s).run = .ok o → o.escapeValues = false → 1 ≤ o.maxDepth →
      o.maxDepth ≤ 62 → 2 ≤ o.maxNodes → (run s (pre ++ post)).exitCode = 0 →
      Request.parse args s.config = .ok { r with file := file, json := json } →
      ({ r with file := file } : Request).source = .input →
      run { s with inputText := pure (.ok (run s (pre ++ "--json" :: post)).output) } args =
        if json then run s (pre ++ "--json" :: post) else run s (pre ++ post) := by
  refine ⟨?_, Request.answer_ne_unwritable, ?_⟩
  · intro m _ _ s pre post r h
    exact status_run_insert_json h
  · intro s pre post args r o file json h ho hescape hdepth hroom hnodes hexit hparse hinput
    exact run_again h ho hescape hdepth hroom hnodes hexit hparse hinput

theorem run_insert_json_and_again_of_literal : ∃ s : Surroundings Id,
    s.inputText = pure (.ok "\x7b\"cn\": \"a\"\x7d") ∧
    (run s ["--max-depth", "5", "--json", "-"]).status =
      (run s ["--max-depth", "5", "-"]).status ∧
    Id.run (run s ["--max-depth", "5", "-"]) = ⟨0, "(&(cn=a))\n", none⟩ ∧
    run { s with inputText := pure (.ok (run s ["--max-depth", "5", "--json", "-"]).output) }
      ["--max-depth=5"] = run s ["--max-depth", "5", "-"] := by
  have hasks : AsksForFilter none ["--max-depth", "5"] ["-"]
      { file := some "-", maxDepth := some 5 } :=
    ⟨by decide, ⟨{ maxDepth := some 5 }, by decide +kernel⟩, by decide +kernel, rfl⟩
  let s : Surroundings Id :=
    ⟨none, fun _ => pure (.error .missing), pure (.ok "\x7b\"cn\": \"a\"\x7d")⟩
  refine ⟨s, rfl, ?_, ?_, ?_⟩
  · exact run_insert_json_and_again.1 s ["--max-depth", "5"] ["-"] _ hasks
  · decide +kernel
  · exact run_insert_json_and_again.2.2 s ["--max-depth", "5"] ["-"] ["--max-depth=5"] _
      { maxDepth := 5 } none false hasks rfl rfl (by decide) (by decide) (by decide)
      (by decide +kernel) (by decide +kernel) rfl

end LdapFilter.CommandLine
