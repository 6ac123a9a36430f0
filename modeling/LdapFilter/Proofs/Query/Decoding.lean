import LdapFilter.Proofs.Json.Front
import LdapFilter.Proofs.Query.Run

/-!
# Decoding and compiling

There are two ways from a text to a filter. The text is read as a document, up to its end, and then
the document is compiled (`compileText`); or the document at the start of the text is compiled, and
then the text has to be at its end (`decode`). Both ways lead to the same filters, and they differ
in the errors of texts that have an error in the document and go on after it
(`decode_and_compileText`). The errors can be told apart, since no error of a document says that a
text is none (`failsOnly_compile`).
-/

namespace LdapFilter

/-- Whether an error is one of a document, and not of its text. -/
def FilterError.IsOfDocument (e : FilterError) : Prop :=
  e ≠ .invalidJson

open FilterError (IsOfDocument)

/-! ### Errors of documents -/

theorem Options.failsOnly_checkAttribute (o : Options) (attr : String) :
    Except.FailsOnly IsOfDocument (o.checkAttribute attr) := by
  unfold checkAttribute
  split
  · exact .error nofun
  · split
    · exact .error nofun
    · exact .ok ()

namespace Test

theorem failsOnly_nonEmpty (kind : Kind) (attr : String) :
    Except.FailsOnly IsOfDocument (nonEmpty kind attr) := by
  unfold nonEmpty
  split
  · exact .error nofun
  · exact .ok attr

theorem failsOnly_ofValue (attr : String) (value : Option String) :
    Except.FailsOnly IsOfDocument (ofValue attr value) := by
  apply (failsOnly_nonEmpty .equal attr).bind
  intro attr
  split <;> exact .ok _

theorem failsOnly_ofMask (rule : BitRule) (attr : String) (mask : Int64) :
    Except.FailsOnly IsOfDocument (ofMask rule attr mask) :=
  (failsOnly_nonEmpty rule.kind attr).bind fun _ => .ok _

theorem failsOnly_ofEntry (attr entry : String) :
    Except.FailsOnly IsOfDocument (ofEntry attr entry) :=
  (failsOnly_nonEmpty .inChain attr).bind fun _ => .ok _

end Test

namespace Filter

theorem failsOnly_asTest (parent : Kind) (child : Filter) :
    Except.FailsOnly IsOfDocument (child.asTest parent) := by
  unfold asTest
  split
  · exact .ok _
  · exact .error nofun

theorem failsOnly_norOf (children : List Filter) :
    Except.FailsOnly IsOfDocument (norOf children) := by
  apply Except.FailsOnly.map
  exact .mapM fun child _ => failsOnly_asTest .nor child

end Filter

namespace Query

theorem failsOnly_onlyPair (k : Keyword) (payload : Json) :
    Except.FailsOnly IsOfDocument (onlyPair k payload) := by
  unfold onlyPair
  split
  · exact .ok _
  · exact .error nofun

theorem failsOnly_literal (o : Options) (attr : String) (value : Json) :
    Except.FailsOnly IsOfDocument (literal o attr value) := by
  apply (o.failsOnly_checkAttribute attr).bind
  intro _
  split
  · exact Test.failsOnly_ofValue attr _
  · exact .error nofun

theorem failsOnly_bitwise (o : Options) (rule : BitRule) (payload : Json) :
    Except.FailsOnly IsOfDocument (bitwise o rule payload) := by
  apply (failsOnly_onlyPair (bitKeyword rule) payload).bind
  rintro ⟨attr, operand⟩
  apply (o.failsOnly_checkAttribute attr).bind
  intro _
  split
  · exact Test.failsOnly_ofMask rule attr _
  · exact .error nofun

theorem failsOnly_chain (o : Options) (payload : Json) :
    Except.FailsOnly IsOfDocument (chain o payload) := by
  apply (failsOnly_onlyPair .recurse payload).bind
  rintro ⟨attr, operand⟩
  apply (o.failsOnly_checkAttribute attr).bind
  intro _
  split
  · exact Test.failsOnly_ofEntry attr _
  · exact .error nofun

theorem failsOnly_testOf (o : Options) (key : String) (value : Json) :
    Except.FailsOnly IsOfDocument (testOf o key value) := by
  unfold testOf
  split
  · exact failsOnly_bitwise o .all value
  · exact failsOnly_bitwise o .any value
  · exact failsOnly_chain o value
  · exact failsOnly_literal o key value

theorem Group.failsOnly_gather (group : Group) (children : List Filter) :
    Except.FailsOnly IsOfDocument (group.gather children) := by
  cases group with
  | and | or => exact .ok _
  | nor => exact Filter.failsOnly_norOf children

theorem failsOnly_listGroup (group : Group) (items : List Json) (children : List Filter) :
    Except.FailsOnly IsOfDocument (listGroup group items children) := by
  unfold listGroup
  split
  · exact group.failsOnly_gather children
  · exact .error nofun

theorem failsOnly_negation (children : List Filter) :
    Except.FailsOnly IsOfDocument (negation children) := by
  unfold negation
  split
  · split
    · exact .ok _
    · exact .error nofun
  · exact .error nofun

theorem failsOnly_acceptBelow (key : String) (value : Json) (child : Filter) :
    Except.FailsOnly IsOfDocument (acceptBelow key value child) := by
  rcases acceptBelow_eq_or key value with h | h <;> rw [h]
  · exact (Filter.failsOnly_asTest .nor child).map fun _ => ()
  · exact .ok ()

/-- What a pair comes to is an error of the document when it is one. -/
theorem failsOnly_assemble (o : Options) (key : String) (value : Json) (children : List Filter) :
    Except.FailsOnly IsOfDocument (assemble (testOf o) key value children) := by
  have htest : Except.FailsOnly IsOfDocument (Filter.test <$> testOf o key value) :=
    (failsOnly_testOf o key value).map Filter.test
  unfold assemble
  split
  · split
    · exact Group.and.failsOnly_gather children
    · exact .error nofun
  · split
    · exact failsOnly_listGroup .or _ children
    · exact .error nofun
  · split
    · exact failsOnly_listGroup .nor _ children
    · exact .error nofun
  · split
    · exact Group.nor.failsOnly_gather children
    · exact failsOnly_negation children
    · exact .error nofun
  all_goals exact htest

section

variable {α β : Type} {P : FilterError → Prop}

theorem Run.failsOnly_bind {r : Run α} {f : α → Run β} (hr : Except.FailsOnly P r.result)
    (hf : ∀ a, Except.FailsOnly P (f a).result) : Except.FailsOnly P (r >>= f).result := by
  obtain ⟨steps, e | a⟩ := r
  · exact .error (hr e rfl)
  · exact hf a

theorem Run.failsOnly_mapM {f : α → Run β} {xs : List α}
    (h : ∀ x ∈ xs, Except.FailsOnly P (f x).result) : Except.FailsOnly P (xs.mapM f).result := by
  induction xs with
  | nil => exact .ok _
  | cons x xs ih =>
    rw [List.forall_mem_cons] at h
    rw [List.mapM_cons]
    exact failsOnly_bind h.1 fun _ => failsOnly_bind (ih h.2) fun _ => .ok _

end

theorem failsOnly_runPair (o : Options) (depth : Nat) (key : String) (value : Json) :
    Except.FailsOnly IsOfDocument (runPair (testOf o) depth key value).result := by
  induction key, value using payload_induction generalizing depth with
  | h key value ih =>
  rw [runPair_eq]
  refine Run.failsOnly_bind (.ok ()) fun _ => Run.failsOnly_bind ?_ fun children => ?_
  · refine Run.failsOnly_mapM fun p hp => ?_
    apply Run.failsOnly_bind (ih p (mem_payload_of_mem_reached hp) (depth + 1))
    intro child
    exact Run.failsOnly_bind (failsOnly_acceptBelow key value child) fun _ => .ok _
  · exact failsOnly_assemble o key value children

theorem failsOnly_run (o : Options) (d : Json) :
    Except.FailsOnly IsOfDocument (run o d).result := by
  unfold run
  split
  · exact .error nofun
  · next key value _ =>
    rw [map_eq_pure_bind]
    exact Run.failsOnly_bind (failsOnly_runPair o 0 key value) fun _ => .ok _
  · exact .error nofun

theorem failsOnly_pass (o : Options) (count : Nat) (steps : List Step) :
    Except.FailsOnly IsOfDocument (pass o count steps) := by
  induction steps generalizing count with
  | nil => exact .ok count
  | cons step steps ih =>
    cases step with
    | visit =>
      refine Except.FailsOnly.bind ?_ ih
      unfold countPair
      split
      · exact .error nofun
      · exact .ok _
    | enter level =>
      refine Except.FailsOnly.bind ?_ fun _ => ih count
      unfold enter
      split
      · exact .error nofun
      · exact .ok ()

/-- Compiling a document never ends in the error of a text that is none. -/
theorem failsOnly_compile (o : Options) (d : Json) :
    Except.FailsOnly IsOfDocument (compile o d) := by
  rw [compile_eq_under]
  apply Except.FailsOnly.map
  apply (failsOnly_pass o 0 (run o d).steps).bind
  intro count
  exact (failsOnly_run o d).bind fun _ => .ok _

/-! ### Texts -/

section

variable {text : String} {d : Json} {rest : List Char}

/-- An error in the document at the start of a text comes first. -/
theorem decode_of_read? (h : Json.read? text.toList = some (d, rest)) :
    decode text = (do
      let f ← compile {} d
      if Json.isEnd rest then return f else throw .invalidJson) := by
  rw [decode, h]

/-- What follows the document at the start of a text comes first. -/
theorem compileText_of_read? (o : Options) (h : Json.read? text.toList = some (d, rest)) :
    compileText o text = if Json.isEnd rest then compile o d else .error .invalidJson := by
  rw [compileText, Json.parse?, h, Option.filter_some]
  cases Json.isEnd rest <;> rfl

theorem decode_of_read?_eq_none (h : Json.read? text.toList = none) :
    decode text = .error .invalidJson := by
  rw [decode, h]

theorem compileText_of_read?_eq_none (o : Options) (h : Json.read? text.toList = none) :
    compileText o text = .error .invalidJson := by
  rw [compileText, Json.parse?, h]
  rfl

theorem decode_eq_ok_iff (text : String) (f : Filter) :
    decode text = .ok f ↔ compileText {} text = .ok f := by
  cases h : Json.read? text.toList with
  | none => rw [decode_of_read?_eq_none h, compileText_of_read?_eq_none {} h]
  | some r =>
    rw [decode_of_read? h, compileText_of_read? {} h]
    cases compile {} r.1 with
    | error e => cases Json.isEnd r.2 <;> simp [bind, Except.bind]
    | ok g => cases Json.isEnd r.2 <;> rfl

/-- A document that stands at the start of a text is the document of a text of its own. Whatever
follows this text, unless the document is a number that is run on, decoding comes to the same error
in the document. -/
theorem exists_front_of_read? {e : FilterError} (h : Json.read? text.toList = some (d, rest))
    (he : compile {} d = .error e) :
    ∃ front, text.toList = front ++ rest ∧ Json.parse? (String.ofList front) = some d ∧
      ∀ other, ((∃ n, d = .number n) → Json.Token.MayReplace rest other) →
        decode (String.ofList (front ++ other)) = .error e := by
  obtain ⟨front, hfront, hread⟩ := Json.takesFront_read? h
  refine ⟨front, hfront, ?_, fun other hother => ?_⟩
  · have halone := hread [] fun _ => Or.inr Json.Token.isApart_nil
    rw [List.append_nil] at halone
    rw [Json.parse?, String.toList_ofList, halone]
    rfl
  · have hread := hread other hother
    rw [← String.toList_ofList (l := front ++ other)] at hread
    rw [decode_of_read? hread, he]
    rfl

end

/-- The two ways from a text to a filter have the same filters. They come to the same errors as
well, unless there is an error in the document at the start of the text: decoding comes to this
error whatever follows the document, and compiling the text only when nothing but space follows. -/
theorem decode_and_compileText (text : String) :
    (∀ f, decode text = .ok f ↔ compileText {} text = .ok f) ∧
    (∀ d rest e, Json.read? text.toList = some (d, rest) → compile {} d = .error e →
      decode text = .error e ∧
      (∃ front, text.toList = front ++ rest ∧ Json.parse? (String.ofList front) = some d ∧
        ∀ other, ((∃ n, d = .number n) → Json.Token.MayReplace rest other) →
          decode (String.ofList (front ++ other)) = .error e) ∧
      (compileText {} text = .error e ↔ Json.isEnd rest = true) ∧
      (Json.isEnd rest = false → compileText {} text = .error .invalidJson)) ∧
    ((∀ f, decode text ≠ .ok f) →
      (∀ d rest e, Json.read? text.toList = some (d, rest) → compile {} d ≠ .error e) →
      decode text = .error .invalidJson ∧ compileText {} text = .error .invalidJson) := by
  refine ⟨decode_eq_ok_iff text, fun d rest e h he => ?_, fun hfails hdocument => ?_⟩
  · refine ⟨by rw [decode_of_read? h, he]; rfl, exists_front_of_read? h he, ?_, fun hend => ?_⟩
    · rw [compileText_of_read? {} h, he]
      cases hend : Json.isEnd rest with
      | true => simp
      | false =>
        have hne : FilterError.invalidJson ≠ e := (failsOnly_compile {} d e he).symm
        simp [hne]
    · rw [compileText_of_read? {} h, hend]
      rfl
  · cases h : Json.read? text.toList with
    | none => exact ⟨decode_of_read?_eq_none h, compileText_of_read?_eq_none {} h⟩
    | some r =>
      obtain ⟨d, rest⟩ := r
      cases hd : compile {} d with
      | error e => exact absurd hd (hdocument d rest e h)
      | ok f =>
        have hend : Json.isEnd rest = false := by
          refine Bool.eq_false_iff.2 fun hend => hfails f ?_
          rw [decode_of_read? h, hd, hend]
          rfl
        rw [decode_of_read? h, compileText_of_read? {} h, hd, hend]
        exact ⟨rfl, rfl⟩

theorem decode_and_compileText_of_trailing_text :
    (decode "\x7b\"and\":1\x7d x" = .error (.structural (.payload .and) .testsObject) ∧
      compileText {} "\x7b\"and\":1\x7d x" = .error .invalidJson) ∧
    decode "\x7b\"cn\":null\x7d x" = .error .invalidJson ∧
    compileText {} "\x7b\"cn\":null\x7d x" = .error .invalidJson := by
  have hapart : Json.Token.IsApart [' ', 'x'] := Json.Token.isApart_cons.2 (by decide)
  have hnumber : (Json.single "and" (.number (.integer 1))).IsReadable :=
    have hinteger : (Json.Number.integer 1).IsInteger := ⟨by decide, by decide⟩
    ⟨.single "and" (.number _), .object (List.forall_mem_singleton.2 (.number hinteger)),
      by decide⟩
  have hnull : (Json.single "cn" .null).IsReadable :=
    ⟨.single "cn" .null, .object (List.forall_mem_singleton.2 .null), by decide⟩
  have hmalformed : Json.read? "\x7b\"and\":1\x7d x".toList =
      some (Json.single "and" (.number (.integer 1)), [' ', 'x']) :=
    hnumber.read? (.flatMap_spell _) hapart
  have hwellFormed : Json.read? "\x7b\"cn\":null\x7d x".toList =
      some (Json.single "cn" .null, [' ', 'x']) :=
    hnull.read? (.flatMap_spell _) hapart
  constructor
  · obtain ⟨hdecode, -, -, hcompile⟩ := (decode_and_compileText _).2.1 _ _ _ hmalformed rfl
    exact ⟨hdecode, hcompile rfl⟩
  · refine (decode_and_compileText _).2.2 ?_ ?_
    · intro f hf
      rw [decode_of_read? hwellFormed] at hf
      cases hf
    · intro d rest e h
      cases hwellFormed.symm.trans h
      nofun

end Query

end LdapFilter
