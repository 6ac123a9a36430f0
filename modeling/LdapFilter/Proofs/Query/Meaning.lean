import LdapFilter.Proofs.Reading.Truth

/-!
# The meaning of documents

A document says of the tests in it which ones have to be true, and this without any filter: its
meaning is a truth value for every choice of truth values for the atomic tests. Compiled with
checked attributes and escaped values, it is rendered to a text that is read with the same truth
value (`truth?_read?_of_compile`).
-/

namespace LdapFilter.Query

open Reading Text

variable {o : Options} {ρ : Atom → Bool} {key : String} {value : Json}

/-! ### Meaning -/

def literalHolds (ρ : Atom → Bool) (attr : String) (value : Json) : Bool :=
  decide (∃ text, ComparesAs {} value text ∧
    (if text = "" then !ρ (.present attr) else ρ (.equals attr (octets text.toList))) = true)

/-- Whether an attribute has bits of the mask in a payload set. -/
def bitsHold (ρ : Atom → Bool) (rule : BitRule) : Json → Bool
  | .object [(attr, operand)] =>
    decide (∃ mask, Integer64.Gives operand mask ∧ ρ (.bits rule attr mask) = true)
  | _ => false

def chainHolds (ρ : Atom → Bool) : Json → Bool
  | .object [(attr, .string entry)] => ρ (.inChain attr (octets entry.toList))
  | _ => false

/-- Whether the test of a pair holds. A pair that is no test never does. -/
def testHolds (ρ : Atom → Bool) (key : String) (value : Json) : Bool :=
  match Keyword.ofKey? key with
  | none => literalHolds ρ key value
  | some .band => bitsHold ρ .all value
  | some .bor => bitsHold ρ .any value
  | some .recurse => chainHolds ρ value
  | _ => false

/-- What a pair among several negated ones asks for: a literal attribute must not have its value,
while the tests by matching rules have to hold. -/
def memberHolds (ρ : Atom → Bool) (key : String) (value : Json) : Bool :=
  if Keyword.ofKey? key = none then !testHolds ρ key value else testHolds ρ key value

def holds (ρ : Atom → Bool) (key : String) (value : Json) : Bool :=
  match Keyword.ofKey? key with
  | some .and => (payload key value).attach.all fun p => holds ρ p.1.1 p.1.2
  | some .or => (payload key value).attach.any fun p => holds ρ p.1.1 p.1.2
  | some .nor => (payload key value).all fun p => memberHolds ρ p.1 p.2
  | some .not =>
    match payload key value with
    | [p] => !testHolds ρ p.1 p.2
    | ps => ps.all fun p => memberHolds ρ p.1 p.2
  | _ => testHolds ρ key value
termination_by sizeOf value
decreasing_by all_goals exact sizeOf_lt_of_mem_payload p.2

theorem holds_and (h : Keyword.ofKey? key = some .and) :
    holds ρ key value = (payload key value).all fun p => holds ρ p.1 p.2 := by
  rw [holds, h]
  exact (List.all_subtype fun _ _ => rfl).trans (by rw [List.unattach_attach])

theorem holds_nor (h : Keyword.ofKey? key = some .nor) :
    holds ρ key value = (payload key value).all fun p => memberHolds ρ p.1 p.2 := by
  rw [holds, h]

theorem holds_not {p : String × Json} (h : Keyword.ofKey? key = some .not)
    (hpayload : payload key value = [p]) : holds ρ key value = !testHolds ρ p.1 p.2 := by
  rw [holds, h, hpayload]

theorem holds_notAny (h : Keyword.ofKey? key = some .not)
    (hlength : 2 ≤ (payload key value).length) :
    holds ρ key value = (payload key value).all fun p => memberHolds ρ p.1 p.2 := by
  rw [holds, h]
  match hpayload : payload key value with
  | [] | [_] => simp [hpayload] at hlength
  | _ :: _ :: _ => rfl

theorem holds_or (h : Keyword.ofKey? key = some .or) :
    holds ρ key value = (payload key value).any fun p => holds ρ p.1 p.2 := by
  rw [holds, h]
  exact (List.any_subtype fun _ _ => rfl).trans (by rw [List.unattach_attach])

/-! ### Tests -/

theorem literalHolds_eq {attr text : String} (h : ComparesAs {} value text) :
    literalHolds ρ attr value =
      if text = "" then !ρ (.present attr) else ρ (.equals attr (octets text.toList)) := by
  rw [Bool.eq_iff_iff, literalHolds, decide_eq_true_iff]
  constructor
  · rintro ⟨text', h', htrue⟩
    rwa [h.unique h']
  · exact fun htrue => ⟨text, h, htrue⟩

theorem bitsHold_eq {rule : BitRule} {attr : String} {operand : Json} {mask : Int}
    (h : Integer64.Gives operand mask) :
    bitsHold ρ rule (.object [(attr, operand)]) = ρ (.bits rule attr mask) := by
  rw [Bool.eq_iff_iff, bitsHold, decide_eq_true_iff]
  constructor
  · rintro ⟨mask', h', htrue⟩
    rwa [h.unique h']
  · exact fun htrue => ⟨mask, h, htrue⟩

theorem escape_eq_empty_iff {text : String} : AssertionValue.escape text = "" ↔ text = "" := by
  constructor
  · intro h
    rw [← AssertionValue.unescape_escape text, h]
    rfl
  · rintro rfl
    rfl

/-- A test is read with the truth value of the pair that stands for it. -/
theorem truth?_of_denotesTest (hescape : o.escapeValues = true) {t : Test}
    (h : DenotesTest o key value t) : truth? ρ t.reading = some (testHolds ρ key value) := by
  cases h with
  | absent hkey _ htext =>
    obtain ⟨original, horiginal, hempty⟩ := htext.exists_escape hescape
    rw [escape_eq_empty_iff.1 hempty.symm] at horiginal
    simp [Test.reading, truth?, testHolds, hkey, literalHolds_eq horiginal]
  | equal hkey _ htext hne =>
    obtain ⟨original, horiginal, rfl⟩ := htext.exists_escape hescape
    have horiginal_ne : original ≠ "" := fun e => hne (escape_eq_empty_iff.2 e)
    simp [Test.reading, truth?, testHolds, hkey, literalHolds_eq horiginal, horiginal_ne,
      AssertionValue.unescape_escape]
  | bits rule hkey _ hmask =>
    rw [truth?_bits]
    cases rule with
    | all => simp [testHolds, hkey, bitKeyword, bitsHold_eq hmask]
    | any => simp [testHolds, hkey, bitKeyword, bitsHold_eq hmask]
  | chain entry hkey _ =>
    rw [truth?_inChain, Options.operandText, if_pos hescape, AssertionValue.unescape_escape]
    simp [testHolds, hkey, chainHolds]

theorem holds_of_denotesTest {t : Test} (h : DenotesTest o key value t) :
    holds ρ key value = testHolds ρ key value := by
  have hcomb := h.not_isCombination
  rw [holds]
  unfold isCombination at hcomb
  split at hcomb
  · cases hcomb
  · cases hcomb
  · cases hcomb
  · cases hcomb
  · split <;> simp_all

theorem isLiteral_of_denotesTest {t : Test} (h : DenotesTest o key value t) :
    t.isLiteral = true ↔ Keyword.ofKey? key = none := by
  cases h with
  | absent hkey => simp [Test.isLiteral, hkey]
  | equal hkey => simp [Test.isLiteral, hkey]
  | bits rule hkey => simp [Test.isLiteral, hkey]
  | chain _ hkey => simp [Test.isLiteral, hkey]

/-- A member of a nor group is read with the truth value of what the pair asks for among others. -/
theorem truth?_memberReading (hescape : o.escapeValues = true) {t : Test}
    (h : DenotesTest o key value t) :
    truth? ρ t.memberReading = some (memberHolds ρ key value) := by
  unfold Test.memberReading memberHolds
  by_cases hliteral : t.isLiteral = true
  · rw [if_pos hliteral, if_pos ((isLiteral_of_denotesTest h).1 hliteral), truth?,
      truth?_of_denotesTest hescape h]
    rfl
  · rw [if_neg hliteral, if_neg fun hkey => hliteral ((isLiteral_of_denotesTest h).2 hkey)]
    exact truth?_of_denotesTest hescape h

/-! ### Filters -/

/-- The members of a nor group are read with the truth values of the pairs. -/
theorem truths?_memberReadings (hescape : o.escapeValues = true) {ps : List (String × Json)}
    {tests : List Test} (h : List.Forall₂ (fun p t => DenotesTest o p.1 p.2 t) ps tests) :
    truths? ρ (tests.map Test.memberReading) = some (ps.map fun p => memberHolds ρ p.1 p.2) := by
  rw [truths?_eq_some_iff, List.forall₂_map_left_iff, List.forall₂_map_right_iff]
  exact h.flip.imp fun t p ht => truth?_memberReading hescape ht

/-- Children are read with the truth values of the pairs that stand for them. -/
theorem truths?_readings {ps : List (String × Json)} {children : List Filter}
    (ih : ∀ p ∈ ps, ∀ {f : Filter}, Denotes o p.1 p.2 f →
      truth? ρ f.reading = some (holds ρ p.1 p.2))
    (h : List.Forall₂ (fun p f => Denotes o p.1 p.2 f) ps children) :
    truths? ρ (Filter.readings children) = some (ps.map fun p => holds ρ p.1 p.2) := by
  rw [Filter.readings_eq_map, truths?_eq_some_iff, List.forall₂_map_left_iff,
    List.forall₂_map_right_iff]
  exact (forall₂_of_forall_mem h fun p hp f hf => ih p hp hf).flip

/-- A filter is read with the truth value of the pair that stands for it. -/
theorem truth?_of_denotes (hescape : o.escapeValues = true) {f : Filter}
    (h : Denotes o key value f) : truth? ρ f.reading = some (holds ρ key value) := by
  induction key, value using payload_induction generalizing f with
  | h key value ih =>
  cases h with
  | test ht =>
    rw [Filter.reading, truth?_of_denotesTest hescape ht, holds_of_denotesTest ht]
  | @not _ p t hkey ht =>
    have hpayload : payload key (.object [p]) = [p] := by simp [payload, hkey]
    rw [Filter.reading, truth?, truth?_of_denotesTest hescape ht, holds_not hkey hpayload]
    rfl
  | and hkey h =>
    simp only [payload, hkey] at ih
    rw [holds_and hkey, Filter.andOf, Filter.reading, truth?,
      truths?_readings (fun p hp => ih p hp) h]
    simp [payload, hkey, List.all_map]
  | or hkey hitems h =>
    simp only [payload, hkey] at ih
    rw [holds_or hkey, Filter.orOf, Filter.reading, truth?,
      truths?_readings (fun p hp => ih p hp) h]
    simp [payload, hkey, List.any_map]
  | nor hkey hitems h =>
    rw [holds_nor hkey, Filter.noneOf, Filter.reading, truth?, truths?_memberReadings hescape h]
    simp [payload, hkey, List.all_map]
  | @notAny _ members _ hkey hlength h =>
    have hpayload : payload key (.object members) = members := by simp [payload, hkey]
    have hmany : 2 ≤ (payload key (.object members)).length := by rw [hpayload]; exact hlength
    rw [holds_notAny hkey hmany, hpayload, Filter.noneOf, Filter.reading, truth?,
      truths?_memberReadings hescape h]
    simp [List.all_map]

/-- A group around a single test is as true as the test. -/
theorem truth?_reading_rooted (f : Filter) :
    truth? ρ (rooted f).reading = truth? ρ f.reading := by
  cases f with
  | test t =>
    by_cases hliteral : t.isLiteral = true
    · rw [rooted, if_pos hliteral]
      simp only [Filter.andOf, Filter.reading, Filter.readings, truth?, truths?]
      cases truth? ρ t.reading with
      | none => rfl
      | some b => simp
    · rw [rooted, if_neg hliteral]
  | _ => rfl

/-! ### Documents -/

/-- With checked attributes and escaped values, the text of a compiled filter is read with the
truth value of the first pair of the document, whatever the atomic tests come out as. -/
theorem truth?_read?_of_compile {d : Json} {f : Filter} (hattr : o.validateAttributes = true)
    (hescape : o.escapeValues = true) (h : compile o d = .ok f) (ρ : Atom → Bool) :
    ∃ key value rest r, d = .object ((key, value) :: rest) ∧ read? f.render = some r ∧
      truth? ρ r = some (holds ρ key value) := by
  have hspells := Filter.spells_render (isInert_of_compile hattr hescape h)
  obtain ⟨key, value, rest, g, rfl, hg, rfl, -, -⟩ := compile_eq_ok_iff.1 h
  refine ⟨key, value, rest, _, rfl, read?_eq_some_iff.2 hspells, ?_⟩
  rw [truth?_reading_rooted]
  exact truth?_of_denotes hescape hg

theorem truth?_read?_of_strict_negation :
    ∃ key value rest r,
      Json.single "not" (.object [("cn", .string "a*"),
        ("BAND", Json.single "flags" (.string "2"))]) = .object ((key, value) :: rest) ∧
      read? (Filter.noneOf [.equal "cn" "a\\2a", .bitwise .all "flags" 2]).render = some r ∧
      truth? (fun atom => decide (atom = .bits .all "flags" 2)) r =
        some (holds (fun atom => decide (atom = .bits .all "flags" 2)) key value) :=
  truth?_read?_of_compile (o := .strict) rfl rfl (by rfl) _

end LdapFilter.Query
