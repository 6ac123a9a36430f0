import LdapFilter.Proofs.Basic
import LdapFilter.Proofs.Integer64
import LdapFilter.Proofs.Query.Payload

/-!
# What the pairs of a document denote

`DenotesTest` and `Denotes` say which test, and which filter, a pair stands for. They know neither
the limits on documents nor the order in which pairs are looked at. Compiling a pair succeeds
exactly when it denotes a filter and stays within the limits (`pair_eq_ok_iff`).
-/

namespace LdapFilter

open Text

/-! ### Making tests -/

namespace Test

variable {attr : String} {t : Test}

theorem nonEmpty_eq_ok_iff {kind : Kind} {a : String} :
    nonEmpty kind attr = .ok a ↔ attr ≠ "" ∧ a = attr := by
  unfold nonEmpty
  split <;> simp_all [eq_comm]

/-- No value is as good as an empty one. -/
theorem ofValue_eq_ok_iff {value : Option String} :
    ofValue attr value = .ok t ↔ attr ≠ "" ∧
      t = if value.getD "" = "" then .absent attr else .equal attr (value.getD "") := by
  simp only [ofValue, Except.bind_eq_ok_iff, nonEmpty_eq_ok_iff]
  cases value with
  | none => simp [Except.pure_eq_ok, eq_comm]
  | some text =>
    simp only [Option.filter_some]
    by_cases hempty : text = ""
    · subst hempty
      simp [Except.pure_eq_ok, eq_comm]
    · simp [hempty, Except.pure_eq_ok, eq_comm]

theorem ofMask_eq_ok_iff {rule : BitRule} {mask : Int64} :
    ofMask rule attr mask = .ok t ↔ attr ≠ "" ∧ t = .bitwise rule attr mask := by
  simp only [ofMask, Except.bind_eq_ok_iff, nonEmpty_eq_ok_iff]
  simp [Except.pure_eq_ok, eq_comm]

theorem ofEntry_eq_ok_iff {entry : String} :
    ofEntry attr entry = .ok t ↔ attr ≠ "" ∧ t = .inChain attr entry := by
  simp only [ofEntry, Except.bind_eq_ok_iff, nonEmpty_eq_ok_iff]
  simp [Except.pure_eq_ok, eq_comm]

end Test

namespace Query

variable {o : Options} {key : String} {value : Json}

/-! ### Scalars -/

/-- The text that a scalar is compared as; an empty one asks for absence. -/
inductive ComparesAs (o : Options) : Json → String → Prop
  | null : ComparesAs o .null ""
  | string (s : String) : ComparesAs o (.string s) (o.operandText s)
  | bool (b : Bool) : ComparesAs o (.bool b) (if b then "True" else "False")
  | number {n : Json.Number} {m : Int} (h : Integer64.Gives (.number n) m) :
      ComparesAs o (.number n) (Decimal.text m)

/-- What a scalar is compared as is the text that it is tested for. -/
theorem comparesAs_iff {text : String} :
    ComparesAs o value text ↔
      ∃ written, literalText? o value = some written ∧ written.getD "" = text := by
  constructor
  · intro h
    cases h with
    | null => exact ⟨none, rfl, rfl⟩
    | string => exact ⟨some _, rfl, rfl⟩
    | bool b => cases b <;> exact ⟨some _, rfl, rfl⟩
    | number h =>
      obtain ⟨m, rfl, hm⟩ := h.exists_toInt_eq
      have hm : Integer64.ofNumber? _ = some m := hm
      exact ⟨some (Decimal.text m.toInt), by rw [literalText?, hm]; rfl, rfl⟩
  · rintro ⟨written, hwritten, rfl⟩
    cases value with
    | null =>
      cases hwritten
      exact .null
    | string s =>
      cases hwritten
      exact .string s
    | bool b =>
      cases b <;> cases hwritten <;> exact .bool _
    | number n =>
      obtain ⟨m, hm, rfl⟩ := Option.map_eq_some_iff.1 hwritten
      exact .number (Integer64.ofNumber?_eq_some_iff.1 hm)
    | array _ | object _ => cases hwritten

theorem exists_comparesAs_iff {P : String → Prop} :
    (∃ text, ComparesAs o value text ∧ P text) ↔
      ∃ written ∈ literalText? o value, P (written.getD "") := by
  simp only [comparesAs_iff, Option.mem_def]
  constructor
  · rintro ⟨_, ⟨written, hwritten, rfl⟩, hP⟩
    exact ⟨written, hwritten, hP⟩
  · rintro ⟨written, hwritten, hP⟩
    exact ⟨_, ⟨written, hwritten, rfl⟩, hP⟩

instance {P : String → Prop} [DecidablePred P] :
    Decidable (∃ text, ComparesAs o value text ∧ P text) :=
  decidable_of_iff' _ exists_comparesAs_iff

/-- A scalar is compared as no two texts. -/
theorem ComparesAs.unique {text text' : String} (h : ComparesAs o value text)
    (h' : ComparesAs o value text') : text = text' := by
  obtain ⟨written, hwritten, rfl⟩ := comparesAs_iff.1 h
  obtain ⟨written', hwritten', rfl⟩ := comparesAs_iff.1 h'
  rw [Option.some.inj (hwritten.symm.trans hwritten')]

/-! ### Tests -/

structure IsAttribute (o : Options) (attr : String) : Prop where
  ne_empty : attr ≠ ""
  check : o.checkAttribute attr = .ok ()

/-- The test that a pair stands for. -/
inductive DenotesTest (o : Options) : String → Json → Test → Prop
  | absent {key : String} {value : Json} (hkey : Keyword.ofKey? key = none)
      (hattr : IsAttribute o key) (htext : ComparesAs o value "") :
      DenotesTest o key value (.absent key)
  | equal {key text : String} {value : Json} (hkey : Keyword.ofKey? key = none)
      (hattr : IsAttribute o key) (htext : ComparesAs o value text)
      (hne : text ≠ "") : DenotesTest o key value (.equal key text)
  | bits {key attr : String} {operand : Json} {mask : Int64} (rule : BitRule)
      (hkey : Keyword.ofKey? key = some (bitKeyword rule)) (hattr : IsAttribute o attr)
      (hmask : Integer64.Gives operand mask.toInt) :
      DenotesTest o key (.object [(attr, operand)]) (.bitwise rule attr mask)
  | chain {key attr : String} (entry : String) (hkey : Keyword.ofKey? key = some .recurse)
      (hattr : IsAttribute o attr) :
      DenotesTest o key (.object [(attr, .string entry)]) (.inChain attr (o.operandText entry))

theorem onlyPair_eq_ok_iff {k : Keyword} {p : String × Json} :
    onlyPair k value = .ok p ↔ value = .object [p] := by
  unfold onlyPair
  split <;> simp_all

/-- A literal attribute is compiled to the test that it stands for. -/
theorem literal_eq_ok_iff {t : Test} (hkey : Keyword.ofKey? key = none) :
    literal o key value = .ok t ↔ DenotesTest o key value t := by
  simp only [literal, Except.bind_eq_ok_iff]
  constructor
  · rintro ⟨_, hcheck, h⟩
    cases htext : literalText? o value with
    | none => simp [htext] at h
    | some written =>
      simp only [htext] at h
      obtain ⟨hne, rfl⟩ := Test.ofValue_eq_ok_iff.1 h
      have hcompares : ComparesAs o value (written.getD "") := comparesAs_iff.2 ⟨_, htext, rfl⟩
      split
      · next hempty => exact .absent hkey ⟨hne, hcheck⟩ (hempty ▸ hcompares)
      · next hempty => exact .equal hkey ⟨hne, hcheck⟩ hcompares hempty
  · intro h
    cases h with
    | absent _ hattr htext =>
      obtain ⟨written, hwritten, hempty⟩ := comparesAs_iff.1 htext
      refine ⟨(), hattr.check, ?_⟩
      simp only [hwritten]
      exact Test.ofValue_eq_ok_iff.2 ⟨hattr.ne_empty, (if_pos hempty).symm⟩
    | equal _ hattr htext hne =>
      obtain ⟨written, hwritten, rfl⟩ := comparesAs_iff.1 htext
      refine ⟨(), hattr.check, ?_⟩
      simp only [hwritten]
      exact Test.ofValue_eq_ok_iff.2 ⟨hattr.ne_empty, (if_neg hne).symm⟩
    | bits rule hkey' => cases rule <;> simp [hkey, bitKeyword] at hkey'
    | chain _ hkey' => simp [hkey] at hkey'

/-- A payload of a mask is compiled to the test of bits that it stands for. -/
theorem bitwise_eq_ok_iff {rule : BitRule} {t : Test}
    (hkey : Keyword.ofKey? key = some (bitKeyword rule)) :
    bitwise o rule value = .ok t ↔ DenotesTest o key value t := by
  simp only [bitwise, Except.bind_eq_ok_iff, onlyPair_eq_ok_iff]
  constructor
  · rintro ⟨⟨attr, operand⟩, rfl, _, hcheck, h⟩
    cases hmask : Integer64.ofJson? operand with
    | none => simp [hmask] at h
    | some mask =>
      simp only [hmask] at h
      obtain ⟨hne, rfl⟩ := Test.ofMask_eq_ok_iff.1 h
      exact .bits rule hkey ⟨hne, hcheck⟩ (Integer64.ofJson?_eq_some_iff.1 hmask)
  · intro h
    cases h with
    | absent hkey' => simp [hkey] at hkey'
    | equal hkey' => simp [hkey] at hkey'
    | @bits attr operand mask rule' hkey' hattr hmask =>
      have hrule : rule' = rule := by
        cases rule <;> cases rule' <;> simp_all [bitKeyword]
      subst hrule
      refine ⟨(attr, operand), rfl, (), hattr.check, ?_⟩
      simp only [Integer64.ofJson?_eq_some_iff.2 hmask]
      exact Test.ofMask_eq_ok_iff.2 ⟨hattr.ne_empty, rfl⟩
    | chain _ hkey' => cases rule <;> simp [hkey, bitKeyword] at hkey'

/-- A payload of an entry is compiled to the test for a chain that it stands for. -/
theorem chain_eq_ok_iff {t : Test} (hkey : Keyword.ofKey? key = some .recurse) :
    chain o value = .ok t ↔ DenotesTest o key value t := by
  simp only [chain, Except.bind_eq_ok_iff, onlyPair_eq_ok_iff]
  constructor
  · rintro ⟨⟨attr, operand⟩, rfl, _, hcheck, h⟩
    cases operand with
    | string entry =>
      obtain ⟨hne, rfl⟩ := Test.ofEntry_eq_ok_iff.1 h
      exact .chain entry hkey ⟨hne, hcheck⟩
    | _ => simp at h
  · intro h
    cases h with
    | absent hkey' => simp [hkey] at hkey'
    | equal hkey' => simp [hkey] at hkey'
    | bits rule hkey' => cases rule <;> simp [hkey, bitKeyword] at hkey'
    | @chain attr entry _ hattr =>
      exact ⟨(attr, .string entry), rfl, (), hattr.check,
        Test.ofEntry_eq_ok_iff.2 ⟨hattr.ne_empty, rfl⟩⟩

theorem DenotesTest.isAttribute {t : Test} (h : DenotesTest o key value t) :
    IsAttribute o t.attr := by
  cases h with
  | absent _ hattr | equal _ hattr | bits _ _ hattr | chain _ _ hattr => exact hattr

/-- A pair that stands for a test is no combination. -/
theorem DenotesTest.not_isCombination {t : Test} (h : DenotesTest o key value t) :
    isCombination key = false := by
  cases h with
  | absent hkey => simp [isCombination, hkey]
  | equal hkey => simp [isCombination, hkey]
  | bits rule hkey => cases rule <;> simp [isCombination, hkey, bitKeyword]
  | chain _ hkey => simp [isCombination, hkey]

/-! ### Filters -/

def isObject : Json → Bool
  | .object _ => true
  | _ => false

theorem objectPairs_map_single (pairs : List (String × Json)) :
    objectPairs (pairs.map fun p => Json.single p.1 p.2) = pairs := by
  induction pairs with
  | nil => rfl
  | cons p pairs ih =>
    rw [List.map_cons, Json.single, objectPairs, ih]
    rfl

theorem isObject_map_single (pairs : List (String × Json)) :
    ∀ item ∈ pairs.map fun p => Json.single p.1 p.2, isObject item = true := by
  intro item hitem
  obtain ⟨p, -, rfl⟩ := List.mem_map.1 hitem
  rfl

/-- The filter that a pair stands for. A negation of several pairs stands for none of them. -/
inductive Denotes (o : Options) : String → Json → Filter → Prop
  | test {key : String} {value : Json} {t : Test} (h : DenotesTest o key value t) :
      Denotes o key value (.test t)
  | not {key : String} {p : String × Json} {t : Test} (hkey : Keyword.ofKey? key = some .not)
      (h : DenotesTest o p.1 p.2 t) : Denotes o key (.object [p]) (.not t)
  | and {key : String} {members : List (String × Json)} {children : List Filter}
      (hkey : Keyword.ofKey? key = some .and)
      (h : List.Forall₂ (fun p f => Denotes o p.1 p.2 f) members children) :
      Denotes o key (.object members) (.andOf children)
  | or {key : String} {items : List Json} {children : List Filter}
      (hkey : Keyword.ofKey? key = some .or) (hitems : ∀ item ∈ items, isObject item = true)
      (h : List.Forall₂ (fun p f => Denotes o p.1 p.2 f) (objectPairs items) children) :
      Denotes o key (.array items) (.orOf children)
  | nor {key : String} {items : List Json} {tests : List Test}
      (hkey : Keyword.ofKey? key = some .nor) (hitems : ∀ item ∈ items, isObject item = true)
      (h : List.Forall₂ (fun p t => DenotesTest o p.1 p.2 t) (objectPairs items) tests) :
      Denotes o key (.array items) (.noneOf tests)
  | notAny {key : String} {members : List (String × Json)} {tests : List Test}
      (hkey : Keyword.ofKey? key = some .not) (hlength : 2 ≤ members.length)
      (h : List.Forall₂ (fun p t => DenotesTest o p.1 p.2 t) members tests) :
      Denotes o key (.object members) (.noneOf tests)

/-- A pair that stands for a test stands for it as a test. -/
theorem denotes_test_iff {t : Test} :
    Denotes o key value (.test t) ↔ DenotesTest o key value t := by
  constructor
  · rintro ⟨h⟩
    assumption
  · exact .test

/-- The members that pairs stand for in a nor group are tests, and those pairs stand for tests. -/
theorem forall₂_denotes_map_test_iff {ps : List (String × Json)} {tests : List Test} :
    List.Forall₂ (fun p f => Denotes o p.1 p.2 f) ps (tests.map .test) ↔
      List.Forall₂ (fun p t => DenotesTest o p.1 p.2 t) ps tests := by
  simp only [List.forall₂_map_right_iff, denotes_test_iff]

theorem asTest_eq_ok_iff {kind : Kind} {f : Filter} {t : Test} :
    f.asTest kind = .ok t ↔ f = .test t := by
  cases f <;> simp [Filter.asTest, Filter.test?]

theorem mapM_asTest_eq_ok_iff {kind : Kind} {children : List Filter} {tests : List Test} :
    children.mapM (Filter.asTest kind) = .ok tests ↔ children = tests.map .test := by
  rw [Except.mapM_eq_ok_iff, ← List.forall₂_eq_eq_eq, List.forall₂_map_right_iff]
  simp only [asTest_eq_ok_iff]

theorem norOf_eq_ok_iff {children : List Filter} {f : Filter} :
    Filter.norOf children = .ok f ↔ ∃ tests, children = tests.map .test ∧ f = .noneOf tests := by
  simp only [Filter.norOf, Except.map_eq_ok_iff, mapM_asTest_eq_ok_iff, eq_comm (a := f)]

/-- Every child may be pushed on a group, but only tests on a nor group. -/
theorem accept_eq_ok_iff {group : Group} {f : Filter} :
    group.accept f = .ok () ↔ (group = .nor → ∃ t, f = .test t) := by
  cases group with
  | nor => cases f <;> simp [Group.accept, Filter.asTest, Filter.test?, Except.map]
  | _ => simp [Group.accept]

/-- A group takes each of the children that it is made from. -/
theorem accept_of_gather_eq_ok {group : Group} {children : List Filter} {f : Filter}
    (h : group.gather children = .ok f) : ∀ child ∈ children, group.accept child = .ok () := by
  intro child hchild
  rw [accept_eq_ok_iff]
  rintro rfl
  obtain ⟨tests, rfl, -⟩ := norOf_eq_ok_iff.1 h
  obtain ⟨t, _, rfl⟩ := List.mem_map.1 hchild
  exact ⟨t, rfl⟩

/-! ### Combinations -/

/-- A combination is a negation or a group. -/
theorem isCombination_eq_true_iff : isCombination key = true ↔
    Keyword.ofKey? key = some .not ∨ ∃ group : Group, Keyword.ofKey? key = some group.keyword := by
  unfold isCombination
  constructor
  · intro h
    split at h
    · next hkey => exact Or.inr ⟨.and, hkey⟩
    · next hkey => exact Or.inr ⟨.or, hkey⟩
    · next hkey => exact Or.inl hkey
    · next hkey => exact Or.inr ⟨.nor, hkey⟩
    · simp at h
  · rintro (hkey | ⟨group, hkey⟩)
    · simp [hkey]
    · cases group <;> simp [hkey, Group.keyword]

theorem denotes_of_not_isCombination {f : Filter} (h : isCombination key = false) :
    Denotes o key value f ↔ ∃ t, DenotesTest o key value t ∧ f = .test t := by
  constructor
  · intro hf
    cases hf with
    | test ht => exact ⟨_, ht, rfl⟩
    | not hkey | and hkey | or hkey | nor hkey | notAny hkey => simp [isCombination, hkey] at h
  · rintro ⟨t, ht, rfl⟩
    exact .test ht

/-- The shape of the payloads that a group is made from. -/
def Group.takes : Group → Json → Prop
  | .and, value => isObject value = true
  | .or, value | .nor, value => ∃ items, value = .array items ∧ ∀ item ∈ items, isObject item = true

/-- A pair that asks for a group stands for the group of what the pairs of its payload stand for. -/
theorem denotes_group_iff {f : Filter} (group : Group)
    (hkey : Keyword.ofKey? key = some group.keyword) :
    Denotes o key value f ↔ group.takes value ∧ ∃ children,
      List.Forall₂ (fun p f => Denotes o p.1 p.2 f) (payload key value) children
        ∧ group.gather children = .ok f := by
  constructor
  · intro h
    cases h with
    | test h =>
      have := h.not_isCombination
      cases group <;> simp [isCombination, hkey, Group.keyword] at this
    | not hkey' => cases group <;> simp [hkey, Group.keyword] at hkey'
    | and hkey' h =>
      cases group <;> simp [hkey, Group.keyword] at hkey'
      exact ⟨rfl, _, by simpa [payload, hkey, Group.keyword] using h, rfl⟩
    | or hkey' hitems h =>
      cases group <;> simp [hkey, Group.keyword] at hkey'
      exact ⟨⟨_, rfl, hitems⟩, _, by simpa [payload, hkey, Group.keyword] using h, rfl⟩
    | nor hkey' hitems h =>
      cases group <;> simp [hkey, Group.keyword] at hkey'
      refine ⟨⟨_, rfl, hitems⟩, _, ?_, norOf_eq_ok_iff.2 ⟨_, rfl, rfl⟩⟩
      simpa [payload, hkey, Group.keyword, denotes_test_iff] using h
    | notAny hkey' => cases group <;> simp [hkey, Group.keyword] at hkey'
  · rintro ⟨htakes, children, h, hf⟩
    cases group with
    | and =>
      cases value with
      | object members =>
        cases hf
        simp only [payload, hkey, Group.keyword] at h
        exact .and hkey h
      | _ => simp [Group.takes, isObject] at htakes
    | or =>
      obtain ⟨items, rfl, hitems⟩ := htakes
      cases hf
      simp only [payload, hkey, Group.keyword] at h
      exact .or hkey hitems h
    | nor =>
      obtain ⟨items, rfl, hitems⟩ := htakes
      obtain ⟨tests, rfl, rfl⟩ := norOf_eq_ok_iff.1 hf
      simp only [payload, hkey, Group.keyword, forall₂_denotes_map_test_iff] at h
      exact .nor hkey hitems h

theorem denotes_not_iff {f : Filter} {p : String × Json} (hkey : Keyword.ofKey? key = some .not) :
    Denotes o key (.object [p]) f ↔ ∃ t, DenotesTest o p.1 p.2 t ∧ f = .not t := by
  constructor
  · intro h
    cases h with
    | test h => simpa [isCombination, hkey] using h.not_isCombination
    | not _ h => exact ⟨_, h, rfl⟩
    | and hkey' => simp [hkey] at hkey'
    | notAny _ hlength => simp at hlength
  · rintro ⟨t, h, rfl⟩
    exact .not hkey h

theorem denotes_notAny_iff {f : Filter} {members : List (String × Json)}
    (hkey : Keyword.ofKey? key = some .not) (hlength : 2 ≤ members.length) :
    Denotes o key (.object members) f ↔ ∃ children,
      List.Forall₂ (fun p f => Denotes o p.1 p.2 f) members children
        ∧ Group.nor.gather children = .ok f := by
  constructor
  · intro h
    cases h with
    | test h => simpa [isCombination, hkey] using h.not_isCombination
    | not => simp at hlength
    | and hkey' => simp [hkey] at hkey'
    | notAny _ _ h =>
      exact ⟨_, forall₂_denotes_map_test_iff.2 h, norOf_eq_ok_iff.2 ⟨_, rfl, rfl⟩⟩
  · rintro ⟨children, h, hf⟩
    obtain ⟨tests, rfl, rfl⟩ := norOf_eq_ok_iff.1 hf
    exact .notAny hkey hlength (forall₂_denotes_map_test_iff.1 h)

theorem exists_object_of_denotes_not {f : Filter} (hkey : Keyword.ofKey? key = some .not)
    (h : Denotes o key value f) : ∃ p ps, value = .object (p :: ps) := by
  cases h with
  | test h => simpa [isCombination, hkey] using h.not_isCombination
  | not => exact ⟨_, [], rfl⟩
  | and hkey' | or hkey' | nor hkey' => simp [hkey] at hkey'
  | notAny _ hlength =>
    have hpos := Nat.lt_of_lt_of_le Nat.zero_lt_two hlength
    obtain ⟨p, ps, rfl⟩ := List.exists_cons_of_length_pos hpos
    exact ⟨p, ps, rfl⟩

end Query

end LdapFilter
