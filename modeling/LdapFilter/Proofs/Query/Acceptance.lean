import LdapFilter.Proofs.Query.Compile

/-!
# The documents that are accepted

`WellFormed` states the shape of the pairs that a document may be made of, without any filter. A
document is accepted exactly when its first pair is well-formed and within the limits, and then
the tests of its filter are the tests of that pair, one for one and in their order
(`exists_compile_iff_and_tests`).
-/

namespace LdapFilter

namespace Filter

mutual
def tests : Filter → List Test
  | .test t | .not t => [t]
  | .and children _ | .or children _ => allTests children
  | .nor members _ => members

def allTests : List Filter → List Test
  | [] => []
  | f :: fs => f.tests ++ allTests fs
end

theorem allTests_eq_flatMap (fs : List Filter) : allTests fs = fs.flatMap tests := by
  induction fs with
  | nil => rfl
  | cons f fs ih => rw [allTests, List.flatMap_cons, ih]

end Filter

namespace Query

variable {o : Options} {key : String} {value : Json}

/-! ### Well-formed pairs -/

/-- The shape of a pair and of all pairs below it. -/
inductive WellFormed (o : Options) : String → Json → Prop
  | literal {key : String} {value : Json} (hkey : Keyword.ofKey? key = none)
      (hattr : IsAttribute o key) (hvalue : ∃ text, ComparesAs o value text) :
      WellFormed o key value
  | bits {key attr : String} {operand : Json} (rule : BitRule)
      (hkey : Keyword.ofKey? key = some (bitKeyword rule)) (hattr : IsAttribute o attr)
      (hmask : ∃ n, Integer64.Gives operand n) :
      WellFormed o key (.object [(attr, operand)])
  | chain {key attr : String} (entry : String) (hkey : Keyword.ofKey? key = some .recurse)
      (hattr : IsAttribute o attr) : WellFormed o key (.object [(attr, .string entry)])
  | and {key : String} {members : List (String × Json)} (hkey : Keyword.ofKey? key = some .and)
      (h : ∀ p ∈ members, WellFormed o p.1 p.2) : WellFormed o key (.object members)
  | or {key : String} {items : List Json} (hkey : Keyword.ofKey? key = some .or)
      (hitems : ∀ item ∈ items, isObject item = true)
      (h : ∀ p ∈ objectPairs items, WellFormed o p.1 p.2) : WellFormed o key (.array items)
  | nor {key : String} {items : List Json} (hkey : Keyword.ofKey? key = some .nor)
      (hitems : ∀ item ∈ items, isObject item = true)
      (htests : ∀ p ∈ objectPairs items, isCombination p.1 = false)
      (h : ∀ p ∈ objectPairs items, WellFormed o p.1 p.2) : WellFormed o key (.array items)
  | not {key : String} {members : List (String × Json)} (hkey : Keyword.ofKey? key = some .not)
      (hne : members ≠ []) (htests : ∀ p ∈ members, isCombination p.1 = false)
      (h : ∀ p ∈ members, WellFormed o p.1 p.2) : WellFormed o key (.object members)

/-- A pair that is no combination is well-formed exactly when it stands for a test. -/
theorem wellFormed_iff_denotesTest (h : isCombination key = false) :
    WellFormed o key value ↔ ∃ t, DenotesTest o key value t := by
  constructor
  · intro hw
    cases hw with
    | literal hkey hattr hvalue =>
      obtain ⟨text, htext⟩ := hvalue
      by_cases hempty : text = ""
      · subst hempty
        exact ⟨_, .absent hkey hattr htext⟩
      · exact ⟨_, .equal hkey hattr htext hempty⟩
    | bits rule hkey hattr hmask =>
      obtain ⟨n, hn⟩ := hmask
      obtain ⟨mask, rfl, -⟩ := hn.exists_toInt_eq
      exact ⟨_, .bits rule hkey hattr hn⟩
    | chain entry hkey hattr => exact ⟨_, .chain entry hkey hattr⟩
    | and hkey | or hkey | nor hkey | not hkey => simp [isCombination, hkey] at h
  · rintro ⟨t, ht⟩
    cases ht with
    | absent hkey hattr htext => exact .literal hkey hattr ⟨_, htext⟩
    | equal hkey hattr htext => exact .literal hkey hattr ⟨_, htext⟩
    | bits rule hkey hattr hmask => exact .bits rule hkey hattr ⟨_, hmask⟩
    | chain entry hkey hattr => exact .chain entry hkey hattr

/-- Pairs that are no combinations are all well-formed exactly when they stand for tests. -/
theorem forall_wellFormed_iff_denotesTest {ps : List (String × Json)} :
    ((∀ p ∈ ps, isCombination p.1 = false) ∧ ∀ p ∈ ps, WellFormed o p.1 p.2) ↔
      ∃ tests, List.Forall₂ (fun p t => DenotesTest o p.1 p.2 t) ps tests := by
  rw [exists_forall₂_iff]
  constructor
  · rintro ⟨htests, h⟩ p hp
    exact (wellFormed_iff_denotesTest (htests p hp)).1 (h p hp)
  · intro h
    have htests : ∀ p ∈ ps, isCombination p.1 = false := fun p hp => by
      obtain ⟨t, ht⟩ := h p hp
      exact ht.not_isCombination
    exact ⟨htests, fun p hp => (wellFormed_iff_denotesTest (htests p hp)).2 (h p hp)⟩

/-- A pair that stands for a filter is well-formed. -/
theorem Denotes.wellFormed {f : Filter} (hf : Denotes o key value f) : WellFormed o key value := by
  induction key, value using payload_induction generalizing f with
  | h key value ih =>
  cases hf with
  | test ht => exact (wellFormed_iff_denotesTest ht.not_isCombination).2 ⟨_, ht⟩
  | @not _ p t hkey ht =>
    obtain ⟨htests, h⟩ := forall_wellFormed_iff_denotesTest.2 ⟨[t], .cons ht .nil⟩
    exact .not hkey (by simp) htests h
  | and hkey h =>
    simp only [payload, hkey] at ih
    refine .and hkey fun p hp => ?_
    obtain ⟨g, hg⟩ := exists_forall₂_iff.1 ⟨_, h⟩ p hp
    exact ih p hp hg
  | or hkey hitems h =>
    simp only [payload, hkey] at ih
    refine .or hkey hitems fun p hp => ?_
    obtain ⟨g, hg⟩ := exists_forall₂_iff.1 ⟨_, h⟩ p hp
    exact ih p hp hg
  | nor hkey hitems h =>
    obtain ⟨htests, h⟩ := forall_wellFormed_iff_denotesTest.2 ⟨_, h⟩
    exact .nor hkey hitems htests h
  | notAny hkey hlength h =>
    obtain ⟨htests, h⟩ := forall_wellFormed_iff_denotesTest.2 ⟨_, h⟩
    exact .not hkey (List.ne_nil_of_length_pos (by omega)) htests h

/-- A well-formed pair stands for a filter. -/
theorem WellFormed.exists_denotes (hw : WellFormed o key value) : ∃ f, Denotes o key value f := by
  induction key, value using payload_induction with
  | h key value ih =>
  by_cases hcomb : isCombination key = true
  · cases hw with
    | literal hkey => simp [isCombination, hkey] at hcomb
    | bits rule hkey => cases rule <;> simp [isCombination, hkey, bitKeyword] at hcomb
    | chain _ hkey => simp [isCombination, hkey] at hcomb
    | and hkey h =>
      simp only [payload, hkey] at ih
      obtain ⟨children, hchildren⟩ := exists_forall₂_iff.2 fun p hp => ih p hp (h p hp)
      exact ⟨_, .and hkey hchildren⟩
    | or hkey hitems h =>
      simp only [payload, hkey] at ih
      obtain ⟨children, hchildren⟩ := exists_forall₂_iff.2 fun p hp => ih p hp (h p hp)
      exact ⟨_, .or hkey hitems hchildren⟩
    | nor hkey hitems htests h =>
      obtain ⟨tests, ht⟩ := forall_wellFormed_iff_denotesTest.1 ⟨htests, h⟩
      exact ⟨_, .nor hkey hitems ht⟩
    | not hkey hne htests h =>
      obtain ⟨tests, ht⟩ := forall_wellFormed_iff_denotesTest.1 ⟨htests, h⟩
      cases ht with
      | nil => exact absurd rfl hne
      | cons hp hps =>
        cases hps with
        | nil => exact ⟨_, .not hkey hp⟩
        | cons hq hqs => exact ⟨_, .notAny hkey (by simp) (.cons hp (.cons hq hqs))⟩
  · rw [Bool.not_eq_true] at hcomb
    obtain ⟨t, ht⟩ := (wellFormed_iff_denotesTest hcomb).1 hw
    exact ⟨.test t, .test ht⟩

/-- A pair is well-formed exactly when it stands for a filter. -/
theorem wellFormed_iff_denotes : WellFormed o key value ↔ ∃ f, Denotes o key value f := by
  constructor
  · exact WellFormed.exists_denotes
  · rintro ⟨f, hf⟩
    exact hf.wellFormed

/-! ### Tests of a document -/

theorem flatMap_leaves_of_denotesTest {ps : List (String × Json)} {tests : List Test}
    (h : List.Forall₂ (fun p t => DenotesTest o p.1 p.2 t) ps tests) :
    ps.flatMap (fun p => leaves p.1 p.2) = ps := by
  induction h with
  | nil => rfl
  | cons ht _ ih =>
    rw [List.flatMap_cons, ih, leaves_eq, if_neg (by simp [ht.not_isCombination])]
    rfl

theorem forall₂_flatMap_leaves {ps : List (String × Json)} {children : List Filter}
    (ih : ∀ p ∈ ps, ∀ {f : Filter}, Denotes o p.1 p.2 f →
      List.Forall₂ (fun p t => DenotesTest o p.1 p.2 t) (leaves p.1 p.2) f.tests)
    (h : List.Forall₂ (fun p f => Denotes o p.1 p.2 f) ps children) :
    List.Forall₂ (fun p t => DenotesTest o p.1 p.2 t) (ps.flatMap fun p => leaves p.1 p.2)
      (Filter.allTests children) := by
  have hleaves := forall₂_of_forall_mem h fun p hp f hf => ih p hp hf
  rw [Filter.allTests_eq_flatMap]
  exact List.rel_flatMap hleaves fun _ _ htests => htests

/-- The tests of a filter are those of the pairs that stand for it, one for one. -/
theorem Denotes.forall₂_leaves {f : Filter} (h : Denotes o key value f) :
    List.Forall₂ (fun p t => DenotesTest o p.1 p.2 t) (leaves key value) f.tests := by
  induction key, value using payload_induction generalizing f with
  | h key value ih =>
  rw [leaves_eq]
  cases h with
  | test ht => simpa [ht.not_isCombination, Filter.tests] using ht
  | @not _ p t hkey ht =>
    have hleaves := flatMap_leaves_of_denotesTest (.cons ht .nil)
    simp only [isCombination, payload, hkey, if_true, hleaves]
    exact .cons ht .nil
  | and hkey h =>
    simp only [payload, hkey] at ih
    simp only [isCombination, payload, hkey, if_true]
    exact forall₂_flatMap_leaves (fun p hp => ih p hp) h
  | or hkey hitems h =>
    simp only [payload, hkey] at ih
    simp only [isCombination, payload, hkey, if_true]
    exact forall₂_flatMap_leaves (fun p hp => ih p hp) h
  | nor hkey hitems h =>
    simp only [isCombination, payload, hkey, if_true, flatMap_leaves_of_denotesTest h]
    exact h
  | notAny hkey hlength h =>
    simp only [isCombination, payload, hkey, if_true, flatMap_leaves_of_denotesTest h]
    exact h

/-- A group around a single test has no other tests. -/
theorem tests_rooted (f : Filter) : (rooted f).tests = f.tests := by
  cases f with
  | test t =>
    simp only [rooted]
    split <;> simp [Filter.andOf, Filter.tests, Filter.allTests]
  | _ => rfl

/-- Every test of a compiled filter is that of some pair. -/
theorem exists_denotesTest_of_compile {d : Json} {f : Filter} (h : compile o d = .ok f) :
    ∀ t ∈ f.tests, ∃ p : String × Json, DenotesTest o p.1 p.2 t := by
  obtain ⟨key, value, rest, g, rfl, hg, rfl, -, -⟩ := compile_eq_ok_iff.1 h
  rw [tests_rooted]
  intro t ht
  obtain ⟨p, hp⟩ := exists_forall₂_iff.1 ⟨_, hg.forall₂_leaves.flip⟩ t ht
  exact ⟨p, hp⟩

/-! ### Acceptance -/

/-- A document is accepted exactly when its first pair is well-formed, has no more pairs than are
allowed and nests no deeper than is allowed. Its filter is then the one that this pair stands for,
and the tests of the filter are those of the pair, none left out and none made up. -/
theorem exists_compile_iff_and_tests (o : Options) (d : Json) :
    ((∃ f, compile o d = .ok f) ↔ ∃ key value rest, d = .object ((key, value) :: rest)
      ∧ WellFormed o key value ∧ pairCount key value ≤ o.maxNodes
      ∧ nesting key value ≤ o.maxDepth) ∧
    ∀ key value rest f, d = .object ((key, value) :: rest) → compile o d = .ok f →
      (∃ g, Denotes o key value g ∧ f = rooted g) ∧
      List.Forall₂ (fun p t => DenotesTest o p.1 p.2 t) (leaves key value) f.tests := by
  constructor
  · simp only [compile_eq_ok_iff, wellFormed_iff_denotes]
    constructor
    · rintro ⟨f, key, value, rest, g, hd, hg, -, hlimits⟩
      exact ⟨key, value, rest, hd, ⟨g, hg⟩, hlimits⟩
    · rintro ⟨key, value, rest, hd, ⟨g, hg⟩, hlimits⟩
      exact ⟨rooted g, key, value, rest, g, hd, hg, rfl, hlimits⟩
  · rintro key value rest f rfl h
    obtain ⟨_, _, _, g, hd, hg, rfl, -, -⟩ := compile_eq_ok_iff.1 h
    cases hd
    rw [tests_rooted]
    exact ⟨⟨g, hg, rfl⟩, hg.forall₂_leaves⟩

theorem tests_of_compiled_negations :
    List.Forall₂ (fun p t => DenotesTest {} p.1 p.2 t)
      (leaves "Not" (.object [("cn", .string "a"), ("sn", .null)]))
      [.equal "cn" "a", .absent "sn"] :=
  ((exists_compile_iff_and_tests {}
    (.object [("Not", .object [("cn", .string "a"), ("sn", .null)])])).2 _ _ _ _ rfl rfl).2

end Query

end LdapFilter
