import LdapFilter.Proofs.Filter.Insertion
import LdapFilter.Proofs.Query.Compile
import LdapFilter.Proofs.Reading.Truth

/-!
# What a nor group asks for

A nor group is written as the conjunction of its children. An equality or an absence stands there
negated, but a test by a matching rule stands as it was given. So the group asks that its literal
members fail and that its other members pass, however it was made: from a list, by insertions, or
from a document (`isConjunction_of_norOf_and_push_and_pair`). Of the groups with literal members
alone, it can be said that they match when no member does (`truth?_noneOf_of_isLiteral`).
-/

namespace LdapFilter

open Reading

variable {ρ : Atom → Bool}

/-! ### Members -/

namespace Test

def holds (ρ : Atom → Bool) : Test → Bool
  | equal attr value => ρ (.equals attr (octets (AssertionValue.unescape value).toList))
  | absent attr => !ρ (.present attr)
  | bitwise rule attr mask => ρ (.bits rule attr mask.toInt)
  | inChain attr entry => ρ (.inChain attr (octets (AssertionValue.unescape entry).toList))

/-- Whether a member of a nor group lets the group match: a literal one has to fail. -/
def allows (ρ : Atom → Bool) (t : Test) : Bool :=
  if t.isLiteral then !t.holds ρ else t.holds ρ

theorem truth?_reading (t : Test) : truth? ρ t.reading = some (t.holds ρ) := by
  cases t with
  | equal | absent => rfl
  | bitwise rule attr mask => exact truth?_bits ρ rule attr mask
  | inChain attr entry => exact truth?_inChain ρ attr entry

theorem truth?_memberReading (t : Test) : truth? ρ t.memberReading = some (t.allows ρ) := by
  unfold memberReading allows
  split
  · rw [truth?, truth?_reading, Option.map_some]
  · exact truth?_reading t

theorem allows_iff (t : Test) : t.allows ρ = true ↔ truth? ρ t.reading = some (!t.isLiteral) := by
  rw [truth?_reading, Option.some_inj, allows]
  cases t.isLiteral <;> simp

end Test

namespace Filter

/-! ### Conjunctions of members -/

/-- A member of a nor group is read as the filter that it stands for. -/
theorem reading_ofMember (t : Test) : (ofMember t).reading = t.memberReading := by
  unfold ofMember Test.memberReading
  split <;> rfl

theorem readings_map_ofMember (ts : List Test) :
    readings (ts.map ofMember) = ts.map Test.memberReading := by
  rw [readings_eq_map, List.map_map]
  exact List.map_congr_left fun t _ => reading_ofMember t

/-- A nor group is read as the conjunction of its children. -/
theorem reading_noneOf (ts : List Test) :
    (noneOf ts).reading = (andOf (noneOf ts).children).reading := by
  rw [noneOf, andOf, reading, reading, children, readings_map_ofMember]

/-- A nor group is written as the conjunction of its children. -/
theorem render_noneOf (ts : List Test) :
    (noneOf ts).render = (andOf (noneOf ts).children).render := by
  rw [noneOf, andOf, render, render, children, renderAll_map_ofMember]

/-- A nor group matches when its literal members fail and its other members pass. -/
theorem truth?_noneOf (ts : List Test) : truth? ρ (noneOf ts).reading =
    some (decide (∀ t ∈ ts, truth? ρ t.reading = some (!t.isLiteral))) := by
  have hmembers : truths? ρ (ts.map Test.memberReading) = some (ts.map (Test.allows ρ)) := by
    rw [truths?_eq_some_iff, List.forall₂_map_left_iff, List.forall₂_map_right_iff,
      List.forall₂_same]
    exact fun t _ => t.truth?_memberReading
  rw [noneOf, reading, truth?, hmembers, Option.map_some, Option.some_inj, List.all_map,
    Bool.eq_iff_iff, List.all_eq_true, decide_eq_true_iff]
  exact forall₂_congr fun t _ => t.allows_iff

/-- A group of literal members matches when none of them does. -/
theorem truth?_noneOf_of_isLiteral {ts : List Test} (h : ∀ t ∈ ts, t.isLiteral = true) :
    truth? ρ (noneOf ts).reading =
      some (decide (∀ t ∈ ts, truth? ρ t.reading = some false)) := by
  rw [truth?_noneOf, Option.some_inj, Bool.eq_iff_iff, decide_eq_true_iff, decide_eq_true_iff]
  exact forall₂_congr fun t ht => by rw [h t ht, Bool.not_true]

/-- A filter is the conjunction of its children, as text and as it is read. Of the given tests,
those that are literal have to fail for it to match, and the others have to pass. -/
structure IsConjunction (f : Filter) (ts : List Test) : Prop where
  render_eq : f.render = (andOf f.children).render
  reading_eq : f.reading = (andOf f.children).reading
  read?_render : f.IsInert → read? f.render = some (andOf f.children).reading
  truth?_reading (ρ : Atom → Bool) : truth? ρ (andOf f.children).reading =
    some (decide (∀ t ∈ ts, truth? ρ t.reading = some (!t.isLiteral)))

theorem isConjunction_noneOf (ts : List Test) : (noneOf ts).IsConjunction ts where
  render_eq := render_noneOf ts
  reading_eq := reading_noneOf ts
  read?_render h := by
    rw [← reading_noneOf]
    exact read?_eq_some_iff.2 (spells_render h)
  truth?_reading ρ := by rw [← reading_noneOf, truth?_noneOf ts]

end Filter

/-! ### Documents -/

namespace Query

variable {o : Options} {key : String} {value : Json} {depth count count' : Nat} {f : Filter}

/-- Whether a pair asks for a nor group: by the keyword, or as a negation of several pairs. -/
def AsksForNor (key : String) (value : Json) : Prop :=
  Keyword.ofKey? key = some .nor ∨
    Keyword.ofKey? key = some .not ∧ 2 ≤ (payload key value).length

/-- A pair that asks for a nor group stands for the group of the tests of its payload. -/
theorem exists_noneOf_of_denotes (hkey : AsksForNor key value) (h : Denotes o key value f) :
    ∃ ts, List.Forall₂ (fun p t => DenotesTest o p.1 p.2 t) (payload key value) ts ∧
      f = Filter.noneOf ts := by
  cases h with
  | test h =>
    have hcomb := h.not_isCombination
    rcases hkey with hkey | ⟨hkey, -⟩
    · simp [isCombination, hkey] at hcomb
    · simp [isCombination, hkey] at hcomb
  | @not _ p t hnot =>
    rcases hkey with hkey | ⟨-, hlength⟩
    · simp [hnot] at hkey
    · simp [payload, hnot] at hlength
  | and hkey' | or hkey' => simp [AsksForNor, hkey'] at hkey
  | nor hkey' _ h =>
    refine ⟨_, ?_, rfl⟩
    simpa [payload, hkey'] using h
  | notAny hkey' _ h =>
    refine ⟨_, ?_, rfl⟩
    simpa [payload, hkey'] using h

/-- A compiled combination stands for its filter, and there is room for at least one pair. -/
theorem denotes_of_pair_eq_ok (hcomb : isCombination key = true)
    (h : pair o depth count key value = .ok (f, count')) :
    Denotes o key value f ∧ 1 ≤ o.maxNodes := by
  have hiff : Denotes o key value f ∧ depth + 1 ≤ o.maxDepth
      ∧ Fits o (depth + 1) (count + 1) count' (payload key value) := by
    rcases isCombination_eq_true_iff.1 hcomb with hkey | ⟨group, hkey⟩
    · exact (pair_not_iff_denotes (fun _ _ => pair_eq_ok_iff) hkey).1 h
    · exact (pair_group_iff_denotes (fun _ _ => pair_eq_ok_iff) group hkey).1 h
  obtain ⟨hf, -, hfits⟩ := hiff
  have hcount := hfits.count_eq
  have hmax := hfits.count_le
  exact ⟨hf, by omega⟩

/-- A compiled nor group has the tests that the pairs of its payload are compiled to. -/
theorem exists_noneOf_of_pair_eq_ok (hkey : AsksForNor key value)
    (h : pair o depth count key value = .ok (f, count')) :
    ∃ ts, List.Forall₂ (fun p t => pair o 0 0 p.1 p.2 = .ok (.test t, 1)) (payload key value) ts ∧
      f = Filter.noneOf ts := by
  have hcomb : isCombination key = true := by
    rcases hkey with hkey | ⟨hkey, -⟩
    · simp [isCombination, hkey]
    · simp [isCombination, hkey]
  obtain ⟨hf, hmax⟩ := denotes_of_pair_eq_ok hcomb h
  obtain ⟨ts, hts, rfl⟩ := exists_noneOf_of_denotes hkey hf
  refine ⟨ts, hts.imp fun p t ht => ?_, rfl⟩
  exact (pair_test_eq_ok_iff ht.not_isCombination).2 ⟨⟨t, ht, rfl⟩, rfl, hmax⟩

end Query

/-! ### Every way to make a nor group -/

namespace Filter

/-- A nor group is the conjunction in which its literal members fail and its other members pass,
whether it is made from a list of children, by insertions of further ones, or by compiling a pair
that asks for it. -/
theorem isConjunction_of_norOf_and_push_and_pair :
    (∀ (children : List Filter) (f : Filter), norOf children = .ok f →
      ∃ ts : List Test, children = ts.map .test ∧ f.IsConjunction ts) ∧
    (∀ (first children : List Filter) (f g : Filter), norOf first = .ok f →
      pushAll f children = .ok g →
      ∃ ts : List Test, first ++ children = ts.map .test ∧ g.IsConjunction ts) ∧
    ∀ (o : Options) (depth count count' : Nat) (key : String) (value : Json) (f : Filter),
      Query.AsksForNor key value → Query.pair o depth count key value = .ok (f, count') →
      ∃ ts : List Test, List.Forall₂ (fun p t => Query.pair o 0 0 p.1 p.2 = .ok (.test t, 1))
          (Query.payload key value) ts ∧ f.IsConjunction ts := by
  refine ⟨fun children f h => ?_, fun first children f g hfirst h => ?_,
    fun o depth count count' key value f hkey h => ?_⟩
  · obtain ⟨ts, rfl, rfl⟩ := Query.norOf_eq_ok_iff.1 h
    exact ⟨ts, rfl, isConjunction_noneOf ts⟩
  · obtain ⟨ts, rfl, rfl⟩ := Query.norOf_eq_ok_iff.1 hfirst
    obtain ⟨us, rfl, rfl⟩ := pushAll_noneOf_eq_ok_iff.1 h
    exact ⟨ts ++ us, List.map_append.symm, isConjunction_noneOf _⟩
  · obtain ⟨ts, hts, rfl⟩ := Query.exists_noneOf_of_pair_eq_ok hkey h
    exact ⟨ts, hts, isConjunction_noneOf ts⟩

theorem isConjunction_of_name_and_flags :
    (∃ ts : List Test, [.test (.equal "cn" "x"), .test (.bitwise .all "flags" 2)] =
        ts.map Filter.test ∧
      (noneOf [.equal "cn" "x", .bitwise .all "flags" 2]).IsConjunction ts) ∧
    (∃ ts : List Test, [.test (.equal "cn" "x")] ++ [.test (.bitwise .all "flags" 2)] =
        ts.map Filter.test ∧
      (noneOf [.equal "cn" "x", .bitwise .all "flags" 2]).IsConjunction ts) ∧
    ∃ ts : List Test, List.Forall₂ (fun p t => Query.pair {} 0 0 p.1 p.2 = .ok (.test t, 1))
        (Query.payload "NOT" (.object [("cn", .string "x"),
          ("band", Json.single "flags" (.string "2"))])) ts ∧
      (noneOf [.equal "cn" "x", .bitwise .all "flags" 2]).IsConjunction ts :=
  ⟨isConjunction_of_norOf_and_push_and_pair.1 _ _ rfl,
    isConjunction_of_norOf_and_push_and_pair.2.1 _ _ (noneOf [.equal "cn" "x"]) _ rfl
      (pushAll_noneOf_eq_ok_iff.2 ⟨[.bitwise .all "flags" 2], rfl, rfl⟩),
    isConjunction_of_norOf_and_push_and_pair.2.2 {} 0 0 3 "NOT" _ _
      (Or.inr ⟨by decide, by decide⟩) (by rfl)⟩

/-- A nor group of a test of bits matches when the test passes, and not when it fails. -/
theorem truth?_conjunction_of_flags :
    norOf [.test (.bitwise .all "flags" 2)] = .ok (noneOf [.bitwise .all "flags" 2]) ∧
    truth? (fun _ => true) (Filter.test (.bitwise .all "flags" 2)).reading = some true ∧
    truth? (fun _ => true) (andOf (noneOf [.bitwise .all "flags" 2]).children).reading =
      some true ∧
    truth? (fun _ => false) (Filter.test (.bitwise .all "flags" 2)).reading = some false ∧
    truth? (fun _ => false) (andOf (noneOf [.bitwise .all "flags" 2]).children).reading =
      some false := by
  have hflags : ∀ ρ : Atom → Bool, truth? ρ (Test.bitwise .all "flags" 2).reading =
      some (ρ (.bits .all "flags" 2)) := fun ρ => truth?_bits ρ .all "flags" 2
  refine ⟨rfl, hflags _, ?_, hflags _, ?_⟩
  · rw [← reading_noneOf, truth?_noneOf]
    simp [hflags, Test.isLiteral]
  · rw [← reading_noneOf, truth?_noneOf]
    simp [hflags, Test.isLiteral]

end Filter

end LdapFilter
