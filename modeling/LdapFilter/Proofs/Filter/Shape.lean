import LdapFilter.Proofs.Filter.Built

/-!
# The shape of filters

What every node of a filter looks like, however the filter was built: a negation holds a single
test, the members of a nor group are negated literals or tests by a matching rule, no attribute is
empty, and the attribute of a test by a rule can be told from its property (`isShaped_of_built`).
-/

namespace LdapFilter

/-- The matching rule that filters of a kind test by. -/
def Kind.matchingRule? : Kind → Option MatchingRule
  | .bitwiseAnd => some .allBits
  | .bitwiseOr => some .someBits
  | .inChain => some .inChain
  | .equal | .and | .or | .not | .nor => none

namespace Filter

def property? (f : Filter) : Option String :=
  f.test?.map Test.property

def value? (f : Filter) : Option String :=
  f.test?.bind Test.value?

/-- The attribute before the matching rule in a filter that tests by one. -/
def ruleAttribute? (f : Filter) : Option String :=
  f.test?.bind Test.ruleAttribute?

def IsNegatedLiteral (f : Filter) : Prop :=
  f.kind = .not ∧ ∃ c, f.children = [c] ∧ c.kind = .equal

/-- The parts that a filter of a kind has to have. -/
structure IsShaped (f : Filter) : Prop where
  negation : f.kind = .not → ∃ c, f.children = [c] ∧ c.isLeaf = true
  members : f.kind = .nor →
    ∀ c ∈ f.children, c.IsNegatedLiteral ∨ ∃ rule, c.kind.matchingRule? = some rule
  literal : f.kind = .equal → (∃ p, f.property? = some p ∧ p ≠ "") ∧ f.value? ≠ some ""
  byRule : ∀ rule, f.kind.matchingRule? = some rule → ∃ attr, attr ≠ "" ∧
    f.property? = some (attr ++ ":" ++ rule.oid ++ ":") ∧ f.ruleAttribute? = some attr

/-- A property with a rule gives the attribute back that it was made of. -/
theorem ruleAttribute?_bitwise (rule : BitRule) (attr : String) (mask : Int64) :
    ruleAttribute? (.test (.bitwise rule attr mask)) = some attr :=
  congrArg some (MatchingRule.attributeOf_property rule.matchingRule attr)

theorem ruleAttribute?_inChain (attr entry : String) :
    ruleAttribute? (.test (.inChain attr entry)) = some attr :=
  congrArg some (MatchingRule.attributeOf_property .inChain attr)

theorem matchingRule?_kind (rule : BitRule) :
    rule.kind.matchingRule? = some rule.matchingRule := by
  cases rule <;> rfl

theorem isShaped_test {t : Test} (h : t.IsProper) : IsShaped (.test t) := by
  have hkind : t.kind ≠ .not ∧ t.kind ≠ .nor := by
    cases t with
    | bitwise rule => cases rule <;> simp [Test.kind, BitRule.kind]
    | _ => simp [Test.kind]
  refine ⟨fun hnot => absurd hnot hkind.1, fun hnor => absurd hnor hkind.2, fun hequal => ?_,
    fun rule hrule => ?_⟩
  · refine ⟨⟨t.property, rfl, ?_⟩, h.value?_ne_empty⟩
    cases t with
    | equal | absent => exact h.attr_ne_empty
    | bitwise rule => cases rule <;> cases hequal
    | inChain => cases hequal
  · cases t with
    | equal | absent => cases hrule
    | bitwise bits attr mask =>
      have hsame : some bits.matchingRule = some rule := (matchingRule?_kind bits).symm.trans hrule
      cases hsame
      exact ⟨attr, h.attr_ne_empty, rfl, ruleAttribute?_bitwise bits attr mask⟩
    | inChain attr entry =>
      cases hrule
      exact ⟨attr, h.attr_ne_empty, rfl, ruleAttribute?_inChain attr entry⟩

/-- A member stands in a nor group as a negated literal or as a test by a rule. -/
theorem isNegatedLiteral_or_matchingRule?_ofMember (t : Test) :
    (ofMember t).IsNegatedLiteral ∨ ∃ rule, (ofMember t).kind.matchingRule? = some rule := by
  cases t with
  | equal | absent => exact Or.inl ⟨rfl, _, rfl, rfl⟩
  | bitwise rule => exact Or.inr ⟨rule.matchingRule, matchingRule?_kind rule⟩
  | inChain => exact Or.inr ⟨.inChain, rfl⟩

theorem Sound.isShaped {f : Filter} (hf : Sound f) : f.IsShaped := by
  cases hf with
  | test h => exact isShaped_test h
  | @not t h => exact ⟨fun _ => ⟨.test t, rfl, isLeaf_test t⟩, nofun, nofun, nofun⟩
  | and | or => exact ⟨nofun, nofun, nofun, nofun⟩
  | nor h =>
    refine ⟨nofun, fun _ c hc => ?_, nofun, nofun⟩
    obtain ⟨t, -, rfl⟩ := List.mem_map.1 hc
    exact isNegatedLiteral_or_matchingRule?_ofMember t

/-- Every node of a filter that can be built has the shape of its kind, and a test by a matching
rule gives the attribute back that it was made with. -/
theorem isShaped_of_built :
    (∀ f : Filter, Built f → ∀ g ∈ f.nodes, g.IsShaped) ∧
    (∀ (attr : String) (mask : Int64) (f : Filter),
      band attr mask = .ok f ∨ bor attr mask = .ok f → f.ruleAttribute? = some attr) ∧
    ∀ (attr entry : String) (f : Filter),
      recurse attr entry = .ok f → f.ruleAttribute? = some attr := by
  refine ⟨fun f hf g hg => (hf.of_mem_nodes g hg).sound.isShaped, ?_, ?_⟩
  · rintro attr mask f (h | h)
    all_goals
      obtain ⟨t, ht, rfl⟩ := Except.map_eq_ok_iff.1 h
      obtain ⟨-, rfl⟩ := Test.ofMask_eq_ok_iff.1 ht
      exact ruleAttribute?_bitwise _ attr mask
  · intro attr entry f h
    obtain ⟨t, ht, rfl⟩ := Except.map_eq_ok_iff.1 h
    obtain ⟨-, rfl⟩ := Test.ofEntry_eq_ok_iff.1 ht
    exact ruleAttribute?_inChain attr entry

theorem isShaped_of_copied_negation :
    Built (andOf [noneOf [.equal "cn" "a", .bitwise .all "b:1.2.840.113556.1.4.803:" 2],
      .not (.equal "cn" "a")]) ∧
    (∀ g ∈ (andOf [noneOf [.equal "cn" "a", .bitwise .all "b:1.2.840.113556.1.4.803:" 2],
      .not (.equal "cn" "a")]).nodes, g.IsShaped) ∧
    (band "b:1.2.840.113556.1.4.803:" 2 =
        .ok (.test (.bitwise .all "b:1.2.840.113556.1.4.803:" 2)) ∧
      ruleAttribute? (.test (.bitwise .all "b:1.2.840.113556.1.4.803:" 2)) =
        some "b:1.2.840.113556.1.4.803:") ∧
    recurse ":" "" = .ok (.test (.inChain ":" "")) ∧
      ruleAttribute? (.test (.inChain ":" "")) = some ":" := by
  have hequal : Built (.test (.equal "cn" "a")) := @Built.equal "cn" "a" _ rfl
  have hband : Built (.test (.bitwise .all "b:1.2.840.113556.1.4.803:" 2)) :=
    @Built.band "b:1.2.840.113556.1.4.803:" 2 _ rfl
  have hnor : Built (noneOf [.equal "cn" "a", .bitwise .all "b:1.2.840.113556.1.4.803:" 2]) := by
    apply Built.noneOf
    rw [List.forall_mem_cons, List.forall_mem_singleton]
    exact ⟨hequal, hband⟩
  have hcopy : Built (.not (.equal "cn" "a")) := .child hnor List.mem_cons_self
  have hand : Built (andOf [noneOf [.equal "cn" "a", .bitwise .all "b:1.2.840.113556.1.4.803:" 2],
      .not (.equal "cn" "a")]) := by
    apply Built.andOf
    rw [List.forall_mem_cons, List.forall_mem_singleton]
    exact ⟨hnor, hcopy⟩
  obtain ⟨hshape, hbits, hchain⟩ := isShaped_of_built
  exact ⟨hand, hshape _ hand, ⟨rfl, hbits _ 2 _ (Or.inl rfl)⟩, rfl, hchain _ "" _ rfl⟩

end Filter

end LdapFilter
