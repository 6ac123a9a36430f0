import LdapFilter.Proofs.Filter.Nodes
import LdapFilter.Proofs.Reading.Render

/-!
# What the options guarantee

The checks of attributes, the escaping of values and the two limits are made at different places
while a document is compiled. Here they are statements about the filter that comes out: all its
tests pass (`Test.Passes`), wherever they stand, and the filter of the first pair is within the
limits (`Filter.Within`). Neither the group around a single literal nor the negations of members of
nor groups count towards the limits.
-/

namespace LdapFilter

/-- What the options promise about a test. -/
structure Test.Passes (o : Options) (t : Test) : Prop where
  check : o.checkAttribute t.attr = .ok ()
  description : o.validateAttributes = true → Attribute.isDescription t.attr = true
  allowed : o.allowedAttributes ≠ [] → ∃ a ∈ o.allowedAttributes, Text.fold a = Text.fold t.attr
  escaped : o.escapeValues = true →
    ∀ text, t.operand? = some text → AssertionValue.IsEscaped text

/-- What the options promise about the filter of a pair. -/
structure Filter.Within (o : Options) (f : Filter) : Prop where
  nodes : f.nodes.length ≤ o.maxNodes + f.memberNegations
  branches : ∀ b ∈ f.branches, b.1.length ≤ o.maxDepth

namespace Query

variable {o : Options} {key : String} {value : Json}

theorem exists_allowed {attr : String} (h : o.allows attr = true) (hne : o.allowedAttributes ≠ []) :
    ∃ a ∈ o.allowedAttributes, Text.fold a = Text.fold attr := by
  rw [Options.allows, Bool.or_eq_true, List.isEmpty_iff] at h
  obtain ⟨a, ha, hcaseless⟩ := List.any_eq_true.1 (h.resolve_left hne)
  exact ⟨a, ha, (Text.caseless_iff a attr).1 hcaseless⟩

/-- A test that a pair stands for has passed all the checks. -/
theorem DenotesTest.passes {t : Test} (h : DenotesTest o key value t) : t.Passes o := by
  obtain ⟨hdescription, hallows⟩ := Options.checkAttribute_eq_ok_iff.1 h.isAttribute.check
  refine ⟨h.isAttribute.check, hdescription, exists_allowed hallows, ?_⟩
  intro hescape text htext
  obtain ⟨v, rfl⟩ := h.exists_escape hescape htext
  exact AssertionValue.isEscaped_escape v

/-- A filter within the limits on pairs and payloads is so as a tree. -/
theorem Denotes.within {f : Filter} (h : Denotes o key value f)
    (hcount : pairCount key value ≤ o.maxNodes) (hnesting : nesting key value ≤ o.maxDepth) :
    f.Within o := by
  rw [h.pairCount_eq] at hcount
  rw [h.nesting_eq] at hnesting
  constructor
  · rw [Filter.length_nodes]
    exact Nat.add_le_add_right hcount _
  · intro b hb
    exact Nat.le_trans (Filter.length_le_nesting_of_mem_branches b hb) hnesting

/-- There is a group around the filter of a pair when the key of the pair is no keyword. -/
theorem Denotes.rooted_eq {f : Filter} (h : Denotes o key value f) :
    rooted f = if Keyword.ofKey? key = none then .andOf [f] else f := by
  cases h with
  | test ht =>
    cases ht with
    | absent hkey | equal hkey => simp [rooted, Test.isLiteral, hkey]
    | bits _ hkey | chain _ hkey => simp [rooted, Test.isLiteral, hkey]
  | not hkey | and hkey | or hkey | nor hkey | notAny hkey =>
    rw [hkey]
    rfl

/-- Wherever a test stands in a compiled filter, it has passed the checks that the options ask for.
The filter is that of the first pair, with a group around it when the key of this pair is no
keyword. Without this group, and without the negations of members, it has no more nodes, and no more
groups and negations above a leaf, than the options allow. -/
theorem passes_and_within_of_compile {d : Json} {f : Filter} (h : compile o d = .ok f) :
    (∀ t, .test t ∈ f.nodes → t.Passes o) ∧
    ∃ key value rest g, d = .object ((key, value) :: rest) ∧
      f = (if Keyword.ofKey? key = none then .andOf [g] else g) ∧ g.Within o := by
  obtain ⟨key, value, rest, g, hd, hg, hf, hcount, hnesting⟩ := compile_eq_ok_iff.1 h
  constructor
  · intro t ht
    rw [Filter.test_mem_nodes_iff, hf, tests_rooted] at ht
    obtain ⟨p, hp⟩ := exists_forall₂_iff.1 ⟨_, hg.forall₂_leaves.flip⟩ t ht
    exact hp.passes
  · exact ⟨key, value, rest, g, hd, hf.trans hg.rooted_eq, hg.within hcount hnesting⟩

/-- Strict options that leave room for two pairs in a payload, and for one attribute. -/
def narrowOptions : Options :=
  { Options.strict with maxDepth := 1, maxNodes := 2, allowedAttributes := ["CN"] }

theorem passes_and_within_of_strict_nor :
    compile narrowOptions (Json.single "nor" (.array [Json.single "cn" (.string "a*")])) =
      .ok (.noneOf [.equal "cn" "a\\2a"]) ∧
    (Test.equal "cn" "a\\2a").Passes narrowOptions ∧
    (Filter.noneOf [.equal "cn" "a\\2a"]).nodes.length = 3 ∧
    (Filter.noneOf [.equal "cn" "a\\2a"]).Within narrowOptions := by
  have hcompile : compile narrowOptions
        (Json.single "nor" (.array [Json.single "cn" (.string "a*")])) =
      .ok (.noneOf [.equal "cn" "a\\2a"]) := by
    rfl
  obtain ⟨htests, key, value, rest, g, hd, hf, hwithin⟩ := passes_and_within_of_compile hcompile
  cases hd
  rw [if_neg (by decide)] at hf
  subst hf
  exact ⟨hcompile, htests _ (Filter.test_mem_nodes_iff.2 List.mem_cons_self), rfl, hwithin⟩

end Query

end LdapFilter
