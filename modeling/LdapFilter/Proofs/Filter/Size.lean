import LdapFilter.Filter.Equality
import LdapFilter.Filter.Render
import LdapFilter.Proofs.Filter.Built

/-!
# Sizes of filters

The size of a filter is computed when the filter is made, and that of a group with each insertion.
It is the number of bytes of the text at every node of every filter that can be built, so it never
tells two filters apart whose parts are the same (`size_eq_and_beq_iff_alike`).
-/

namespace LdapFilter

open Text

/-! ### Bytes of texts -/

/-- A text of ASCII characters has as many bytes as characters. -/
theorem utf8ByteSize_ofList_of_toNat_lt {cs : List Char} (h : ∀ c ∈ cs, c.toNat < 128) :
    (String.ofList cs).utf8ByteSize = cs.length := by
  induction cs with
  | nil => rfl
  | cons c cs ih =>
    rw [List.forall_mem_cons] at h
    have hc : c.utf8Size = 1 := by
      rw [Char.utf8Size_eq_one_iff, UInt32.le_iff_toNat_le]
      exact Nat.le_of_lt_succ h.1
    rw [String.ofList_cons, String.utf8ByteSize_append, String.utf8ByteSize_singleton, hc, ih h.2,
      List.length_cons, Nat.add_comm]

theorem utf8ByteSize_decimal (n : Int) : (Decimal.text n).utf8ByteSize = Decimal.width n := by
  rw [Decimal.text, utf8ByteSize_ofList_of_toNat_lt fun c => Decimal.toNat_lt_of_mem_ofInt,
    Decimal.length_ofInt]

namespace Test

theorem utf8ByteSize_comparison (property value : String) :
    ("(" ++ property ++ "=" ++ value ++ ")").utf8ByteSize =
      property.utf8ByteSize + value.utf8ByteSize + equalOverhead := by
  simp only [String.utf8ByteSize_append]
  show 1 + _ + 1 + _ + 1 = _ + _ + 3
  omega

theorem utf8ByteSize_render (t : Test) : t.render.utf8ByteSize = t.size := by
  cases t with
  | equal attr value => exact utf8ByteSize_comparison _ value
  | absent attr =>
    simp only [render, size, String.utf8ByteSize_append]
    show 3 + _ + 4 = _ + 7
    omega
  | bitwise rule attr mask =>
    rw [render, utf8ByteSize_comparison, utf8ByteSize_decimal]
    rfl
  | inChain attr entry => exact utf8ByteSize_comparison _ entry

end Test

namespace Filter

theorem utf8ByteSize_group {op text : String} (hop : op.utf8ByteSize = 2) :
    (op ++ text ++ ")").utf8ByteSize = groupOverhead + text.utf8ByteSize := by
  rw [String.utf8ByteSize_append, String.utf8ByteSize_append, hop]
  show 2 + _ + 1 = 3 + _
  omega

theorem utf8ByteSize_renderNegated (t : Test) :
    t.renderNegated.utf8ByteSize = t.size + groupOverhead := by
  rw [Test.renderNegated, utf8ByteSize_group rfl, Test.utf8ByteSize_render, Nat.add_comm]

theorem utf8ByteSize_renderAll {fs : List Filter} (h : ∀ f ∈ fs, f.render.utf8ByteSize = f.size) :
    (renderAll fs).utf8ByteSize = totalSize fs := by
  induction fs with
  | nil => rfl
  | cons f fs ih =>
    rw [List.forall_mem_cons] at h
    rw [renderAll, String.utf8ByteSize_append, h.1, ih h.2, totalSize]

theorem utf8ByteSize_renderMembers (ts : List Test) :
    (Test.renderMembers ts).utf8ByteSize = totalSize (ts.map ofMember) := by
  rw [← renderAll_map_ofMember]
  apply utf8ByteSize_renderAll
  intro f hf
  obtain ⟨t, -, rfl⟩ := List.mem_map.1 hf
  unfold ofMember
  split
  · exact utf8ByteSize_renderNegated t
  · exact t.utf8ByteSize_render

/-- A sound filter is rendered to as many bytes as its size says. -/
theorem Sound.utf8ByteSize_render {f : Filter} (hf : Sound f) :
    f.render.utf8ByteSize = f.size := by
  induction hf with
  | test => rw [render, Test.utf8ByteSize_render, size]
  | not => rw [render, utf8ByteSize_renderNegated, size]
  | and _ ih =>
    rw [andOf, render, utf8ByteSize_group rfl, utf8ByteSize_renderAll ih, size]
  | or _ ih =>
    rw [orOf, render, utf8ByteSize_group rfl, utf8ByteSize_renderAll ih, size]
  | nor _ =>
    rw [noneOf, render, utf8ByteSize_group rfl, utf8ByteSize_renderMembers, size]

/-! ### Equality without sizes -/

/-- Filters of one kind with the same fields and with children that are alike one by one. Their
sizes are not compared. -/
inductive Alike : Filter → Filter → Prop
  | intro {f g : Filter} (hkind : f.kind = g.kind) (htest : f.test? = g.test?)
      (hchildren : List.Forall₂ Alike f.children g.children) : Alike f g

/-- Every filter is like itself. -/
theorem Alike.refl (f : Filter) : Alike f f := by
  apply Alike.intro rfl rfl
  rw [List.forall₂_same]
  intro c hc
  -- The lists of children hide the recursion, so it goes by the number of nodes.
  exact Alike.refl c
termination_by f.nodes.length
decreasing_by exact length_nodes_lt_of_mem_children hc

theorem ofMember_injective : Function.Injective ofMember := by
  intro s t h
  unfold ofMember at h
  split at h <;> split at h <;> cases h <;> rfl

/-- The kind, the test and the children of a sound filter leave nothing of it open. -/
theorem Sound.eq_of_parts {f g : Filter} (hf : Sound f) (hg : Sound g) (hkind : f.kind = g.kind)
    (htest : f.test? = g.test?) (hchildren : f.children = g.children) : f = g := by
  by_cases hleaf : f.isLeaf = true
  · have hleaf' : g.isLeaf = true := by rwa [isLeaf, ← hkind]
    obtain ⟨s, rfl⟩ := isLeaf_iff.1 hleaf
    obtain ⟨t, rfl⟩ := isLeaf_iff.1 hleaf'
    exact congrArg Filter.test (Option.some.inj htest)
  · have hleaf' : ¬ g.isLeaf = true := by rwa [isLeaf, ← hkind]
    cases hf with
    | test => exact absurd (isLeaf_test _) hleaf
    | not =>
      cases hg with
      | test => exact absurd (isLeaf_test _) hleaf'
      | not =>
        cases hchildren
        rfl
      | and | or | nor => cases hkind
    | and =>
      cases hg with
      | test => exact absurd (isLeaf_test _) hleaf'
      | and => exact congrArg andOf hchildren
      | not | or | nor => cases hkind
    | or =>
      cases hg with
      | test => exact absurd (isLeaf_test _) hleaf'
      | or => exact congrArg orOf hchildren
      | not | and | nor => cases hkind
    | nor =>
      cases hg with
      | test => exact absurd (isLeaf_test _) hleaf'
      | nor => exact congrArg noneOf (ofMember_injective.list_map hchildren)
      | not | and | or => cases hkind

/-- Sound filters that are alike are equal. -/
theorem Alike.eq {f g : Filter} (hf : Sound f) (hg : Sound g) (h : Alike f g) : f = g := by
  obtain ⟨hkind, htest, hchildren⟩ := h
  apply hf.eq_of_parts hg hkind htest
  apply eq_of_forall₂ hchildren
  intro c hc d hd hcd
  exact Alike.eq (hf.children c hc) (hg.children d hd) hcd
termination_by f.nodes.length
decreasing_by exact length_nodes_lt_of_mem_children hc

/-- At every node of a filter that can be built, the size is the number of bytes of the text. Two
such filters are equal exactly when they are alike. -/
theorem size_eq_and_beq_iff_alike :
    (∀ f : Filter, Built f → ∀ g ∈ f.nodes, g.size = g.render.utf8ByteSize) ∧
    ∀ f g : Filter, Built f → Built g → (f.beq g = true ↔ Alike f g) := by
  constructor
  · intro f hf g hg
    exact (hf.of_mem_nodes g hg).sound.utf8ByteSize_render.symm
  · intro f g hf hg
    rw [beq_iff]
    constructor
    · rintro rfl
      exact Alike.refl f
    · exact Alike.eq hf.sound hg.sound

theorem size_eq_and_beq_of_insertion :
    Built (noneOf [.equal "cn" "é", .bitwise .any "flags" Int64.minValue]) ∧
    (∀ g ∈ (noneOf [.equal "cn" "é", .bitwise .any "flags" Int64.minValue]).nodes,
      g.size = g.render.utf8ByteSize) ∧
    Built ((noneOf [.equal "cn" "é"]).offer (some (.test (.bitwise .any "flags" Int64.minValue)))) ∧
    (noneOf [.equal "cn" "é", .bitwise .any "flags" Int64.minValue]).beq
      ((noneOf [.equal "cn" "é"]).offer
        (some (.test (.bitwise .any "flags" Int64.minValue)))) = true := by
  have hequal : Built (.test (.equal "cn" "é")) := @Built.equal "cn" "é" _ rfl
  have hbor : Built (.test (.bitwise .any "flags" Int64.minValue)) :=
    @Built.bor "flags" Int64.minValue _ rfl
  have hnor : Built (noneOf [.equal "cn" "é", .bitwise .any "flags" Int64.minValue]) := by
    apply Built.noneOf
    rw [List.forall_mem_cons, List.forall_mem_singleton]
    exact ⟨hequal, hbor⟩
  have hoffer : Built ((noneOf [.equal "cn" "é"]).offer
      (some (.test (.bitwise .any "flags" Int64.minValue)))) := by
    apply Built.offer
    · apply Built.noneOf
      rw [List.forall_mem_singleton]
      exact hequal
    · rintro c ⟨⟩
      exact hbor
  have halike : Alike (noneOf [.equal "cn" "é", .bitwise .any "flags" Int64.minValue])
      ((noneOf [.equal "cn" "é"]).offer (some (.test (.bitwise .any "flags" Int64.minValue)))) := by
    rw [offer, push_noneOf]
    exact Alike.refl (noneOf [.equal "cn" "é", .bitwise .any "flags" Int64.minValue])
  obtain ⟨hsize, hbeq⟩ := size_eq_and_beq_iff_alike
  exact ⟨hnor, hsize _ hnor, hoffer, (hbeq _ _ hnor hoffer).2 halike⟩

end Filter

end LdapFilter
