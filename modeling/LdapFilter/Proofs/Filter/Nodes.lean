import LdapFilter.Proofs.Query.Acceptance
import LdapFilter.Proofs.Query.Measures

/-!
# The nodes of a filter

A filter is a node, and so is everything that can be reached from it by going from a node to one of
its children. What holds of a filter and passes from each node to its children holds of all nodes
(`forall_mem_nodes`).

The negations that a nor group puts around its literal members are nodes too. Without them, a
filter has as many nodes as pairs stand for it (`length_nodes`), and no more groups and negations
stand above a leaf than payloads are nested in these pairs (`length_le_nesting_of_mem_branches`).
-/

namespace LdapFilter.Filter

/-! ### Nodes -/

/-- The nodes that a member of a nor group has there. -/
def memberNodes (t : Test) : List Filter :=
  if t.isLiteral then [.not t, .test t] else [.test t]

mutual
/-- The nodes of a filter, the filter itself first. -/
def nodes : Filter → List Filter
  | .test t => [.test t]
  | .not t => [.not t, .test t]
  | .and children size => .and children size :: allNodes children
  | .or children size => .or children size :: allNodes children
  | .nor members size => .nor members size :: members.flatMap memberNodes

def allNodes : List Filter → List Filter
  | [] => []
  | f :: fs => f.nodes ++ allNodes fs
end

theorem allNodes_eq_flatMap (fs : List Filter) : allNodes fs = fs.flatMap nodes := by
  induction fs with
  | nil => rfl
  | cons f fs ih => rw [allNodes, ih, List.flatMap_cons]

theorem nodes_ofMember (t : Test) : (ofMember t).nodes = memberNodes t := by
  unfold ofMember memberNodes
  split <;> rfl

/-- The nodes of a filter are the filter and the nodes of its children. -/
theorem nodes_eq (f : Filter) : f.nodes = f :: f.children.flatMap nodes := by
  cases f with
  | test t => rfl
  | not t => rfl
  | and children _ => rw [nodes, Filter.children, allNodes_eq_flatMap]
  | or children _ => rw [nodes, Filter.children, allNodes_eq_flatMap]
  | nor members _ =>
    rw [nodes, Filter.children, List.flatMap_map]
    simp only [nodes_ofMember]

theorem length_nodes_lt_of_mem_children {f c : Filter} (h : c ∈ f.children) :
    c.nodes.length < f.nodes.length := by
  have hsub := (List.sublist_flatten_of_mem (List.mem_map_of_mem (f := nodes) h)).length_le
  rw [nodes_eq f, List.length_cons, List.flatMap_def]
  exact Nat.lt_succ_of_le hsub

mutual
/-- What passes from every node to its children holds of all nodes once it holds of the filter. -/
theorem forall_mem_nodes {P : Filter → Prop} (hchild : ∀ f, P f → ∀ c ∈ f.children, P c)
    {f : Filter} (hf : P f) : ∀ g ∈ f.nodes, P g := by
  have hmembers := hchild f hf
  match f with
  | .test t =>
    rw [nodes, List.forall_mem_singleton]
    exact hf
  | .not t =>
    rw [nodes, List.forall_mem_cons]
    exact ⟨hf, hmembers⟩
  | .and children _ | .or children _ =>
    rw [nodes, List.forall_mem_cons]
    exact ⟨hf, forall_mem_allNodes hchild hmembers⟩
  | .nor members _ =>
    rw [nodes, List.forall_mem_cons, List.forall_mem_flatMap]
    refine ⟨hf, fun t ht => ?_⟩
    -- A literal stands here as two nodes, its negation and the literal itself.
    have hmember := hmembers (ofMember t) (List.mem_map_of_mem ht)
    unfold memberNodes
    unfold ofMember at hmember
    split
    · next hliteral =>
      rw [if_pos hliteral] at hmember
      rw [List.forall_mem_cons]
      exact ⟨hmember, hchild _ hmember⟩
    · next hliteral =>
      rw [if_neg hliteral] at hmember
      rw [List.forall_mem_singleton]
      exact hmember

theorem forall_mem_allNodes {P : Filter → Prop} (hchild : ∀ f, P f → ∀ c ∈ f.children, P c)
    {fs : List Filter} (hfs : ∀ f ∈ fs, P f) : ∀ g ∈ allNodes fs, P g := by
  match fs with
  | [] => simp [allNodes]
  | f :: fs =>
    rw [List.forall_mem_cons] at hfs
    rw [allNodes, List.forall_mem_append]
    exact ⟨forall_mem_nodes hchild hfs.1, forall_mem_allNodes hchild hfs.2⟩
end

/-! ### Leaves -/

theorem test_mem_memberNodes_iff {s t : Test} : .test s ∈ memberNodes t ↔ s = t := by
  unfold memberNodes
  split <;> simp

mutual
/-- The leaves among the nodes are the tests of a filter. -/
theorem test_mem_nodes_iff {t : Test} {f : Filter} : .test t ∈ f.nodes ↔ t ∈ f.tests := by
  match f with
  | .test s | .not s => simp [nodes, tests]
  | .and children _ | .or children _ => simp [nodes, tests, test_mem_allNodes_iff]
  | .nor members _ => simp [nodes, tests, test_mem_memberNodes_iff]

theorem test_mem_allNodes_iff {t : Test} {fs : List Filter} :
    .test t ∈ allNodes fs ↔ t ∈ allTests fs := by
  match fs with
  | [] => simp [allNodes, allTests]
  | f :: fs => simp [allNodes, allTests, test_mem_nodes_iff, test_mem_allNodes_iff]
end

/-! ### How many nodes -/

mutual
/-- How many members of nor groups stand there negated. -/
def memberNegations : Filter → Nat
  | .test _ | .not _ => 0
  | .and children _ | .or children _ => allMemberNegations children
  | .nor members _ => members.countP Test.isLiteral

def allMemberNegations : List Filter → Nat
  | [] => 0
  | f :: fs => f.memberNegations + allMemberNegations fs
end

theorem length_flatMap_memberNodes (ts : List Test) :
    (ts.flatMap memberNodes).length = ts.length + ts.countP Test.isLiteral := by
  induction ts with
  | nil => rfl
  | cons t ts ih =>
    rw [List.flatMap_cons, List.length_append, ih, List.length_cons, List.countP_cons, memberNodes]
    split <;> simp <;> omega

mutual
/-- Apart from the negations of members, a filter has as many nodes as pairs that stand for it. -/
theorem length_nodes (f : Filter) : f.nodes.length = f.pairCount + f.memberNegations := by
  match f with
  | .test _ | .not _ => rfl
  | .and children _ | .or children _ =>
    have hlength := length_allNodes children
    simp only [nodes, List.length_cons, pairCount, memberNegations]
    omega
  | .nor members _ =>
    have hlength := length_flatMap_memberNodes members
    simp only [nodes, List.length_cons, pairCount, memberNegations]
    omega

theorem length_allNodes (fs : List Filter) :
    (allNodes fs).length = pairCounts fs + allMemberNegations fs := by
  match fs with
  | [] => rfl
  | f :: fs =>
    rw [allNodes, List.length_append, length_nodes f, length_allNodes fs, pairCounts,
      allMemberNegations]
    omega
end

/-! ### Branches -/

mutual
/-- The leaves of a filter, each with the groups and negations above it, from the root down. The
negation of a member of a nor group is left out. -/
def branches : Filter → List (List Kind × Test)
  | .test t => [([], t)]
  | .not t => [([.not], t)]
  | .and children _ => (allBranches children).map fun b => (.and :: b.1, b.2)
  | .or children _ => (allBranches children).map fun b => (.or :: b.1, b.2)
  | .nor members _ => members.map fun t => ([.nor], t)

def allBranches : List Filter → List (List Kind × Test)
  | [] => []
  | f :: fs => f.branches ++ allBranches fs
end

mutual
theorem length_le_nesting_of_mem_branches {f : Filter} :
    ∀ b ∈ f.branches, b.1.length ≤ f.nesting := by
  match f with
  | .test _ | .not _ => simp [branches, nesting]
  | .and children _ | .or children _ =>
    intro b hb
    obtain ⟨c, hc, rfl⟩ := List.mem_map.1 hb
    have hle := length_le_nestings_of_mem_allBranches c hc
    rw [List.length_cons, nesting]
    omega
  | .nor members _ =>
    intro b hb
    obtain ⟨t, -, rfl⟩ := List.mem_map.1 hb
    exact Nat.le_refl 1

theorem length_le_nestings_of_mem_allBranches {fs : List Filter} :
    ∀ b ∈ allBranches fs, b.1.length ≤ nestings fs := by
  match fs with
  | [] => simp [allBranches]
  | f :: fs =>
    rw [allBranches, List.forall_mem_append]
    constructor
    · intro b hb
      exact Nat.le_trans (length_le_nesting_of_mem_branches b hb) (Nat.le_max_left _ _)
    · intro b hb
      exact Nat.le_trans (length_le_nestings_of_mem_allBranches b hb) (Nat.le_max_right _ _)
end

end LdapFilter.Filter
