import LdapFilter.Proofs.Filter.Built
import Mathlib.Data.List.ReduceOption

/-!
# Insertions

A group may be made from a list of children, by the builder form of an insertion again and again, or
by insertions in place, some of which may be refused or have nothing to insert. One insertion into a
group of some children makes the group of one child more, or returns an error and leaves the group
as it was (`run_insert_of_gather_eq_ok`, `run_insert_of_gather_eq_error`). By induction a group is
that of the children that were taken, however it came about (`insertAll_empty_and_norOf`).
-/

namespace LdapFilter.Filter

open Query (Group)

variable {f g : Filter} {child : Option Filter} {group : Group} {children : List Filter}
  {e : FilterError}

/-! ### One insertion -/

/-- An insertion in place fails as the builder form does. It leaves behind what the builder form
gives, and the filter as it was if that is nothing. -/
theorem run_insert (child : Option Filter) (f : Filter) :
    (insert child).run.run f = ((fun _ => ()) <$> f.push child, f.offer child) := by
  cases child with
  | none =>
    rw [offer, push_none]
    rfl
  | some c =>
    cases f with
    | test | not | and | or => rfl
    | nor => cases c <;> rfl

/-- An insertion that fails changes nothing. -/
theorem eq_of_run_insert_eq_error (h : (insert child).run.run f = (.error e, g)) : g = f := by
  rw [run_insert] at h
  obtain ⟨herror, rfl⟩ := Prod.mk.inj h
  rw [offer, Except.map_eq_error_iff.1 herror]

/-- Neither a test nor a negation takes a child. -/
theorem run_insert_of_isLeaf_or_not (h : f.isLeaf = true ∨ f.kind = .not) (c : Filter) :
    (insert (some c)).run.run f = (.error (.notAGroup f.kind), f) := by
  cases f with
  | test | not => rfl
  | and | or | nor => simp [isLeaf, kind, Kind.isLeaf] at h

/-! ### Making groups -/

/-- A nor group of tests and then of further children is made when these are tests, too. -/
theorem norOf_map_test_append (tests : List Test) (others : List Filter) :
    norOf (tests.map .test ++ others) =
      (fun us => noneOf (tests ++ us)) <$> others.mapM (asTest .nor) := by
  rw [norOf, List.mapM_append, Query.mapM_asTest_eq_ok_iff.2 rfl]
  cases others.mapM (asTest .nor) <;> rfl

/-- The leaves are what a nor group is made of. -/
theorem exists_norOf_iff : (∃ f, norOf children = .ok f) ↔ ∀ c ∈ children, c.isLeaf = true := by
  simp only [Query.norOf_eq_ok_iff, isLeaf_iff]
  constructor
  · rintro ⟨_, tests, rfl, -⟩ c hc
    obtain ⟨t, -, rfl⟩ := List.mem_map.1 hc
    exact ⟨t, rfl⟩
  · intro h
    obtain ⟨tests, htests⟩ := exists_forall₂_iff.2 h
    refine ⟨_, tests, ?_, rfl⟩
    rw [← List.forall₂_eq_eq_eq, List.forall₂_map_right_iff]
    exact htests

theorem asTest_of_isLeaf_eq_false {c : Filter} (h : c.isLeaf = false) (parent : Kind) :
    c.asTest parent = .error (.invalidChild parent c.kind) := by
  cases c with
  | test t => simp at h
  | not | and | or | nor => rfl

/-- The first child that is not a leaf is why a nor group is not made. -/
theorem norOf_append_cons {before : List Filter} {c : Filter} (after : List Filter)
    (hbefore : ∀ b ∈ before, b.isLeaf = true) (hc : c.isLeaf = false) :
    norOf (before ++ c :: after) = .error (.invalidChild .nor c.kind) := by
  obtain ⟨_, h⟩ := exists_norOf_iff.2 hbefore
  obtain ⟨tests, rfl, -⟩ := Query.norOf_eq_ok_iff.1 h
  rw [norOf_map_test_append, List.mapM_cons, asTest_of_isLeaf_eq_false hc]
  rfl

/-- The builder form of an insertion makes the group of one child more. -/
theorem push_of_gather (h : group.gather children = .ok g) (c : Filter) :
    g.push (some c) = group.gather (children ++ [c]) := by
  cases group with
  | and =>
    cases h
    exact push_andOf children c
  | or =>
    cases h
    exact push_orOf children c
  | nor =>
    obtain ⟨tests, rfl, rfl⟩ := Query.norOf_eq_ok_iff.1 h
    rw [push_noneOf, Group.gather, norOf_map_test_append, List.mapM_cons, List.mapM_nil]
    cases c.asTest .nor <;> rfl

/-- A group that is not made of some children is not made of more. -/
theorem gather_append_of_error (h : group.gather children = .error e) (others : List Filter) :
    group.gather (children ++ others) = .error e := by
  cases group with
  | and | or => cases h
  | nor =>
    rw [Group.gather, norOf, Except.map_eq_error_iff] at h
    rw [Group.gather, norOf, List.mapM_append, h]
    rfl

theorem gather_nil (group : Group) (room : Nat) : group.gather [] = .ok (group.empty room) := by
  cases group <;> rfl

/-! ### Insertions by the builder form -/

/-- Insertions one by one, which stop at the first child that is refused. -/
def pushAll (f : Filter) (children : List Filter) : Except FilterError Filter :=
  children.foldlM (fun f child => f.push (some child)) f

/-- A group after insertions is the group of the old children and then the new ones. -/
theorem pushAll_of_gather {others : List Filter} (h : group.gather children = .ok g) :
    pushAll g others = group.gather (children ++ others) := by
  induction others generalizing children g with
  | nil =>
    rw [List.append_nil, h]
    rfl
  | cons c others ih =>
    rw [pushAll, List.foldlM_cons, push_of_gather h, List.append_cons children c others]
    cases hnext : group.gather (children ++ [c]) with
    | error e =>
      rw [gather_append_of_error hnext]
      rfl
    | ok g' => exact ih hnext

/-- A nor group after insertions has the old members and then the new ones, all of them tests. -/
theorem pushAll_noneOf_eq_ok_iff {ts : List Test} {children : List Filter} {f : Filter} :
    pushAll (noneOf ts) children = .ok f ↔
      ∃ us : List Test, children = us.map .test ∧ f = noneOf (ts ++ us) := by
  have hmembers : Group.nor.gather (ts.map .test) = .ok (noneOf ts) :=
    Query.norOf_eq_ok_iff.2 ⟨ts, rfl, rfl⟩
  rw [pushAll_of_gather hmembers, Group.gather, norOf_map_test_append, Except.map_eq_ok_iff]
  simp only [Query.mapM_asTest_eq_ok_iff, eq_comm (a := f)]

/-! ### Insertions in place -/

/-- Insertions in place one after the other, whatever becomes of each of them. -/
def insertAll (children : List (Option Filter)) : StateM Filter (List (Except FilterError Unit)) :=
  children.mapM fun child => (insert child).run

/-- The children that insertions took, going by what the insertions returned. -/
def accepted : List (Option Filter) → List (Except FilterError Unit) → List Filter
  | some c :: children, .ok _ :: results => c :: accepted children results
  | _ :: children, _ :: results => accepted children results
  | _, _ => []

theorem run_insertAll_cons (child : Option Filter) (children : List (Option Filter)) (f : Filter) :
    (insertAll (child :: children)).run f =
      (((insert child).run.run f).1 :: ((insertAll children).run ((insert child).run.run f).2).1,
        ((insertAll children).run ((insert child).run.run f).2).2) := by
  simp only [insertAll, List.mapM_cons]
  rfl

/-- A nor group takes leaves only, and the other groups take everything. -/
theorem exists_gather_append_iff (h : group.gather children = .ok g) (c : Filter) :
    (∃ g', group.gather (children ++ [c]) = .ok g') ↔ group ≠ .nor ∨ c.isLeaf = true := by
  cases group with
  | and | or => simp [Group.gather]
  | nor =>
    have hleaves := exists_norOf_iff.1 ⟨g, h⟩
    rw [Group.gather, exists_norOf_iff, List.forall_mem_append, List.forall_mem_singleton]
    exact ⟨fun hall => Or.inr hall.2, fun hc => ⟨hleaves, hc.resolve_left (absurd rfl)⟩⟩

/-- An insertion into a group of some children makes the group of one child more if there is such a
group, and changes nothing if there is none. -/
theorem run_insert_of_gather_eq_ok {c : Filter} (h : group.gather children = .ok g)
    (hnext : group.gather (children ++ [c]) = .ok f) :
    (insert (some c)).run.run g = (.ok (), f) := by
  rw [run_insert, offer, push_of_gather h, hnext]
  rfl

theorem run_insert_of_gather_eq_error {c : Filter} (h : group.gather children = .ok g)
    (hnext : group.gather (children ++ [c]) = .error e) :
    (insert (some c)).run.run g = (.error e, g) := by
  rw [run_insert, offer, push_of_gather h, hnext]
  rfl

/-- Insertions of children of which there is a group all succeed, and make this group. -/
theorem run_insertAll_of_gather {others : List Filter} (h : group.gather children = .ok g)
    (hf : group.gather (children ++ others) = .ok f) :
    (insertAll (others.map some)).run g = (others.map fun _ => .ok (), f) := by
  induction others generalizing children g with
  | nil =>
    rw [List.append_nil, h] at hf
    cases hf
    rfl
  | cons c others ih =>
    rw [List.append_cons] at hf
    cases hnext : group.gather (children ++ [c]) with
    | error e =>
      rw [gather_append_of_error hnext] at hf
      cases hf
    | ok g' =>
      rw [List.map_cons, run_insertAll_cons, run_insert_of_gather_eq_ok h hnext, ih hnext hf]
      rfl

/-- Insertions into a group of some children make the group of these and the accepted children,
which are all that the group takes. -/
theorem gather_accepted_insertAll (h : group.gather children = .ok g)
    (others : List (Option Filter)) :
    group.gather (children ++ accepted others ((insertAll others).run g).1) =
        .ok ((insertAll others).run g).2 ∧
      accepted others ((insertAll others).run g).1 =
        others.reduceOption.filter fun c => group ≠ .nor ∨ c.isLeaf = true := by
  induction others generalizing children g with
  | nil =>
    have hnone : accepted [] ((insertAll []).run g).1 = [] := rfl
    rw [hnone, List.append_nil]
    exact ⟨h, rfl⟩
  | cons child others ih =>
    rw [run_insertAll_cons]
    cases child with
    | none => exact ih h
    | some c =>
      rw [List.reduceOption_cons_of_some]
      cases hnext : group.gather (children ++ [c]) with
      | error e =>
        have hrefused : ¬ (group ≠ .nor ∨ c.isLeaf = true) := by
          rw [← exists_gather_append_iff h, hnext]
          exact nofun
        rw [run_insert_of_gather_eq_error h hnext,
          List.filter_cons_of_neg (by simpa using hrefused)]
        exact ih h
      | ok g' =>
        have htaken := (exists_gather_append_iff h c).1 ⟨g', hnext⟩
        obtain ⟨hgather, haccepted⟩ := ih hnext
        rw [run_insert_of_gather_eq_ok h hnext, List.filter_cons_of_pos (by simpa using htaken)]
        rw [← List.append_cons] at hgather
        exact ⟨hgather, congrArg (c :: ·) haccepted⟩

/-- However a group came about, it is the group of the children that it took. Insertions that are
refused, or have nothing to insert, leave no trace; they are those of any child into what is no
group, and of a child that is not a leaf into a nor group. -/
theorem insertAll_empty_and_norOf :
    (∀ (group : Group) (room : Nat) (children : List (Option Filter))
        (results : List (Except FilterError Unit)) (f : Filter),
      (insertAll children).run (group.empty room) = (results, f) →
      accepted children results =
          children.reduceOption.filter (fun c => group ≠ .nor ∨ c.isLeaf = true) ∧
        (insertAll ((accepted children results).map some)).run (group.empty room) =
          ((accepted children results).map fun _ => .ok (), f) ∧
        pushAll (group.empty room) (accepted children results) = .ok f ∧
        group.gather (accepted children results) = .ok f) ∧
    (∀ (group : Group) (room : Nat) (children : List Filter),
      pushAll (group.empty room) children = group.gather children) ∧
    (∀ f : Filter, (insert none).run.run f = (.ok (), f)) ∧
    (∀ (child : Option Filter) (f g : Filter) (e : FilterError),
      (insert child).run.run f = (.error e, g) → g = f) ∧
    (∀ f c : Filter, f.isLeaf = true ∨ f.kind = .not →
      (insert (some c)).run.run f = (.error (.notAGroup f.kind), f)) ∧
    (∀ children : List Filter,
      (∃ f, norOf children = .ok f) ↔ ∀ c ∈ children, c.isLeaf = true) ∧
    ∀ (before : List Filter) (c : Filter) (after : List Filter),
      (∀ b ∈ before, b.isLeaf = true) → c.isLeaf = false →
      norOf (before ++ c :: after) = .error (.invalidChild .nor c.kind) := by
  refine ⟨fun group room children results f h => ?_,
    fun group room children => pushAll_of_gather (gather_nil group room), fun f => rfl,
    fun child f g e => eq_of_run_insert_eq_error, fun f c h => run_insert_of_isLeaf_or_not h c,
    fun children => exists_norOf_iff, fun before c after => norOf_append_cons after⟩
  have hempty := gather_nil group room
  obtain ⟨hgather, haccepted⟩ := gather_accepted_insertAll hempty children
  rw [h, List.nil_append] at hgather
  rw [h] at haccepted
  refine ⟨haccepted, run_insertAll_of_gather hempty hgather, ?_, hgather⟩
  rw [pushAll_of_gather hempty, List.nil_append, hgather]

theorem insertAll_of_nested_group :
    (insertAll [some (.test (.equal "cn" "x")), none, some (andOf []),
        some (.test (.inChain "manager" "y"))]).run (Group.nor.empty 2) =
      ([.ok (), .ok (), .error (.invalidChild .nor .and), .ok ()],
        noneOf [.equal "cn" "x", .inChain "manager" "y"]) ∧
    (insertAll [some (.test (.equal "cn" "x")), some (.test (.inChain "manager" "y"))]).run
      (Group.nor.empty 2) = ([.ok (), .ok ()], noneOf [.equal "cn" "x", .inChain "manager" "y"]) ∧
    ((insert (some (andOf []))).run.run (noneOf [.equal "cn" "x"])).2 = noneOf [.equal "cn" "x"] ∧
    (insert (some (andOf []))).run.run (.test (.equal "cn" "x")) =
      (.error (.notAGroup .equal), .test (.equal "cn" "x")) ∧
    norOf [.test (.equal "cn" "x"), andOf [], orOf []] = .error (.invalidChild .nor .and) := by
  obtain ⟨hhistory, -, -, hrefused, hnoGroup, -, hfirst⟩ := insertAll_empty_and_norOf
  have hrun : (insertAll [some (.test (.equal "cn" "x")), none, some (andOf []),
      some (.test (.inChain "manager" "y"))]).run (Group.nor.empty 2) =
        ([.ok (), .ok (), .error (.invalidChild .nor .and), .ok ()],
          noneOf [.equal "cn" "x", .inChain "manager" "y"]) := rfl
  obtain ⟨-, hagain, -, -⟩ := hhistory .nor 2 _ _ _ hrun
  refine ⟨hrun, hagain, ?_, ?_, ?_⟩
  · exact hrefused (some (andOf [])) (noneOf [.equal "cn" "x"]) _ (.invalidChild .nor .and) rfl
  · exact hnoGroup (.test (.equal "cn" "x")) (andOf []) (Or.inl rfl)
  · exact hfirst [.test (.equal "cn" "x")] (andOf []) [orOf []]
      (List.forall_mem_singleton.2 rfl) rfl

end LdapFilter.Filter
