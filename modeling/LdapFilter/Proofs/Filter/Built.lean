import LdapFilter.Proofs.Filter.Nodes

/-!
# Filters that can be built

`Built` has one rule for each operation that makes a filter: the constructors, insertions, taking a
copy of a child, and compiling a document. Whatever the order in which they are used, they make
exactly the filters with proper tests and exact sizes at every node (`built_iff_sound`).
-/

namespace LdapFilter

/-! ### Proper tests -/

namespace Test

/-- The value that an equality compares with. -/
def value? : Test → Option String
  | .equal _ value => some value
  | _ => none

/-- Neither the attribute of a test nor the value of an equality is empty. -/
structure IsProper (t : Test) : Prop where
  attr_ne_empty : t.attr ≠ ""
  value?_ne_empty : t.value? ≠ some ""

variable {attr : String} {t : Test}

theorem isProper_equal {value : String} (hattr : attr ≠ "") (hvalue : value ≠ "") :
    (Test.equal attr value).IsProper :=
  ⟨hattr, fun h => hvalue (Option.some.inj h)⟩

theorem isProper_of_value?_eq_none (hattr : t.attr ≠ "") (hvalue : t.value? = none) :
    t.IsProper :=
  ⟨hattr, by simp [hvalue]⟩

theorem isProper_of_ofValue {value : Option String} (h : ofValue attr value = .ok t) :
    t.IsProper := by
  obtain ⟨hattr, rfl⟩ := ofValue_eq_ok_iff.1 h
  split
  · exact isProper_of_value?_eq_none hattr rfl
  · next hvalue => exact isProper_equal hattr hvalue

theorem isProper_of_ofMask {rule : BitRule} {mask : Int64} (h : ofMask rule attr mask = .ok t) :
    t.IsProper := by
  obtain ⟨hattr, rfl⟩ := ofMask_eq_ok_iff.1 h
  exact isProper_of_value?_eq_none hattr rfl

theorem isProper_of_ofEntry {entry : String} (h : ofEntry attr entry = .ok t) : t.IsProper := by
  obtain ⟨hattr, rfl⟩ := ofEntry_eq_ok_iff.1 h
  exact isProper_of_value?_eq_none hattr rfl

end Test

theorem Query.DenotesTest.isProper {o : Options} {key : String} {value : Json} {t : Test}
    (h : DenotesTest o key value t) : t.IsProper := by
  refine ⟨h.isAttribute.ne_empty, ?_⟩
  cases h with
  | equal _ _ _ hvalue => exact fun he => hvalue (Option.some.inj he)
  | absent | bits | chain => exact nofun

namespace Filter

/-! ### Sound filters -/

/-- A filter with proper tests in which every group has the size that its children add up to. -/
inductive Sound : Filter → Prop
  | test {t : Test} (h : t.IsProper) : Sound (.test t)
  | not {t : Test} (h : t.IsProper) : Sound (.not t)
  | and {children : List Filter} (h : ∀ c ∈ children, Sound c) : Sound (.andOf children)
  | or {children : List Filter} (h : ∀ c ∈ children, Sound c) : Sound (.orOf children)
  | nor {members : List Test} (h : ∀ t ∈ members, t.IsProper) : Sound (.noneOf members)

theorem Sound.ofMember {t : Test} (h : t.IsProper) : Sound (ofMember t) := by
  unfold Filter.ofMember
  split
  · exact .not h
  · exact .test h

theorem Sound.isProper_of_test {t : Test} (h : Sound (.test t)) : t.IsProper := by
  cases h with
  | test h => exact h

/-- The children of a sound filter are sound. -/
theorem Sound.children {f : Filter} (hf : Sound f) : ∀ c ∈ f.children, Sound c := by
  intro c hc
  cases hf with
  | test => cases hc
  | not h =>
    rw [List.mem_singleton.1 hc]
    exact .test h
  | and h | or h => exact h c hc
  | nor h =>
    obtain ⟨t, ht, rfl⟩ := List.mem_map.1 hc
    exact .ofMember (h t ht)

/-! ### Insertions -/

/-- What a group of all becomes by an insertion, whatever its size was added up from. -/
theorem push_andOf (children : List Filter) (c : Filter) :
    (andOf children).push (some c) = .ok (andOf (children ++ [c])) := by
  simp [andOf, push, totalSize, Nat.add_assoc]

theorem push_orOf (children : List Filter) (c : Filter) :
    (orOf children).push (some c) = .ok (orOf (children ++ [c])) := by
  simp [orOf, push, totalSize, Nat.add_assoc]

theorem push_noneOf (members : List Test) (c : Filter) :
    (noneOf members).push (some c) =
      (fun t => noneOf (members ++ [t])) <$> c.asTest .nor := by
  cases h : c.asTest .nor with
  | error e => simp [noneOf, push, h, bind, Except.bind, Functor.map, Except.map]
  | ok t =>
    simp [noneOf, push, h, bind, Except.bind, Functor.map, Except.map, pure, Except.pure,
      totalSize, Nat.add_assoc]

/-- A filter that takes a sound child stays sound. -/
theorem Sound.push {f g : Filter} {child : Option Filter} (hf : Sound f)
    (hchild : ∀ c ∈ child, Sound c) (h : f.push child = .ok g) : Sound g := by
  cases child with
  | none =>
    rw [push_none] at h
    cases h
    exact hf
  | some c =>
    have hc := hchild c rfl
    cases hf with
    | test | not => cases h
    | and hchildren =>
      rw [push_andOf] at h
      cases h
      apply Sound.and
      rw [List.forall_mem_append, List.forall_mem_singleton]
      exact ⟨hchildren, hc⟩
    | or hchildren =>
      rw [push_orOf] at h
      cases h
      apply Sound.or
      rw [List.forall_mem_append, List.forall_mem_singleton]
      exact ⟨hchildren, hc⟩
    | nor hmembers =>
      rw [push_noneOf, Except.map_eq_ok_iff] at h
      obtain ⟨t, ht, rfl⟩ := h
      rw [Query.asTest_eq_ok_iff] at ht
      subst ht
      apply Sound.nor
      rw [List.forall_mem_append, List.forall_mem_singleton]
      exact ⟨hmembers, hc.isProper_of_test⟩

/-- Offering a child that is refused changes nothing. -/
theorem offer_cases (f : Filter) (child : Option Filter) :
    f.push child = .ok (f.offer child) ∨ f.offer child = f := by
  unfold offer
  cases h : f.push child with
  | ok g => exact Or.inl rfl
  | error e => exact Or.inr rfl

/-! ### Compiled filters -/

/-- What a pair stands for is sound. -/
theorem sound_of_denotes {o : Options} {key : String} {value : Json} {f : Filter}
    (h : Query.Denotes o key value f) : Sound f := by
  induction key, value using Query.payload_induction generalizing f with
  | h key value ih =>
  have htests : ∀ {ps : List (String × Json)} {tests : List Test},
      List.Forall₂ (fun p t => Query.DenotesTest o p.1 p.2 t) ps tests →
      ∀ t ∈ tests, t.IsProper := by
    intro ps tests hall t ht
    obtain ⟨p, hp⟩ := exists_forall₂_iff.1 ⟨_, hall.flip⟩ t ht
    exact hp.isProper
  have hgroup : ∀ {children : List Filter},
      List.Forall₂ (fun p f => Query.Denotes o p.1 p.2 f) (Query.payload key value) children →
      ∀ c ∈ children, Sound c := by
    intro children hall c hc
    have hsound := forall₂_of_forall_mem hall fun p hp f hf => ih p hp hf
    obtain ⟨p, hp⟩ := exists_forall₂_iff.1 ⟨_, hsound.flip⟩ c hc
    exact hp
  cases h with
  | test ht => exact .test ht.isProper
  | not _ ht => exact .not ht.isProper
  | and hkey hall =>
    simp only [Query.payload, hkey] at hgroup
    exact .and (hgroup hall)
  | or hkey _ hall =>
    simp only [Query.payload, hkey] at hgroup
    exact .or (hgroup hall)
  | nor _ _ hall | notAny _ _ hall => exact .nor (htests hall)

theorem Sound.rooted {f : Filter} (hf : Sound f) : Sound (Query.rooted f) := by
  cases hf with
  | test h =>
    rw [Query.rooted]
    split
    · apply Sound.and
      rw [List.forall_mem_singleton]
      exact .test h
    · exact .test h
  | not h => exact .not h
  | and h => exact .and h
  | or h => exact .or h
  | nor h => exact .nor h

theorem sound_of_compile {o : Options} {d : Json} {f : Filter}
    (h : Query.compile o d = .ok f) : Sound f := by
  obtain ⟨_, _, _, g, -, hg, rfl, -, -⟩ := Query.compile_eq_ok_iff.1 h
  exact (sound_of_denotes hg).rooted

/-! ### Building filters -/

/-- The filters that the operations make, in any order. -/
inductive Built : Filter → Prop
  | equal {attr value : String} {f : Filter} (h : Filter.equal attr value = .ok f) : Built f
  | absent {attr : String} {f : Filter} (h : Filter.absent attr = .ok f) : Built f
  | band {attr : String} {mask : Int64} {f : Filter} (h : Filter.band attr mask = .ok f) : Built f
  | bor {attr : String} {mask : Int64} {f : Filter} (h : Filter.bor attr mask = .ok f) : Built f
  | recurse {attr entry : String} {f : Filter} (h : Filter.recurse attr entry = .ok f) : Built f
  | negate {f g : Filter} (hf : Built f) (h : f.negate = .ok g) : Built g
  | andOf {children : List Filter} (hchildren : ∀ c ∈ children, Built c) : Built (andOf children)
  | orOf {children : List Filter} (hchildren : ∀ c ∈ children, Built c) : Built (orOf children)
  | norOf {children : List Filter} {f : Filter} (hchildren : ∀ c ∈ children, Built c)
      (h : Filter.norOf children = .ok f) : Built f
  | andWith {f g : Filter} (hf : Built f) (hg : Built g) : Built (f.andWith g)
  /-- The builder form of an insertion, which gives a filter only if the child is taken. -/
  | push {f g : Filter} {child : Option Filter} (hf : Built f) (hchild : ∀ c ∈ child, Built c)
      (h : f.push child = .ok g) : Built g
  /-- An insertion in place, which leaves the filter as it was if the child is refused. -/
  | offer {f : Filter} {child : Option Filter} (hf : Built f) (hchild : ∀ c ∈ child, Built c) :
      Built (f.offer child)
  | child {f c : Filter} (hf : Built f) (hc : c ∈ f.children) : Built c
  | compile {o : Options} {d : Json} {f : Filter} (h : Query.compile o d = .ok f) : Built f

/-- Every operation makes sound filters of sound ones. -/
theorem Built.sound {f : Filter} (h : Built f) : Sound f := by
  induction h with
  | equal h | absent h =>
    obtain ⟨t, ht, rfl⟩ := Except.map_eq_ok_iff.1 h
    exact .test (Test.isProper_of_ofValue ht)
  | band h | bor h =>
    obtain ⟨t, ht, rfl⟩ := Except.map_eq_ok_iff.1 h
    exact .test (Test.isProper_of_ofMask ht)
  | recurse h =>
    obtain ⟨t, ht, rfl⟩ := Except.map_eq_ok_iff.1 h
    exact .test (Test.isProper_of_ofEntry ht)
  | negate _ h ih =>
    obtain ⟨t, ht, rfl⟩ := Except.map_eq_ok_iff.1 h
    rw [Query.asTest_eq_ok_iff] at ht
    subst ht
    exact .not ih.isProper_of_test
  | andOf _ ih => exact .and ih
  | orOf _ ih => exact .or ih
  | norOf _ h ih =>
    obtain ⟨tests, rfl, rfl⟩ := Query.norOf_eq_ok_iff.1 h
    apply Sound.nor
    intro t ht
    exact (ih _ (List.mem_map_of_mem ht)).isProper_of_test
  | andWith _ _ ihf ihg =>
    apply Sound.and
    rw [List.forall_mem_cons, List.forall_mem_singleton]
    exact ⟨ihf, ihg⟩
  | push _ _ h ihf ihchild => exact ihf.push ihchild h
  | @offer f child _ _ ihf ihchild =>
    rcases offer_cases f child with h | h
    · exact ihf.push ihchild h
    · rw [h]
      exact ihf
  | child _ hc ih => exact ih.children _ hc
  | compile h => exact sound_of_compile h

theorem Built.noneOf {members : List Test} (h : ∀ t ∈ members, Built (.test t)) :
    Built (noneOf members) := by
  apply @Built.norOf (members.map .test)
  · intro c hc
    obtain ⟨t, ht, rfl⟩ := List.mem_map.1 hc
    exact h t ht
  · exact Query.norOf_eq_ok_iff.2 ⟨members, rfl, rfl⟩

theorem built_of_isProper {t : Test} (h : t.IsProper) : Built (.test t) := by
  obtain ⟨hattr, hvalue⟩ := h
  cases t with
  | equal attr value =>
    apply @Built.equal attr value
    rw [Filter.equal, Except.map_eq_ok_iff]
    have hne : value ≠ "" := fun he => hvalue (congrArg some he)
    exact ⟨_, Test.ofValue_eq_ok_iff.2 ⟨hattr, (if_neg hne).symm⟩, rfl⟩
  | absent attr =>
    apply @Built.absent attr
    rw [Filter.absent, Except.map_eq_ok_iff]
    exact ⟨_, Test.ofValue_eq_ok_iff.2 ⟨hattr, rfl⟩, rfl⟩
  | bitwise rule attr mask =>
    have hmask :
        Filter.test <$> Test.ofMask rule attr mask = .ok (.test (.bitwise rule attr mask)) :=
      Except.map_eq_ok_iff.2 ⟨_, Test.ofMask_eq_ok_iff.2 ⟨hattr, rfl⟩, rfl⟩
    cases rule with
    | all => exact .band hmask
    | any => exact .bor hmask
  | inChain attr entry =>
    apply @Built.recurse attr entry
    rw [Filter.recurse, Except.map_eq_ok_iff]
    exact ⟨_, Test.ofEntry_eq_ok_iff.2 ⟨hattr, rfl⟩, rfl⟩

/-- Every sound filter can be built. -/
theorem Sound.built {f : Filter} (h : Sound f) : Built f := by
  induction h with
  | test h => exact built_of_isProper h
  | not h => exact .negate (built_of_isProper h) rfl
  | and _ ih => exact .andOf ih
  | or _ ih => exact .orOf ih
  | nor h => exact .noneOf fun t ht => built_of_isProper (h t ht)

/-- The filters that can be built are the sound ones. -/
theorem built_iff_sound {f : Filter} : Built f ↔ Sound f :=
  ⟨Built.sound, Sound.built⟩

/-- The nodes of a filter can be built when the filter can. -/
theorem Built.of_mem_nodes {f : Filter} (hf : Built f) : ∀ g ∈ f.nodes, Built g :=
  forall_mem_nodes (fun _ hg _ hc => .child hg hc) hf

end Filter

end LdapFilter
