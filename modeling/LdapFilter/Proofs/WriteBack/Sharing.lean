import LdapFilter.Proofs.WriteBack.Lossless

/-!
# Filters that share an object

The children of a group of all are written into one object, and so are the members of a nor group
where it is written as a negation of several pairs. Which keys a child may have there is a matter of
the child alone (`Filter.AllowsKey`). That the children choose one after the other costs nothing:
an object is found exactly when the children can be written and some choice of allowed keys is free
of repetitions (`exists_sharedPairs_iff_exists_keys`).
-/

namespace LdapFilter.Filter

open Query (Member merge)

/-- The pairs that filters are written as in one object, in their order. -/
def sharedPairs (children : List Filter) : Except FilterError (List (String × Json)) := do
  merge (← toMembers children)

/-- The keyword that a filter is written under; a literal attribute stands for itself. -/
def keyword? : Filter → Option Keyword
  | .test (.equal _ _) | .test (.absent _) => none
  | .test (.bitwise rule _ _) => some (Query.bitKeyword rule)
  | .test (.inChain _ _) => some .recurse
  | .not _ => some .not
  | .and _ _ => some .and
  | .or _ _ => some .or
  | .nor _ _ => some .nor

/-- The keys that a filter may have in an object with others: a literal attribute itself, a keyword
in any letter case, and a negation for a nor group of two or more members which can themselves share
an object. -/
inductive AllowsKey : Filter → String → Prop
  | literal {t : Test} (h : t.isLiteral = true) : AllowsKey (.test t) t.attr
  | spelling {f : Filter} {k : Keyword} {key : String} (hk : f.keyword? = some k)
      (hkey : Text.fold key = Text.fold k.name) : AllowsKey f key
  | negation {members : List Test} {size : Nat} {ps : List (String × Json)} {key : String}
      (hlength : 2 ≤ members.length) (hps : sharedPairs (members.map .test) = .ok ps)
      (hkey : Text.fold key = Text.fold Keyword.not.name) : AllowsKey (.nor members size) key

/-- The payload that a filter has under a key: that of the pair which it is written as alone, but
the pairs of its members, of which there are two or more, for a nor group under a negation. -/
inductive HasPayload : Filter → String → Json → Prop
  | plain {f : Filter} {p : String × Json} {key : String} (hp : f.toPair = .ok p)
      (hkey : f.keyword? = some .nor → Text.fold key ≠ Text.fold Keyword.not.name) :
      HasPayload f key p.2
  | negation {members : List Test} {size : Nat} {ps : List (String × Json)} {key : String}
      (hkey : Text.fold key = Text.fold Keyword.not.name)
      (hps : sharedPairs (members.map .test) = .ok ps) (hlength : 2 ≤ ps.length) :
      HasPayload (.nor members size) key (.object ps)

variable {f : Filter} {p : String × Json} {children : List Filter} {pairs : List (String × Json)}

/-! ### Members of an object -/

theorem toMembers_eq_ok_iff {members : List Member} : toMembers children = .ok members ↔
    List.Forall₂ (fun c m => ∃ p, c.toPair = .ok p ∧ m = Member.ofPair p c.negationPayload?)
      children members := by
  simp only [toMembers_eq_mapM, Except.mapM_eq_ok_iff, Except.map_eq_ok_iff,
    @eq_comm _ (Member.ofPair _ _)]

theorem sharedPairs_eq_ok_iff : sharedPairs children = .ok pairs ↔
    ∃ members, toMembers children = .ok members ∧ merge members = .ok pairs :=
  Except.bind_eq_ok_iff

/-- Tests share an object as the pairs that they are written as do. -/
theorem sharedPairs_map_test_eq_ok_iff {tests : List Test} :
    sharedPairs (tests.map .test) = .ok pairs ↔ ∃ ps, tests.mapM Test.toPair = .ok ps ∧
      merge (ps.map fun p => Member.ofPair p none) = .ok pairs := by
  have htests : toMembers (tests.map .test) =
      (fun ps => ps.map fun p => Member.ofPair p none) <$> tests.mapM Test.toPair := by
    rw [toMembers_eq_mapM, List.mapM_map, ← mapM_map_eq_map_mapM]
    rfl
  rw [sharedPairs_eq_ok_iff, htests]
  simp only [Except.map_eq_ok_iff]
  constructor
  · rintro ⟨_, ⟨ps, hps, rfl⟩, h⟩
    exact ⟨ps, hps, h⟩
  · rintro ⟨ps, hps, h⟩
    exact ⟨_, ⟨ps, hps, rfl⟩, h⟩

theorem negationPayload?_nor_eq_some_iff {members : List Test} {size : Nat} {payload : Json} :
    (Filter.nor members size).negationPayload? = some payload ↔ 2 ≤ members.length ∧
      ∃ ps, sharedPairs (members.map .test) = .ok ps ∧ payload = .object ps := by
  rw [negationPayload?, Query.negationPayload?_eq_some_iff]
  simp only [sharedPairs_map_test_eq_ok_iff]
  constructor
  · rintro ⟨hlength, ps, pairs, hps, hpairs, rfl⟩
    exact ⟨hlength, pairs, ⟨ps, hps, hpairs⟩, rfl⟩
  · rintro ⟨hlength, pairs, ⟨ps, hps, hpairs⟩, rfl⟩
    exact ⟨hlength, ps, pairs, hps, hpairs, rfl⟩

/-- Only nor groups have a payload under a negation. -/
theorem exists_nor_of_negationPayload? {payload : Json} (h : f.negationPayload? = some payload) :
    ∃ members size, f = .nor members size := by
  cases f with
  | nor members size => exact ⟨members, size, rfl⟩
  | _ => cases h

/-! ### Keys -/

/-- A filter is written under its attribute or its keyword. -/
theorem key_of_toPair (h : f.toPair = .ok p) :
    (∃ t, f = .test t ∧ t.isLiteral = true ∧ p.1 = t.attr ∧ Keyword.ofKey? p.1 = none) ∨
      ∃ k, f.keyword? = some k ∧ p.1 = k.name := by
  cases f with
  | test t =>
    rw [toPair] at h
    cases t with
    | equal attr value =>
      obtain ⟨hkey, rfl⟩ := Test.toPair_equal_eq_ok_iff.1 h
      exact Or.inl ⟨_, rfl, rfl, rfl, hkey⟩
    | absent attr =>
      obtain ⟨hkey, rfl⟩ := Test.toPair_absent_eq_ok_iff.1 h
      exact Or.inl ⟨_, rfl, rfl, rfl, hkey⟩
    | bitwise rule attr mask =>
      rw [Test.toPair_bitwise] at h
      cases h
      exact Or.inr ⟨_, by cases rule <;> rfl, rfl⟩
    | inChain attr entry =>
      rw [Test.toPair_inChain] at h
      cases h
      exact Or.inr ⟨_, rfl, rfl⟩
  | not t =>
    obtain ⟨_, -, h⟩ := Except.bind_eq_ok_iff.1 h
    cases h
    exact Or.inr ⟨_, rfl, rfl⟩
  | and children _ =>
    obtain ⟨_, -, h⟩ := Except.bind_eq_ok_iff.1 h
    obtain ⟨_, -, h⟩ := Except.bind_eq_ok_iff.1 h
    cases h
    exact Or.inr ⟨_, rfl, rfl⟩
  | or children _ =>
    obtain ⟨_, -, h⟩ := Except.bind_eq_ok_iff.1 h
    cases h
    exact Or.inr ⟨_, rfl, rfl⟩
  | nor members _ =>
    obtain ⟨_, -, h⟩ := Except.bind_eq_ok_iff.1 h
    cases h
    exact Or.inr ⟨_, rfl, rfl⟩

theorem ofKey?_eq_of_keyword? {k : Keyword} (h : f.toPair = .ok p) (hk : f.keyword? = some k) :
    Keyword.ofKey? p.1 = some k := by
  obtain ⟨t, rfl, hliteral, -⟩ | ⟨k', hk', hname⟩ := key_of_toPair h
  · cases t <;> simp [keyword?, Test.isLiteral] at hk hliteral
  · cases hk.symm.trans hk'
    rw [hname, Keyword.ofKey?_name]

/-- Only the lists of nor groups have a negation beside them. -/
theorem ofKey?_eq_nor_of_isSome (h : f.toPair = .ok p) (hsome : f.negationPayload?.isSome = true) :
    Keyword.ofKey? p.1 = some .nor := by
  obtain ⟨payload, hpayload⟩ := Option.isSome_iff_exists.1 hsome
  obtain ⟨members, size, rfl⟩ := exists_nor_of_negationPayload? hpayload
  exact ofKey?_eq_of_keyword? h rfl

/-- The keys of a filter as a member of an object are those that it allows. -/
theorem mem_keys_iff_allowsKey {key : String} (h : f.toPair = .ok p) :
    key ∈ (Member.ofPair p f.negationPayload?).keys ↔ f.AllowsKey key := by
  rw [Query.mem_keys_ofPair]
  constructor
  · rintro (⟨hnone, rfl⟩ | ⟨k, hk, hkey⟩)
    · obtain ⟨t, rfl, hliteral, hattr, -⟩ | ⟨k, -, hname⟩ := key_of_toPair h
      · rw [hattr]
        exact .literal hliteral
      · rw [hname, Keyword.ofKey?_name] at hnone
        cases hnone
    · obtain ⟨t, -, -, -, hnone⟩ | ⟨k', hk', hname⟩ := key_of_toPair h
      · rw [hnone] at hk
        cases hk
      rw [hname, Keyword.ofKey?_name] at hk
      cases hk
      rcases hkey with hkey | ⟨hkey, hsome⟩
      · exact .spelling hk' (Keyword.ofKey?_eq_some_iff.1 hkey).symm
      · obtain ⟨payload, hpayload⟩ := Option.isSome_iff_exists.1 hsome
        obtain ⟨members, size, rfl⟩ := exists_nor_of_negationPayload? hpayload
        obtain ⟨hlength, ps, hps, -⟩ := negationPayload?_nor_eq_some_iff.1 hpayload
        exact .negation hlength hps (Keyword.ofKey?_eq_some_iff.1 hkey).symm
  · intro hkey
    cases hkey with
    | @literal t hliteral =>
      obtain ⟨t', ht', -, hattr, hnone⟩ | ⟨k, hk, -⟩ := key_of_toPair h
      · cases ht'
        exact Or.inl ⟨hnone, hattr.symm⟩
      · cases t <;> simp [keyword?, Test.isLiteral] at hk hliteral
    | @spelling _ k _ hk hkey =>
      exact Or.inr ⟨k, ofKey?_eq_of_keyword? h hk, Or.inl (Keyword.ofKey?_eq_some_iff.2 hkey.symm)⟩
    | @negation members size ps _ hlength hps hkey =>
      have hsome : (Filter.nor members size).negationPayload?.isSome = true := by
        rw [negationPayload?_nor_eq_some_iff.2 ⟨hlength, ps, hps, rfl⟩]
        rfl
      exact Or.inr ⟨.nor, ofKey?_eq_nor_of_isSome h hsome,
        Or.inr ⟨Keyword.ofKey?_eq_some_iff.2 hkey.symm, hsome⟩⟩

/-- The keys of children are nested in the order in which they choose. -/
theorem nested_of_toMembers {members : List Member} (h : toMembers children = .ok members) :
    ∀ m ∈ members, ∀ m' ∈ members,
      (m.flexible = true → m'.flexible = true) → Query.Nested m.keys m'.keys := by
  have hwritten := exists_forall₂_iff.1 ⟨_, (toMembers_eq_ok_iff.1 h).flip⟩
  intro m hm m' hm' hflexible
  obtain ⟨c, p, hp, rfl⟩ := hwritten m hm
  obtain ⟨c', p', hp', rfl⟩ := hwritten m' hm'
  exact Query.nested_ofPair (ofKey?_eq_nor_of_isSome hp) (ofKey?_eq_nor_of_isSome hp') hflexible

/-! ### Payloads -/

/-- One pair for each child. -/
theorem length_of_sharedPairs (h : sharedPairs children = .ok pairs) :
    pairs.length = children.length := by
  obtain ⟨members, hmembers, hmerge⟩ := sharedPairs_eq_ok_iff.1 h
  rw [← (Query.merge_eq_ok hmerge).1.length_eq, (toMembers_eq_ok_iff.1 hmembers).length_eq]

/-- A choice of a filter as a member of an object has an allowed key, and the payload under it. -/
theorem allowsKey_and_hasPayload {choice : String × Json} (h : f.toPair = .ok p)
    (hchoice : choice ∈ (Member.ofPair p f.negationPayload?).choices) :
    f.AllowsKey choice.1 ∧ f.HasPayload choice.1 choice.2 := by
  refine ⟨(mem_keys_iff_allowsKey h).1 (List.mem_map_of_mem hchoice), ?_⟩
  rcases Query.mem_choices_ofPair.1 hchoice with
    ⟨hnone, rfl⟩ | ⟨k, hk, ⟨hkey, hvalue⟩ | ⟨hkey, hpayload⟩⟩
  · refine .plain h fun hnor => ?_
    rw [ofKey?_eq_of_keyword? h hnor] at hnone
    cases hnone
  · rw [hvalue]
    refine .plain h fun hnor hnot => ?_
    rw [ofKey?_eq_of_keyword? h hnor] at hk
    rw [← hk, Keyword.ofKey?_eq_some_iff.2 hnot.symm] at hkey
    cases hkey
  · obtain ⟨members, size, rfl⟩ := exists_nor_of_negationPayload? hpayload
    obtain ⟨hlength, ps, hps, hobject⟩ := negationPayload?_nor_eq_some_iff.1 hpayload
    rw [hobject]
    refine .negation (Keyword.ofKey?_eq_some_iff.1 hkey).symm hps ?_
    rw [length_of_sharedPairs hps, List.length_map]
    exact hlength

/-! ### Objects -/

/-- An object is found exactly when the children are written and have distinct allowed keys. -/
theorem exists_sharedPairs_iff : (∃ pairs, sharedPairs children = .ok pairs) ↔
    (∀ c ∈ children, ∃ p, c.toPair = .ok p) ∧
      ∃ keys, List.Forall₂ AllowsKey children keys ∧ keys.Nodup := by
  constructor
  · rintro ⟨pairs, h⟩
    obtain ⟨members, hmembers, hmerge⟩ := sharedPairs_eq_ok_iff.1 h
    have hwritten := toMembers_eq_ok_iff.1 hmembers
    obtain ⟨keys, hkeys, hnodup, -⟩ :=
      (Query.exists_merge_iff (nested_of_toMembers hmembers)).1 ⟨pairs, hmerge⟩
    rw [List.forall₂_map_left_iff] at hkeys
    refine ⟨fun c hc => ?_, keys, forall₂_trans hwritten hkeys ?_, hnodup⟩
    · obtain ⟨m, p, hp, -⟩ := exists_forall₂_iff.1 ⟨_, hwritten⟩ c hc
      exact ⟨p, hp⟩
    · rintro c m key ⟨p, hp, rfl⟩ hkey
      exact (mem_keys_iff_allowsKey hp).1 hkey
  · rintro ⟨hwritten, keys, hkeys, hnodup⟩
    obtain ⟨members, hmembers⟩ : ∃ members, toMembers children = .ok members := by
      simp only [toMembers_eq_ok_iff]
      rw [exists_forall₂_iff]
      intro c hc
      obtain ⟨p, hp⟩ := hwritten c hc
      exact ⟨_, p, hp, rfl⟩
    have hassignable : Query.Assignable [] (members.map Member.keys) := by
      refine ⟨keys, ?_, hnodup, by simp⟩
      rw [List.forall₂_map_left_iff]
      apply forall₂_trans (toMembers_eq_ok_iff.1 hmembers).flip hkeys
      rintro m c key ⟨p, hp, rfl⟩ hkey
      exact (mem_keys_iff_allowsKey hp).2 hkey
    obtain ⟨pairs, hpairs⟩ :=
      (Query.exists_merge_iff (nested_of_toMembers hmembers)).2 hassignable
    exact ⟨pairs, sharedPairs_eq_ok_iff.2 ⟨members, hmembers, hpairs⟩⟩

theorem forall₂_of_sharedPairs (h : sharedPairs children = .ok pairs) :
    List.Forall₂ (fun c p => c.AllowsKey p.1 ∧ c.HasPayload p.1 p.2) children pairs ∧
      (pairs.map Prod.fst).Nodup := by
  obtain ⟨members, hmembers, hmerge⟩ := sharedPairs_eq_ok_iff.1 h
  obtain ⟨hchoices, hnodup⟩ := Query.merge_eq_ok hmerge
  refine ⟨forall₂_trans (toMembers_eq_ok_iff.1 hmembers) hchoices ?_, hnodup⟩
  rintro c m choice ⟨p, hp, rfl⟩ hchoice
  exact allowsKey_and_hasPayload hp hchoice

theorem exists_toJson_iff : (∃ j, f.toJson = .ok j) ↔ ∃ p, f.toPair = .ok p := by
  constructor
  · rintro ⟨j, h⟩
    obtain ⟨p, hp, -⟩ := Except.bind_eq_ok_iff.1 h
    exact ⟨p, hp⟩
  · rintro ⟨p, hp⟩
    exact ⟨Json.single p.1 p.2, Except.bind_eq_ok_iff.2 ⟨p, hp, rfl⟩⟩

theorem toPair_and (children : List Filter) (size : Nat) : (Filter.and children size).toPair =
    (fun pairs => (Keyword.and.name, .object pairs)) <$> sharedPairs children := by
  rw [toPair, sharedPairs]
  cases toMembers children with
  | error e => rfl
  | ok members => cases merge members <;> rfl

/-- Children share an object exactly when each of them can be written and there are distinct allowed
keys for them. The object has one pair for each child, in their order, with an allowed key and the
payload under it. So a group of all its children is written, and so is the negation of the members
of a nor group, when there are two or more. -/
theorem exists_sharedPairs_iff_exists_keys :
    (∀ children : List Filter, ((∃ pairs, sharedPairs children = .ok pairs) ↔
      (∀ c ∈ children, ∃ j, c.toJson = .ok j) ∧
        ∃ keys, List.Forall₂ AllowsKey children keys ∧ keys.Nodup) ∧
      ∀ pairs, sharedPairs children = .ok pairs →
        List.Forall₂ (fun c p => c.AllowsKey p.1 ∧ c.HasPayload p.1 p.2) children pairs ∧
          (pairs.map Prod.fst).Nodup) ∧
    (∀ (children : List Filter) (size : Nat), (Filter.and children size).toPair =
      (fun pairs => (Keyword.and.name, .object pairs)) <$> sharedPairs children) ∧
    ∀ (members : List Test) (size : Nat) (payload : Json),
      (Filter.nor members size).negationPayload? = some payload ↔ 2 ≤ members.length ∧
        ∃ pairs, sharedPairs (members.map .test) = .ok pairs ∧ payload = .object pairs := by
  refine ⟨fun children => ⟨?_, fun pairs => forall₂_of_sharedPairs⟩, toPair_and,
    fun members size payload => negationPayload?_nor_eq_some_iff⟩
  simp only [exists_toJson_iff]
  exact exists_sharedPairs_iff

/-- Eight lists of one member take all spellings of their keyword, so a list of two members gives
way to them, although it comes first. -/
theorem sharedPairs_of_crowded_nor : ∃ pairs,
    sharedPairs (noneOf [.equal "cn" "a", .absent "sn"] ::
      List.replicate 8 (noneOf [.equal "cn" "a"])) = .ok pairs ∧
    pairs.map Prod.fst = ["not", "nor", "Nor", "nOr", "NOr", "noR", "NoR", "nOR", "NOR"] ∧
    List.Forall₂ (fun c p => c.AllowsKey p.1 ∧ c.HasPayload p.1 p.2)
      (noneOf [.equal "cn" "a", .absent "sn"] :: List.replicate 8 (noneOf [.equal "cn" "a"]))
      pairs := by
  have hkeys : List.map Prod.fst <$> sharedPairs (noneOf [.equal "cn" "a", .absent "sn"] ::
      List.replicate 8 (noneOf [.equal "cn" "a"])) =
        .ok ["not", "nor", "Nor", "nOr", "NOr", "noR", "NoR", "nOR", "NOR"] := by
    decide +kernel
  obtain ⟨pairs, hpairs, hmap⟩ := Except.map_eq_ok_iff.1 hkeys
  exact ⟨pairs, hpairs, hmap, ((exists_sharedPairs_iff_exists_keys.1 _).2 pairs hpairs).1⟩

end LdapFilter.Filter
