import LdapFilter.Proofs.Query.Denotes

/-!
# When compiling succeeds

Compiling counts the pairs of a document and checks how deep it goes, while it looks at one pair
after the other. `Fits` states the two limits for pairs as a whole. Compiling succeeds exactly for
what denotes a filter and fits (`pair_eq_ok_iff`, `compile_eq_ok_iff`).
-/

namespace LdapFilter.Query

variable {o : Options} {key : String} {value : Json} {depth count count' : Nat}

/-! ### Limits -/

/-- Some pairs at a depth, after a number of pairs, stay within the limits and bring that number
to another one. -/
structure Fits (o : Options) (depth count count' : Nat) (ps : List (String × Json)) : Prop where
  count_eq : count' = count + pairCountAll ps
  count_le : count' ≤ o.maxNodes
  nesting_le : ∀ p ∈ ps, depth + nesting p.1 p.2 ≤ o.maxDepth

theorem fits_nil_iff : Fits o depth count count' [] ↔ count' = count ∧ count ≤ o.maxNodes := by
  constructor
  · rintro ⟨h, hle, _⟩
    simp only [pairCountAll_nil, Nat.add_zero] at h
    exact ⟨h, h ▸ hle⟩
  · rintro ⟨rfl, hle⟩
    exact ⟨by simp, hle, by simp⟩

theorem fits_cons_iff {p : String × Json} {ps : List (String × Json)} :
    Fits o depth count count' (p :: ps) ↔
      ∃ mid, Fits o depth count mid [p] ∧ Fits o depth mid count' ps := by
  constructor
  · rintro ⟨hcount, hle, hnest⟩
    simp only [pairCountAll_cons] at hcount
    refine ⟨count + pairCount p.1 p.2, ⟨by simp, by omega, ?_⟩, ⟨by omega, hle, ?_⟩⟩
    · intro q hq
      exact hnest q (List.mem_singleton.1 hq ▸ List.mem_cons_self)
    · intro q hq
      exact hnest q (List.mem_cons_of_mem p hq)
  · rintro ⟨mid, ⟨hmid, _, hnest⟩, ⟨hcount, hle, hnests⟩⟩
    simp only [pairCountAll_cons, pairCountAll_nil] at hmid
    refine ⟨by simp only [pairCountAll_cons]; omega, hle, ?_⟩
    intro q hq
    rcases List.mem_cons.1 hq with rfl | hq
    · exact hnest q (List.mem_singleton.2 rfl)
    · exact hnests q hq

/-- A test is a single pair and has no nesting. -/
theorem fits_test_iff (h : isCombination key = false) (hdepth : depth ≤ o.maxDepth) :
    Fits o depth count count' [(key, value)] ↔ count' = count + 1 ∧ count' ≤ o.maxNodes := by
  have hpairs : pairCountAll [(key, value)] = 1 := by
    simp [pairCount_eq, payload_of_not_isCombination h]
  have hnest : nesting key value = 0 := by simp [nesting_eq, h]
  constructor
  · rintro ⟨hcount, hle, _⟩
    exact ⟨hpairs ▸ hcount, hle⟩
  · rintro ⟨hcount, hle⟩
    exact ⟨by rw [hpairs]; exact hcount, hle, by simpa [hnest] using hdepth⟩

theorem foldr_max_le_iff {ns : List Nat} {n : Nat} :
    ns.foldr max 0 ≤ n ↔ ∀ m ∈ ns, m ≤ n := by
  induction ns with
  | nil => simp
  | cons m ns ih => rw [List.foldr_cons, Nat.max_le, ih, List.forall_mem_cons]

/-- A combination is one pair more than its payload, which is one level further down. -/
theorem fits_combination_iff (h : isCombination key = true) :
    Fits o depth count count' [(key, value)] ↔
      depth + 1 ≤ o.maxDepth ∧ Fits o (depth + 1) (count + 1) count' (payload key value) := by
  have hpairs : pairCountAll [(key, value)] = 1 + pairCountAll (payload key value) := by
    simp [pairCount_eq]
  have hnest : depth + nesting key value ≤ o.maxDepth ↔
      depth + 1 ≤ o.maxDepth ∧
        ∀ p ∈ payload key value, depth + 1 + nesting p.1 p.2 ≤ o.maxDepth := by
    rw [nesting_eq, if_pos h]
    constructor
    · intro hle
      refine ⟨by omega, fun p hp => ?_⟩
      have hmax := foldr_max_le_iff.1 (Nat.le_refl
        (((payload key value).map fun p => nesting p.1 p.2).foldr max 0)) _
        (List.mem_map_of_mem hp)
      omega
    · rintro ⟨hle, hnests⟩
      have hmax : ((payload key value).map fun p => nesting p.1 p.2).foldr max 0 ≤
          o.maxDepth - (depth + 1) := by
        refine foldr_max_le_iff.2 fun m hm => ?_
        obtain ⟨p, hp, rfl⟩ := List.mem_map.1 hm
        have := hnests p hp
        omega
      omega
  constructor
  · rintro ⟨hcount, hle, hall⟩
    obtain ⟨hdepth, hnests⟩ := hnest.1 (hall (key, value) (List.mem_singleton.2 rfl))
    exact ⟨hdepth, by omega, hle, hnests⟩
  · rintro ⟨hdepth, hcount, hle, hnests⟩
    refine ⟨by omega, hle, ?_⟩
    simpa using hnest.2 ⟨hdepth, hnests⟩

theorem countPair_eq_ok_iff : countPair o count = .ok count' ↔
    count' = count + 1 ∧ count + 1 ≤ o.maxNodes := by
  unfold countPair
  split
  · simp; omega
  · simp only [Except.ok.injEq]; omega

theorem enter_eq_ok_iff : enter o depth = .ok () ↔ depth ≤ o.maxDepth := by
  unfold enter
  split
  · simp; omega
  · simp; omega

/-! ### Pairs of an object -/

/-- The pairs of two objects, one after the other. -/
theorem pairs_append (group : Group) (ps qs : List (String × Json)) :
    pairs o group depth count (ps ++ qs) = (do
      let (children, count) ← pairs o group depth count ps
      let (others, count) ← pairs o group depth count qs
      return (children ++ others, count)) := by
  induction ps generalizing count with
  | nil => exact (bind_pure _).symm
  | cons p ps ih => simp only [List.cons_append, pairs, ih, bind_assoc, pure_bind]

/-- The objects of a list count as one object with all their pairs. -/
theorem items_eq_pairs (group : Group) {items : List Json}
    (h : ∀ item ∈ items, isObject item = true) :
    Query.items o group depth count items = pairs o group depth count (objectPairs items) := by
  induction items generalizing count with
  | nil => simp [Query.items, pairs, objectPairs]
  | cons item items ih =>
    have htail : ∀ item ∈ items, isObject item = true := fun item hitem =>
      h item (List.mem_cons_of_mem _ hitem)
    cases item with
    | object members => simp only [Query.items, objectPairs, pairs_append, ih htail]
    | _ => simpa [isObject] using h _ List.mem_cons_self

/-- A list whose items are compiled is a list of objects. -/
theorem isObject_of_items_eq_ok {group : Group} {items : List Json} {r : List Filter × Nat}
    (h : Query.items o group depth count items = .ok r) : ∀ item ∈ items, isObject item = true := by
  induction items generalizing count r with
  | nil => simp
  | cons item items ih =>
    cases item with
    | object members =>
      simp only [Query.items, Except.bind_eq_ok_iff] at h
      obtain ⟨_, _, _, hrest, _⟩ := h
      simpa [isObject] using ih hrest
    | _ => simp [Query.items] at h

/-! ### Compiling -/

/-- A test is compiled when it is one and its pair is not one too many. -/
theorem pair_test_eq_ok_iff {f : Filter} (h : isCombination key = false) :
    pair o depth count key value = .ok (f, count') ↔
      (∃ t, DenotesTest o key value t ∧ f = .test t) ∧ count' = count + 1
        ∧ count' ≤ o.maxNodes := by
  have hstep : ∀ (test : Except FilterError Test),
      (∀ t, test = .ok t ↔ DenotesTest o key value t) →
      ((do
        let count ← countPair o count
        return (Filter.test (← test), count)) = Except.ok (f, count') ↔
      (∃ t, DenotesTest o key value t ∧ f = .test t) ∧ count' = count + 1
        ∧ count' ≤ o.maxNodes) := by
    intro test htest
    simp only [Except.bind_eq_ok_iff, countPair_eq_ok_iff, htest, Except.pure_eq_ok,
      Except.ok.injEq, Prod.mk.injEq]
    constructor
    · rintro ⟨_, ⟨rfl, hle⟩, t, ht, rfl, rfl⟩
      exact ⟨⟨t, ht, rfl⟩, rfl, hle⟩
    · rintro ⟨⟨t, ht, rfl⟩, rfl, hle⟩
      exact ⟨_, ⟨rfl, hle⟩, t, ht, rfl, rfl⟩
  rw [pair]
  cases hkey : Keyword.ofKey? key with
  | none => exact hstep _ fun t => literal_eq_ok_iff hkey
  | some k =>
    cases k with
    | band => exact hstep _ fun t => @bitwise_eq_ok_iff o key value .all t hkey
    | bor => exact hstep _ fun t => @bitwise_eq_ok_iff o key value .any t hkey
    | recurse => exact hstep _ fun t => chain_eq_ok_iff hkey
    | _ => simp [isCombination, hkey] at h

/-- The pairs of an object are compiled when each of them is, the group takes what they denote,
and together they fit. -/
theorem pairs_eq_ok_iff {group : Group} {ps : List (String × Json)} {children : List Filter}
    (ih : ∀ p ∈ ps, ∀ {count count' : Nat} {f : Filter},
      pair o depth count p.1 p.2 = .ok (f, count') ↔
        Denotes o p.1 p.2 f ∧ Fits o depth count count' [p])
    (hcount : count ≤ o.maxNodes) :
    pairs o group depth count ps = .ok (children, count') ↔
      List.Forall₂ (fun p f => Denotes o p.1 p.2 f) ps children
        ∧ (∀ f ∈ children, group.accept f = .ok ()) ∧ Fits o depth count count' ps := by
  induction ps generalizing count children with
  | nil =>
    simp only [pairs, Except.ok.injEq, Prod.mk.injEq, List.forall₂_nil_left_iff, fits_nil_iff]
    constructor
    · rintro ⟨rfl, rfl⟩
      exact ⟨rfl, by simp, rfl, hcount⟩
    · rintro ⟨rfl, _, rfl, _⟩
      exact ⟨rfl, rfl⟩
  | cons p ps ihps =>
    obtain ⟨key, value⟩ := p
    have hhead := @ih (key, value) List.mem_cons_self
    have htail : ∀ p ∈ ps, ∀ {count count' : Nat} {f : Filter},
        pair o depth count p.1 p.2 = .ok (f, count') ↔
          Denotes o p.1 p.2 f ∧ Fits o depth count count' [p] := fun p hp =>
      ih p (List.mem_cons_of_mem _ hp)
    simp only [pairs, Except.bind_eq_ok_iff, hhead, Except.pure_eq_ok, Except.ok.injEq]
    constructor
    · rintro ⟨⟨child, mid⟩, ⟨hchild, hfit⟩, _, haccept, ⟨others, _⟩, hrest, ⟨rfl, rfl⟩⟩
      obtain ⟨hothers, haccepts, hfits⟩ := (ihps htail hfit.count_le).1 hrest
      exact ⟨.cons hchild hothers, List.forall_mem_cons.2 ⟨haccept, haccepts⟩,
        fits_cons_iff.2 ⟨mid, hfit, hfits⟩⟩
    · rintro ⟨hall, haccepts, hfits⟩
      cases hall with
      | @cons _ child _ others hchild hothers =>
        obtain ⟨haccept, haccepts⟩ := List.forall_mem_cons.1 haccepts
        obtain ⟨mid, hfit, hfits⟩ := fits_cons_iff.1 hfits
        exact ⟨(child, mid), ⟨hchild, hfit⟩, (), haccept, (others, count'),
          (ihps htail hfit.count_le).2 ⟨hothers, haccepts, hfits⟩, rfl⟩

/-- A combination is compiled like its payload, after its own pair and one level further down. -/
theorem combination_eq_ok_iff {α : Type} {r : Nat → Except FilterError α} {a : α} :
    (do
      let count ← countPair o count
      enter o (depth + 1)
      r count) = .ok a ↔
    count + 1 ≤ o.maxNodes ∧ depth + 1 ≤ o.maxDepth ∧ r (count + 1) = .ok a := by
  simp only [Except.bind_eq_ok_iff, countPair_eq_ok_iff]
  constructor
  · rintro ⟨_, ⟨rfl, hle⟩, _, henter, hr⟩
    exact ⟨hle, enter_eq_ok_iff.1 henter, hr⟩
  · rintro ⟨hle, hdepth, hr⟩
    exact ⟨_, ⟨rfl, hle⟩, (), enter_eq_ok_iff.2 hdepth, hr⟩

theorem gather_eq_ok_iff {group : Group} {f : Filter}
    {r : Except FilterError (List Filter × Nat)} :
    (do
      let (children, count) ← r
      return (← group.gather children, count)) = Except.ok (f, count') ↔
    ∃ children, r = .ok (children, count') ∧ group.gather children = .ok f := by
  simp only [Except.bind_eq_ok_iff, Except.pure_eq_ok, Except.ok.injEq, Prod.mk.injEq]
  constructor
  · rintro ⟨⟨children, _⟩, hr, _, hf, rfl, rfl⟩
    exact ⟨children, hr, hf⟩
  · rintro ⟨children, hr, hf⟩
    exact ⟨(children, count'), hr, f, hf, rfl, rfl⟩

/-- The items of a list make up a group when they are objects and their pairs do. -/
theorem gather_items_eq_ok_iff {group : Group} {f : Filter} {items : List Json} :
    (∃ children, Query.items o group depth count items = .ok (children, count')
        ∧ group.gather children = .ok f) ↔
      (∀ item ∈ items, isObject item = true) ∧ ∃ children,
        pairs o group depth count (objectPairs items) = .ok (children, count')
          ∧ group.gather children = .ok f := by
  constructor
  · rintro ⟨children, h, hf⟩
    have hobjects := isObject_of_items_eq_ok h
    exact ⟨hobjects, children, items_eq_pairs group hobjects ▸ h, hf⟩
  · rintro ⟨hobjects, children, h, hf⟩
    exact ⟨children, (items_eq_pairs group hobjects).symm ▸ h, hf⟩

/-- A group is compiled when its payload has the right shape, its pairs are compiled and they make
up the group. -/
theorem pair_group_eq_ok_iff {f : Filter} (group : Group)
    (hkey : Keyword.ofKey? key = some group.keyword) :
    pair o depth count key value = .ok (f, count') ↔
      count + 1 ≤ o.maxNodes ∧ depth + 1 ≤ o.maxDepth ∧ group.takes value ∧ ∃ children,
        pairs o group (depth + 1) (count + 1) (payload key value) = .ok (children, count')
          ∧ group.gather children = .ok f := by
  rw [pair]
  cases group with
  | and =>
    simp only [Group.keyword] at hkey
    simp only [hkey]
    refine combination_eq_ok_iff.trans (and_congr_right fun _ => and_congr_right fun _ => ?_)
    cases value with
    | object members =>
      simp only [payload, hkey, Group.takes, isObject, true_and]
      exact gather_eq_ok_iff
    | _ => simp [Group.takes, isObject]
  | or =>
    simp only [Group.keyword] at hkey
    simp only [hkey]
    refine combination_eq_ok_iff.trans (and_congr_right fun _ => and_congr_right fun _ => ?_)
    cases value with
    | array items =>
      simp only [payload, hkey, Group.takes, Json.array.injEq, exists_eq_left']
      exact gather_eq_ok_iff.trans gather_items_eq_ok_iff
    | _ => simp [Group.takes]
  | nor =>
    simp only [Group.keyword] at hkey
    simp only [hkey]
    refine combination_eq_ok_iff.trans (and_congr_right fun _ => and_congr_right fun _ => ?_)
    cases value with
    | array items =>
      simp only [payload, hkey, Group.takes, Json.array.injEq, exists_eq_left']
      exact gather_eq_ok_iff.trans gather_items_eq_ok_iff
    | _ => simp [Group.takes]

/-- A negation of one pair is compiled when that pair is, to a test. -/
theorem pair_not_eq_ok_iff {f : Filter} {p : String × Json}
    (hkey : Keyword.ofKey? key = some .not) :
    pair o depth count key (.object [p]) = .ok (f, count') ↔
      count + 1 ≤ o.maxNodes ∧ depth + 1 ≤ o.maxDepth ∧ ∃ t,
        pair o (depth + 1) (count + 1) p.1 p.2 = .ok (.test t, count') ∧ f = .not t := by
  rw [pair]
  simp only [hkey]
  refine combination_eq_ok_iff.trans (and_congr_right fun _ => and_congr_right fun _ => ?_)
  simp only [Except.bind_eq_ok_iff]
  constructor
  · rintro ⟨⟨inner, _⟩, hinner, h⟩
    cases inner with
    | test t =>
      cases h
      exact ⟨t, hinner, rfl⟩
    | _ => simp [Filter.test?] at h
  · rintro ⟨t, hinner, rfl⟩
    exact ⟨(.test t, count'), hinner, rfl⟩

/-- A negation of several pairs is compiled like the nor group of these pairs. -/
theorem pair_notAny_eq_ok_iff {f : Filter} {members : List (String × Json)}
    (hkey : Keyword.ofKey? key = some .not) (hlength : 2 ≤ members.length) :
    pair o depth count key (.object members) = .ok (f, count') ↔
      count + 1 ≤ o.maxNodes ∧ depth + 1 ≤ o.maxDepth ∧ ∃ children,
        pairs o .nor (depth + 1) (count + 1) members = .ok (children, count')
          ∧ Group.nor.gather children = .ok f := by
  match members, hlength with
  | first :: second :: rest, _ =>
    rw [pair]
    simp only [hkey]
    refine combination_eq_ok_iff.trans (and_congr_right fun _ => and_congr_right fun _ => ?_)
    exact gather_eq_ok_iff

/-- Only the pairs of an object can be negated. -/
theorem exists_object_of_pair_not_eq_ok {r : Filter × Nat} (hkey : Keyword.ofKey? key = some .not)
    (h : pair o depth count key value = .ok r) : ∃ p ps, value = .object (p :: ps) := by
  rw [pair] at h
  simp only [hkey] at h
  obtain ⟨_, _, h⟩ := combination_eq_ok_iff.1 h
  match value with
  | .object (p :: ps) => exact ⟨p, ps, rfl⟩
  | .object [] | .null | .bool _ | .number _ | .string _ | .array _ => simp at h

/-- Pairs make up a group exactly when what they stand for does and they fit. -/
theorem gather_pairs_eq_ok_iff {group : Group} {f : Filter} {ps : List (String × Json)}
    (ih : ∀ p ∈ ps, ∀ {count count' : Nat} {f : Filter},
      pair o depth count p.1 p.2 = .ok (f, count') ↔
        Denotes o p.1 p.2 f ∧ Fits o depth count count' [p]) :
    (count ≤ o.maxNodes ∧ ∃ children, pairs o group depth count ps = .ok (children, count')
        ∧ group.gather children = .ok f) ↔
      (∃ children, List.Forall₂ (fun p f => Denotes o p.1 p.2 f) ps children
        ∧ group.gather children = .ok f) ∧ Fits o depth count count' ps := by
  constructor
  · rintro ⟨hle, children, hpairs, hf⟩
    obtain ⟨hchildren, -, hfits⟩ := (pairs_eq_ok_iff ih hle).1 hpairs
    exact ⟨⟨children, hchildren, hf⟩, hfits⟩
  · rintro ⟨⟨children, hchildren, hf⟩, hfits⟩
    have hle : count ≤ o.maxNodes := by
      have hcount := hfits.count_eq
      have hmax := hfits.count_le
      omega
    exact ⟨hle, children,
      (pairs_eq_ok_iff ih hle).2 ⟨hchildren, accept_of_gather_eq_ok hf, hfits⟩, hf⟩

section

variable (ih : ∀ p ∈ payload key value, ∀ {depth count count' : Nat} {f : Filter},
  depth ≤ o.maxDepth → (pair o depth count p.1 p.2 = .ok (f, count') ↔
    Denotes o p.1 p.2 f ∧ Fits o depth count count' [p]))
include ih

/-- A pair that asks for a negation is compiled when it stands for a filter and its payload fits. -/
theorem pair_not_iff_denotes {f : Filter} (hkey : Keyword.ofKey? key = some .not) :
    pair o depth count key value = .ok (f, count') ↔
      Denotes o key value f ∧ depth + 1 ≤ o.maxDepth
        ∧ Fits o (depth + 1) (count + 1) count' (payload key value) := by
  constructor
  · intro h
    obtain ⟨p, ps, rfl⟩ := exists_object_of_pair_not_eq_ok hkey h
    have hpayload : payload key (.object (p :: ps)) = p :: ps := by simp [payload, hkey]
    rw [hpayload] at ih ⊢
    cases ps with
    | nil =>
      obtain ⟨hle, hdepth', t, hp, rfl⟩ := (pair_not_eq_ok_iff hkey).1 h
      obtain ⟨ht, hfits⟩ := (ih p List.mem_cons_self hdepth').1 hp
      exact ⟨(denotes_not_iff hkey).2 ⟨t, denotes_test_iff.1 ht, rfl⟩, hdepth', hfits⟩
    | cons q ps =>
      obtain ⟨hle, hdepth', h⟩ := (pair_notAny_eq_ok_iff hkey (by simp)).1 h
      obtain ⟨hf, hfits⟩ := (gather_pairs_eq_ok_iff fun p hp => ih p hp hdepth').1 ⟨hle, h⟩
      exact ⟨(denotes_notAny_iff hkey (by simp)).2 hf, hdepth', hfits⟩
  · rintro ⟨hf, hdepth', hfits⟩
    obtain ⟨p, ps, rfl⟩ := exists_object_of_denotes_not hkey hf
    have hpayload : payload key (.object (p :: ps)) = p :: ps := by simp [payload, hkey]
    rw [hpayload] at ih hfits
    cases ps with
    | nil =>
      obtain ⟨t, ht, rfl⟩ := (denotes_not_iff hkey).1 hf
      have hcount := hfits.count_eq
      have hmax := hfits.count_le
      exact (pair_not_eq_ok_iff hkey).2 ⟨by omega, hdepth', t,
        (ih p List.mem_cons_self hdepth').2 ⟨.test ht, hfits⟩, rfl⟩
    | cons q ps =>
      obtain ⟨hle, h⟩ := (gather_pairs_eq_ok_iff fun p hp => ih p hp hdepth').2
        ⟨(denotes_notAny_iff hkey (by simp)).1 hf, hfits⟩
      exact (pair_notAny_eq_ok_iff hkey (by simp)).2 ⟨hle, hdepth', h⟩

/-- A pair that asks for a group is compiled when it stands for a filter and its payload fits. -/
theorem pair_group_iff_denotes {f : Filter} (group : Group)
    (hkey : Keyword.ofKey? key = some group.keyword) :
    pair o depth count key value = .ok (f, count') ↔
      Denotes o key value f ∧ depth + 1 ≤ o.maxDepth
        ∧ Fits o (depth + 1) (count + 1) count' (payload key value) := by
  rw [pair_group_eq_ok_iff group hkey, denotes_group_iff group hkey]
  constructor
  · rintro ⟨hle, hdepth', htakes, h⟩
    obtain ⟨hf, hfits⟩ := (gather_pairs_eq_ok_iff fun p hp => ih p hp hdepth').1 ⟨hle, h⟩
    exact ⟨⟨htakes, hf⟩, hdepth', hfits⟩
  · rintro ⟨⟨htakes, hf⟩, hdepth', hfits⟩
    obtain ⟨hle, h⟩ := (gather_pairs_eq_ok_iff fun p hp => ih p hp hdepth').2 ⟨hf, hfits⟩
    exact ⟨hle, hdepth', htakes, h⟩

end

/-- A pair is compiled exactly when it stands for a filter and fits. -/
theorem pair_eq_ok_iff {f : Filter} (hdepth : depth ≤ o.maxDepth) :
    pair o depth count key value = .ok (f, count') ↔
      Denotes o key value f ∧ Fits o depth count count' [(key, value)] := by
  induction key, value using payload_induction generalizing depth count count' f with
  | h key value ih =>
  by_cases hcomb : isCombination key = true
  · rw [fits_combination_iff hcomb]
    rcases isCombination_eq_true_iff.1 hcomb with hkey | ⟨group, hkey⟩
    · exact pair_not_iff_denotes (fun p hp => ih p hp) hkey
    · exact pair_group_iff_denotes (fun p hp => ih p hp) group hkey
  · rw [Bool.not_eq_true] at hcomb
    rw [pair_test_eq_ok_iff hcomb, fits_test_iff hcomb hdepth, denotes_of_not_isCombination hcomb]

/-! ### Documents -/

/-- A document is compiled exactly when its first pair stands for a filter and is within the
limits. -/
theorem compile_eq_ok_iff {d : Json} {f : Filter} :
    compile o d = .ok f ↔ ∃ key value rest g, d = .object ((key, value) :: rest)
      ∧ Denotes o key value g ∧ f = rooted g ∧ pairCount key value ≤ o.maxNodes
      ∧ nesting key value ≤ o.maxDepth := by
  have hfits : ∀ {key : String} {value : Json},
      (∃ count, Fits o 0 0 count [(key, value)]) ↔
        pairCount key value ≤ o.maxNodes ∧ nesting key value ≤ o.maxDepth := by
    intro key value
    constructor
    · rintro ⟨count, hcount, hmax, hnest⟩
      simp only [pairCountAll_cons, pairCountAll_nil] at hcount
      refine ⟨by omega, ?_⟩
      simpa using hnest (key, value) List.mem_cons_self
    · rintro ⟨hcount, hnest⟩
      exact ⟨_, rfl, by simpa using hcount, by simpa using hnest⟩
  constructor
  · intro h
    match d with
    | .object ((key, value) :: rest) =>
      obtain ⟨⟨g, count⟩, hpair, hroot⟩ := Except.bind_eq_ok_iff.1 h
      obtain ⟨hg, hfit⟩ := (pair_eq_ok_iff (Nat.zero_le _)).1 hpair
      cases hroot
      exact ⟨key, value, rest, g, rfl, hg, rfl, hfits.1 ⟨count, hfit⟩⟩
    | .object [] | .null | .bool _ | .number _ | .string _ | .array _ => simp [compile] at h
  · rintro ⟨key, value, rest, g, rfl, hg, rfl, hlimits⟩
    obtain ⟨count, hfit⟩ := hfits.2 hlimits
    exact Except.bind_eq_ok_iff.2 ⟨(g, count), (pair_eq_ok_iff (Nat.zero_le _)).2 ⟨hg, hfit⟩, rfl⟩

end LdapFilter.Query
