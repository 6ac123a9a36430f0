import LdapFilter.Proofs.Query.Measures
import LdapFilter.Proofs.WriteBack.Member

/-!
# Writing compiled filters back

A compiled filter is always written back as a document, and compiled without escaping this document
gives the filter again (`compile_toJson_of_compile`). The document that was compiled first shows
that there are distinct keys for the children of every group: its own keys.
-/

namespace LdapFilter

/-- The same options, but text operands stand in the filter as they are. -/
def Options.verbatim (o : Options) : Options :=
  { o with escapeValues := false }

namespace Query

variable {o : Options} {key : String} {value : Json} {ps : List (String × Json)}

/-! ### Tests -/

theorem IsAttribute.verbatim {attr : String} (h : IsAttribute o attr) :
    IsAttribute o.verbatim attr :=
  ⟨h.ne_empty, h.check⟩

theorem mem_keys_of_ofKey? {p : String × Json} {negation : Option Json} {k : Keyword}
    (hp : Keyword.ofKey? p.1 = some k) (hkey : Keyword.ofKey? key = some k) :
    key ∈ (Member.ofPair p negation).keys :=
  mem_keys_ofPair.2 (Or.inr ⟨k, hp, Or.inl hkey⟩)

/-- A test is written as a pair that stands for it, under a key that the pair which it came from
has among its own. -/
theorem DenotesTest.exists_toPair {t : Test} (h : DenotesTest o key value t) :
    ∃ p, t.toPair = .ok p ∧ DenotesTest o.verbatim p.1 p.2 t ∧ p.2.KeysDistinct ∧
      key ∈ (Member.ofPair p none).keys := by
  cases h with
  | absent hkey hattr _ =>
    refine ⟨(key, .null), Test.toPair_absent_eq_ok_iff.2 ⟨hkey, rfl⟩,
      .absent hkey hattr.verbatim .null, .null, ?_⟩
    exact mem_keys_ofPair.2 (Or.inl ⟨hkey, rfl⟩)
  | @equal text _ hkey hattr _ hne =>
    refine ⟨(key, .string text), Test.toPair_equal_eq_ok_iff.2 ⟨hkey, rfl⟩,
      .equal hkey hattr.verbatim (.string text) hne, .string text, ?_⟩
    exact mem_keys_ofPair.2 (Or.inl ⟨hkey, rfl⟩)
  | @bits attr _ mask rule hkey hattr _ =>
    have hdenotes : DenotesTest o.verbatim (bitKeyword rule).name
        (Json.single attr (.number (.integer mask.toInt))) (.bitwise rule attr mask) :=
      .bits rule (Keyword.ofKey?_name _) hattr.verbatim (Integer64.gives_toInt mask)
    refine ⟨_, Test.toPair_bitwise rule attr mask, hdenotes, .single attr (.number _), ?_⟩
    exact mem_keys_of_ofKey? (Keyword.ofKey?_name _) hkey
  | @chain attr entry hkey hattr =>
    have hdenotes : DenotesTest o.verbatim Keyword.recurse.name
        (Json.single attr (.string (o.operandText entry))) (.inChain attr (o.operandText entry)) :=
      .chain (o.operandText entry) (Keyword.ofKey?_name _) hattr.verbatim
    refine ⟨_, Test.toPair_inChain attr _, hdenotes, .single attr (.string _), ?_⟩
    exact mem_keys_of_ofKey? (Keyword.ofKey?_name _) hkey

/-- The members of a nor group are written as pairs that stand for them. -/
theorem exists_mapM_toPair {tests : List Test}
    (h : List.Forall₂ (fun p t => DenotesTest o p.1 p.2 t) ps tests) :
    ∃ pairs, tests.mapM Test.toPair = .ok pairs ∧
      List.Forall₂ (fun p t => DenotesTest o.verbatim p.1 p.2 t) pairs tests ∧
      (∀ p ∈ pairs, p.2.KeysDistinct) ∧
      List.Forall₂ (fun p key => key ∈ (Member.ofPair p none).keys) pairs (ps.map Prod.fst) := by
  induction h with
  | nil => exact ⟨[], rfl, .nil, by simp, .nil⟩
  | cons ht _ ih =>
    obtain ⟨p, hp, hdenotes, hdistinct, hkey⟩ := ht.exists_toPair
    obtain ⟨pairs, hpairs, hall, hdistincts, hkeys⟩ := ih
    refine ⟨p :: pairs, ?_, .cons hdenotes hall, ?_, .cons hkey hkeys⟩
    · rw [Except.mapM_eq_ok_iff] at hpairs ⊢
      exact .cons hp hpairs
    · rw [List.forall_mem_cons]
      exact ⟨hdistinct, hdistincts⟩

/-! ### Negations of several pairs -/

theorem negationPayload?_eq_some_iff {tests : List Test} {payload : Json} :
    negationPayload? tests = some payload ↔ 2 ≤ tests.length ∧ ∃ pairs members,
      tests.mapM Test.toPair = .ok pairs ∧
        merge (pairs.map fun p => Member.ofPair p none) = .ok members ∧
        payload = .object members := by
  unfold negationPayload?
  constructor
  · intro h
    split at h
    · cases h
    · next hlength =>
      split at h
      · cases h
      · next pairs hpairs =>
        split at h
        · cases h
        · next members hmembers =>
          cases h
          exact ⟨by omega, pairs, members, hpairs, hmembers, rfl⟩
  · rintro ⟨hlength, pairs, members, hpairs, hmembers, rfl⟩
    rw [if_neg (by omega), hpairs]
    simp only [hmembers]

theorem writes_map_ofPair {tests : List Test} {pairs : List (String × Json)}
    (h : List.Forall₂ (fun p t => DenotesTest o p.1 p.2 t) pairs tests)
    (hdistinct : ∀ p ∈ pairs, p.2.KeysDistinct) :
    List.Forall₂ (Member.Writes o) (pairs.map fun p => Member.ofPair p none)
      (tests.map Filter.test) := by
  rw [List.forall₂_map_left_iff, List.forall₂_map_right_iff]
  apply forall₂_of_forall_mem h
  intro p hp t ht
  exact writes_ofPair (.test ht) (hdistinct p hp) (by simp)

/-- The payload of several negated pairs stands for the nor group under every spelling. -/
theorem denotes_negationPayload {tests : List Test} {payload : Json}
    (h : List.Forall₂ (fun p t => DenotesTest o p.1 p.2 t) ps tests)
    (hpayload : negationPayload? tests = some payload) :
    payload.KeysDistinct ∧ ∀ key, Keyword.ofKey? key = some .not →
      Denotes o.verbatim key payload (.noneOf tests) := by
  obtain ⟨hlength, pairs, members, hpairs, hmembers, rfl⟩ := negationPayload?_eq_some_iff.1 hpayload
  obtain ⟨_, hpairs', hall, hdistincts, -⟩ := exists_mapM_toPair h
  cases hpairs.symm.trans hpairs'
  obtain ⟨hdenotes, hdistinct⟩ := denotes_of_merge (writes_map_ofPair hall hdistincts) hmembers
  have htests := forall₂_denotes_map_test_iff.1 hdenotes
  exact ⟨hdistinct, fun key hkey => .notAny hkey (htests.length_eq ▸ hlength) htests⟩

/-- A nor group that came from several negated pairs can be written as such. -/
theorem exists_negationPayload {tests : List Test} (hlength : 2 ≤ ps.length)
    (h : List.Forall₂ (fun p t => DenotesTest o p.1 p.2 t) ps tests)
    (hnodup : (ps.map Prod.fst).Nodup) : ∃ payload, negationPayload? tests = some payload := by
  obtain ⟨pairs, hpairs, hall, hdistincts, hkeys⟩ := exists_mapM_toPair h
  have hkeys : List.Forall₂ (fun m key => key ∈ m.keys)
      (pairs.map fun p => Member.ofPair p none) (ps.map Prod.fst) := by
    rw [List.forall₂_map_left_iff]
    exact hkeys
  have hwrites := writes_map_ofPair hall hdistincts
  obtain ⟨members, hmembers⟩ := exists_merge_of_writes hwrites hkeys hnodup
  refine ⟨.object members, ?_⟩
  rw [negationPayload?_eq_some_iff]
  exact ⟨h.length_eq ▸ hlength, pairs, members, hpairs, hmembers, rfl⟩

/-! ### Filters -/

/-- A filter is written as a pair of a member that writes it, and that has the key of the pair which
the filter came from among its own. -/
def WritesBack (o : Options) (key : String) (f : Filter) : Prop :=
  ∃ p, f.toPair = .ok p ∧ (Member.ofPair p f.negationPayload?).Writes o f ∧
    key ∈ (Member.ofPair p f.negationPayload?).keys

theorem mem_choices_self (p : String × Json) (negation : Option Json) :
    p ∈ (Member.ofPair p negation).choices := by
  rw [mem_choices_ofPair]
  cases hkey : Keyword.ofKey? p.1 with
  | none => exact Or.inl ⟨rfl, rfl⟩
  | some k => exact Or.inr ⟨k, rfl, Or.inl ⟨rfl, rfl⟩⟩

theorem WritesBack.exists_toPair {f : Filter} (h : WritesBack o key f) :
    ∃ p, f.toPair = .ok p ∧ Denotes o p.1 p.2 f ∧ p.2.KeysDistinct := by
  obtain ⟨p, hp, hwrites, -⟩ := h
  exact ⟨p, hp, hwrites.denotes p (mem_choices_self p _)⟩

/-- The children of a group are members of one object that write them. -/
theorem exists_toMembers {children : List Filter}
    (h : List.Forall₂ (fun p f => WritesBack o p.1 f) ps children) :
    ∃ members, Filter.toMembers children = .ok members ∧
      List.Forall₂ (Member.Writes o) members children ∧
      List.Forall₂ (fun m key => key ∈ m.keys) members (ps.map Prod.fst) := by
  induction h with
  | nil => exact ⟨[], rfl, .nil, .nil⟩
  | cons hf _ ih =>
    obtain ⟨p, hp, hwrites, hkey⟩ := hf
    obtain ⟨members, hmembers, hall, hkeys⟩ := ih
    refine ⟨_, ?_, .cons hwrites hall, .cons hkey hkeys⟩
    rw [Filter.toMembers, hp, hmembers]
    rfl

/-- The children of a group are objects of their own that stand for them. -/
theorem exists_toObjects {children : List Filter}
    (h : List.Forall₂ (fun p f => WritesBack o p.1 f) ps children) :
    ∃ objects, Filter.toObjects children = .ok objects ∧
      (∀ item ∈ objects, isObject item = true ∧ item.KeysDistinct) ∧
      List.Forall₂ (fun p f => Denotes o p.1 p.2 f) (objectPairs objects) children := by
  induction h with
  | nil => exact ⟨[], rfl, by simp, .nil⟩
  | cons hf _ ih =>
    obtain ⟨p, hp, hdenotes, hdistinct⟩ := hf.exists_toPair
    obtain ⟨objects, hobjects, hitems, hall⟩ := ih
    refine ⟨Json.single p.1 p.2 :: objects, ?_, ?_, .cons hdenotes hall⟩
    · rw [Filter.toObjects, hp, hobjects]
      rfl
    · rw [List.forall_mem_cons]
      exact ⟨⟨rfl, .single p.1 hdistinct⟩, hitems⟩

theorem keysDistinct_map_single {pairs : List (String × Json)}
    (h : ∀ p ∈ pairs, p.2.KeysDistinct) :
    (Json.array (pairs.map fun p => Json.single p.1 p.2)).KeysDistinct := by
  refine .array fun item hitem => ?_
  obtain ⟨p, hp, rfl⟩ := List.mem_map.1 hitem
  exact .single p.1 (h p hp)

/-- A nor group is written as a list of its members, whatever it came from. -/
theorem writesBack_noneOf {tests : List Test}
    (h : List.Forall₂ (fun p t => DenotesTest o p.1 p.2 t) ps tests)
    (hkey : Keyword.ofKey? key = some .nor ∨
      (Keyword.ofKey? key = some .not ∧ (negationPayload? tests).isSome = true)) :
    WritesBack o.verbatim key (.noneOf tests) := by
  obtain ⟨pairs, hpairs, hall, hdistincts, -⟩ := exists_mapM_toPair h
  refine ⟨(Keyword.nor.name, .array (pairs.map fun p => Json.single p.1 p.2)), ?_, ?_, ?_⟩
  · rw [Filter.noneOf, Filter.toPair, hpairs]
    rfl
  · refine writes_ofPair (.nor (Keyword.ofKey?_name _) (isObject_map_single pairs) ?_)
      (keysDistinct_map_single hdistincts) ?_
    · rw [objectPairs_map_single]
      exact hall
    · intro payload hpayload
      exact ⟨Keyword.ofKey?_name _, denotes_negationPayload h hpayload⟩
  · exact mem_keys_ofPair.2 (Or.inr ⟨.nor, Keyword.ofKey?_name _, hkey⟩)

theorem keysDistinct_of_mem_objectPairs {items : List Json} {p : String × Json}
    (h : (Json.array items).KeysDistinct) (hp : p ∈ objectPairs items) : p.2.KeysDistinct := by
  obtain ⟨members, hmembers, hp⟩ := mem_objectPairs.1 hp
  cases h with
  | array hitems =>
    cases hitems _ hmembers with
    | object _ hvalues => exact hvalues p hp

theorem forall₂_writesBack {children : List Filter}
    (ih : ∀ p ∈ ps, ∀ {f : Filter}, Denotes o p.1 p.2 f → p.2.KeysDistinct →
      WritesBack o.verbatim p.1 f)
    (hdistinct : ∀ p ∈ ps, p.2.KeysDistinct)
    (h : List.Forall₂ (fun p f => Denotes o p.1 p.2 f) ps children) :
    List.Forall₂ (fun p f => WritesBack o.verbatim p.1 f) ps children := by
  apply forall₂_of_forall_mem h
  intro p hp f hf
  exact ih p hp hf (hdistinct p hp)

/-- A group of all its children is written as one object with the keys of the children. -/
theorem writesBack_andOf {children : List Filter}
    (h : List.Forall₂ (fun p f => WritesBack o p.1 f) ps children)
    (hnodup : (ps.map Prod.fst).Nodup) (hkey : Keyword.ofKey? key = some .and) :
    WritesBack o key (.andOf children) := by
  obtain ⟨members, hmembers, hwrites, hkeys⟩ := exists_toMembers h
  obtain ⟨pairs, hpairs⟩ := exists_merge_of_writes hwrites hkeys hnodup
  obtain ⟨hdenotes, hdistinct⟩ := denotes_of_merge hwrites hpairs
  refine ⟨(Keyword.and.name, .object pairs), ?_, ?_, ?_⟩
  · rw [Filter.andOf, Filter.toPair, hmembers]
    simp only [bind, Except.bind]
    rw [hpairs]
    rfl
  · apply writes_ofPair (.and (Keyword.ofKey?_name _) hdenotes) hdistinct
    simp [Filter.andOf, Filter.negationPayload?]
  · exact mem_keys_of_ofKey? (Keyword.ofKey?_name _) hkey

/-- A group of any of its children is written as a list with an object for each child. -/
theorem writesBack_orOf {children : List Filter}
    (h : List.Forall₂ (fun p f => WritesBack o p.1 f) ps children)
    (hkey : Keyword.ofKey? key = some .or) : WritesBack o key (.orOf children) := by
  obtain ⟨objects, hobjects, hitems, hdenotes⟩ := exists_toObjects h
  refine ⟨(Keyword.or.name, .array objects), ?_, ?_, ?_⟩
  · rw [Filter.orOf, Filter.toPair, hobjects]
    rfl
  · apply writes_ofPair
    · exact .or (Keyword.ofKey?_name _) (fun item hitem => (hitems item hitem).1) hdenotes
    · exact .array fun item hitem => (hitems item hitem).2
    · simp [Filter.orOf, Filter.negationPayload?]
  · exact mem_keys_of_ofKey? (Keyword.ofKey?_name _) hkey

/-- The negation of a single test is written as one. -/
theorem writesBack_not {p : String × Json} {t : Test} (h : DenotesTest o p.1 p.2 t)
    (hkey : Keyword.ofKey? key = some .not) : WritesBack o.verbatim key (.not t) := by
  obtain ⟨p', hp', hdenotes, hdistinct, -⟩ := h.exists_toPair
  refine ⟨(Keyword.not.name, Json.single p'.1 p'.2), ?_, ?_, ?_⟩
  · rw [Filter.toPair, hp']
    rfl
  · apply writes_ofPair (.not (Keyword.ofKey?_name _) hdenotes) (.single p'.1 hdistinct)
    simp [Filter.negationPayload?]
  · exact mem_keys_of_ofKey? (Keyword.ofKey?_name _) hkey

/-- What a pair with distinct keys stands for is written back. -/
theorem Denotes.writesBack {f : Filter} (h : Denotes o key value f)
    (hdistinct : value.KeysDistinct) : WritesBack o.verbatim key f := by
  induction key, value using payload_induction generalizing f with
  | h key value ih =>
  cases h with
  | test ht =>
    obtain ⟨p, hp, hdenotes, hpdistinct, hkey⟩ := ht.exists_toPair
    refine ⟨p, hp, writes_ofPair (.test hdenotes) hpdistinct ?_, hkey⟩
    simp [Filter.negationPayload?]
  | not hkey ht => exact writesBack_not ht hkey
  | and hkey h =>
    simp only [payload, hkey] at ih
    cases hdistinct with
    | object hnodup hvalues =>
      exact writesBack_andOf (forall₂_writesBack (fun p hp => ih p hp) hvalues h) hnodup hkey
  | or hkey hitems h =>
    simp only [payload, hkey] at ih
    apply writesBack_orOf (forall₂_writesBack (fun p hp => ih p hp) ?_ h) hkey
    intro p hp
    exact keysDistinct_of_mem_objectPairs hdistinct hp
  | nor hkey hitems h => exact writesBack_noneOf h (Or.inl hkey)
  | notAny hkey hlength h =>
    cases hdistinct with
    | object hnodup _ =>
      obtain ⟨payload, hpayload⟩ := exists_negationPayload hlength h hnodup
      exact writesBack_noneOf h (Or.inr ⟨hkey, by rw [hpayload]; rfl⟩)

/-! ### Documents -/

/-- The filter of a document is asked for by some pair with distinct keys that takes no more than
the pair of the document, except for a group around a single test. -/
theorem exists_denotes_rooted {f : Filter} (h : Denotes o key value f)
    (hdistinct : value.KeysDistinct) :
    ∃ key' value', Denotes o key' value' (rooted f) ∧ value'.KeysDistinct ∧
      (rooted f).pairCount ≤ max 2 (pairCount key value) ∧
      (rooted f).nesting ≤ max 1 (nesting key value) := by
  have hsame : rooted f = f → ∃ key' value', Denotes o key' value' (rooted f) ∧
      value'.KeysDistinct ∧ (rooted f).pairCount ≤ max 2 (pairCount key value) ∧
      (rooted f).nesting ≤ max 1 (nesting key value) := by
    intro hrooted
    rw [hrooted, h.pairCount_eq, h.nesting_eq]
    exact ⟨key, value, h, hdistinct, Nat.le_max_right _ _, Nat.le_max_right _ _⟩
  cases f with
  | test t =>
    by_cases hliteral : t.isLiteral = true
    · have hand : Denotes o Keyword.and.name (Json.single key value) (.andOf [.test t]) :=
        .and (Keyword.ofKey?_name _) (.cons h .nil)
      rw [rooted, if_pos hliteral]
      exact ⟨_, _, hand, .single key hdistinct, Nat.le_max_left _ _, Nat.le_max_left _ _⟩
    · exact hsame (by rw [rooted, if_neg hliteral])
  | _ => exact hsame rfl

theorem rooted_rooted (f : Filter) : rooted (rooted f) = rooted f := by
  cases f with
  | test t =>
    by_cases hliteral : t.isLiteral = true
    · rw [rooted, if_pos hliteral]
      rfl
    · rw [rooted, if_neg hliteral, rooted, if_neg hliteral]
  | _ => rfl

/-- A compiled filter is written back as a document, and without escaping this document is compiled
to the filter again. The bounds make room for the group around a single test. -/
theorem compile_toJson_of_compile {d : Json} {f : Filter} (hdistinct : d.KeysDistinct)
    (hdepth : 1 ≤ o.maxDepth) (hnodes : 2 ≤ o.maxNodes) (h : compile o d = .ok f) :
    ∃ j, f.toJson = .ok j ∧ j.KeysDistinct ∧
      compile { o with escapeValues := false } j = .ok f := by
  obtain ⟨key, value, rest, g, rfl, hg, rfl, hcount, hnest⟩ := compile_eq_ok_iff.1 h
  have hvalue : value.KeysDistinct := by
    cases hdistinct with
    | object _ hvalues => exact hvalues (key, value) List.mem_cons_self
  obtain ⟨key', value', hroot, hroot_distinct, hcount', hnest'⟩ := exists_denotes_rooted hg hvalue
  obtain ⟨p, hp, hdenotes, hpdistinct⟩ := (hroot.writesBack hroot_distinct).exists_toPair
  refine ⟨Json.single p.1 p.2, ?_, .single p.1 hpdistinct, ?_⟩
  · rw [Filter.toJson, hp]
    rfl
  · rw [compile_eq_ok_iff]
    refine ⟨p.1, p.2, [], rooted g, rfl, hdenotes, (rooted_rooted g).symm, ?_, ?_⟩
    · rw [hdenotes.pairCount_eq]
      exact Nat.le_trans hcount' (Nat.max_le.2 ⟨hnodes, hcount⟩)
    · rw [hdenotes.nesting_eq]
      exact Nat.le_trans hnest' (Nat.max_le.2 ⟨hdepth, hnest⟩)

theorem compile_toJson_of_repeated_keywords :
    ∃ f j, compile .strict (Json.single "And" (.object [
        ("not", .object [("cn", .string "a*"), ("sn", .null)]),
        ("NOT", Json.single "uid" (.string "b"))])) = .ok f ∧ f.toJson = .ok j ∧
      compile { Options.strict with escapeValues := false } j = .ok f := by
  have hdistinct := Json.keysDistinct_settled (Json.single "And" (.object [
    ("not", .object [("cn", .string "a*"), ("sn", .null)]),
    ("NOT", Json.single "uid" (.string "b"))]))
  obtain ⟨j, hj, -, hcompile⟩ :=
    compile_toJson_of_compile (o := .strict) hdistinct (by decide) (by decide) rfl
  exact ⟨_, j, rfl, hj, hcompile⟩

end Query

end LdapFilter
