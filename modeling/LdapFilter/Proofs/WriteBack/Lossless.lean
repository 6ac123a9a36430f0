import LdapFilter.Proofs.Filter.Built
import LdapFilter.Proofs.WriteBack.RoundTrip

/-!
# Writing built filters back

A filter that was built by hand may have no document: two tests of one object may name the same
attribute, an attribute may spell a keyword, and a keyword has only so many spellings. Then writing
it back fails, with an error that says so. Whenever a document is written, it stands for the filter
that it was written for (`Sound.denotes_of_toPair`), so that compiling it gives this filter again
(`compile_toJson_of_built`).
-/

namespace LdapFilter

/-! ### Options without restrictions -/

/-- Options under which every attribute is accepted and values stand as they are. -/
structure Options.IsUnrestricted (o : Options) : Prop where
  allowed : o.allowedAttributes = []
  validate : o.validateAttributes = false
  escape : o.escapeValues = false

namespace Options.IsUnrestricted

variable {o : Options} (ho : o.IsUnrestricted)
include ho

theorem isAttribute {attr : String} (hne : attr ≠ "") : Query.IsAttribute o attr := by
  refine ⟨hne, checkAttribute_eq_ok_iff.2 ⟨?_, ?_⟩⟩
  · rw [ho.validate]
    nofun
  · rw [Options.allows, ho.allowed]
    rfl

theorem verbatim : o.verbatim = o := by
  rw [Options.verbatim, ← ho.escape]

theorem operandText (text : String) : o.operandText text = text := by
  rw [Options.operandText, ho.escape]
  rfl

end Options.IsUnrestricted

variable {o : Options}

/-! ### What is written stands for the filter -/

/-- A proper test that is written as a pair is what the pair stands for. -/
theorem Test.denotesTest_of_toPair {t : Test} {p : String × Json} (ho : o.IsUnrestricted)
    (ht : t.IsProper) (h : t.toPair = .ok p) :
    Query.DenotesTest o p.1 p.2 t ∧ p.2.KeysDistinct := by
  have hattr := ho.isAttribute ht.attr_ne_empty
  cases t with
  | equal attr value =>
    obtain ⟨hkey, rfl⟩ := Test.toPair_equal_eq_ok_iff.1 h
    have hvalue : value ≠ "" := fun he => ht.value?_ne_empty (congrArg some he)
    have htext : Query.ComparesAs o (.string value) value := by
      have := Query.ComparesAs.string (o := o) value
      rwa [ho.operandText] at this
    exact ⟨.equal hkey hattr htext hvalue, .string value⟩
  | absent attr =>
    obtain ⟨hkey, rfl⟩ := Test.toPair_absent_eq_ok_iff.1 h
    exact ⟨.absent hkey hattr .null, .null⟩
  | bitwise rule attr mask =>
    rw [Test.toPair_bitwise] at h
    cases h
    have hdenotes : Query.DenotesTest o (Query.bitKeyword rule).name
        (Json.single attr (.number (.integer mask.toInt))) (.bitwise rule attr mask) :=
      .bits rule (Keyword.ofKey?_name _) hattr (Integer64.gives_toInt mask)
    exact ⟨hdenotes, .single attr (.number _)⟩
  | inChain attr entry =>
    rw [Test.toPair_inChain] at h
    cases h
    have hdenotes : Query.DenotesTest o Keyword.recurse.name
        (Json.single attr (.string entry)) (.inChain attr (o.operandText entry)) :=
      .chain entry (Keyword.ofKey?_name _) hattr
    rw [ho.operandText] at hdenotes
    exact ⟨hdenotes, .single attr (.string entry)⟩

namespace Filter

open Query (Member merge Denotes DenotesTest)

/-- The children of a group are written one by one. -/
theorem toMembers_eq_mapM (children : List Filter) :
    toMembers children =
      children.mapM fun c => (fun p => Member.ofPair p c.negationPayload?) <$> c.toPair := by
  induction children with
  | nil => rfl
  | cons c children ih =>
    rw [toMembers, ih, List.mapM_cons]
    cases c.toPair <;> rfl

theorem toObjects_eq_mapM (children : List Filter) :
    toObjects children =
      (fun pairs => pairs.map fun p => Json.single p.1 p.2) <$> children.mapM toPair := by
  induction children with
  | nil => rfl
  | cons c children ih =>
    rw [toObjects, ih, List.mapM_cons]
    cases c.toPair with
    | error e => rfl
    | ok p => cases children.mapM toPair <;> rfl

/-- The pairs that proper tests are written as stand for these tests. -/
theorem denotesTest_of_mapM_toPair {tests : List Test} {pairs : List (String × Json)}
    (ho : o.IsUnrestricted) (htests : ∀ t ∈ tests, t.IsProper)
    (h : tests.mapM Test.toPair = .ok pairs) :
    List.Forall₂ (fun p t => DenotesTest o p.1 p.2 t) pairs tests ∧
      ∀ p ∈ pairs, p.2.KeysDistinct := by
  rw [Except.mapM_eq_ok_iff] at h
  have hall := forall₂_of_forall_mem h fun t ht p hp =>
    Test.denotesTest_of_toPair ho (htests t ht) hp
  refine ⟨hall.flip.imp fun p t hp => hp.1, fun p hp => ?_⟩
  obtain ⟨t, ht⟩ := exists_forall₂_iff.1 ⟨_, hall.flip⟩ p hp
  exact ht.2

/-- A filter that is written as a pair which stands for it is a member of an object that writes
it. -/
theorem writes_of_denotes {f : Filter} {p : String × Json} (ho : o.IsUnrestricted)
    (h : f.toPair = .ok p) (hp : Denotes o p.1 p.2 f ∧ p.2.KeysDistinct) :
    (Member.ofPair p f.negationPayload?).Writes o f := by
  obtain ⟨p', hp', hwrites, -⟩ := hp.1.writesBack hp.2
  rw [ho.verbatim] at hwrites
  cases h.symm.trans hp'
  exact hwrites

/-- The pair that a sound filter is written as stands for the filter. -/
theorem Sound.denotes_of_toPair {f : Filter} {p : String × Json} (ho : o.IsUnrestricted)
    (hf : Sound f) (h : f.toPair = .ok p) : Denotes o p.1 p.2 f ∧ p.2.KeysDistinct := by
  induction hf generalizing p with
  | test ht =>
    obtain ⟨hdenotes, hdistinct⟩ := Test.denotesTest_of_toPair ho ht h
    exact ⟨.test hdenotes, hdistinct⟩
  | not ht =>
    obtain ⟨q, hq, hp⟩ := Except.bind_eq_ok_iff.1 h
    cases hp
    obtain ⟨hdenotes, hdistinct⟩ := Test.denotesTest_of_toPair ho ht hq
    exact ⟨.not (Keyword.ofKey?_name _) hdenotes, .single q.1 hdistinct⟩
  | @and children _ ih =>
    obtain ⟨members, hmembers, hp⟩ := Except.bind_eq_ok_iff.1 h
    obtain ⟨pairs, hpairs, hp⟩ := Except.bind_eq_ok_iff.1 hp
    cases hp
    -- What the members stand for is known one by one; merging only chooses their keys.
    rw [toMembers_eq_mapM, Except.mapM_eq_ok_iff] at hmembers
    have hwrites : List.Forall₂ (fun c m => Member.Writes o m c) children members := by
      apply forall₂_of_forall_mem hmembers
      intro c hc m hm
      obtain ⟨q, hq, rfl⟩ := Except.map_eq_ok_iff.1 hm
      exact writes_of_denotes ho hq (ih c hc hq)
    obtain ⟨hdenotes, hdistinct⟩ := Query.denotes_of_merge hwrites.flip hpairs
    exact ⟨.and (Keyword.ofKey?_name _) hdenotes, hdistinct⟩
  | or _ ih =>
    obtain ⟨objects, hobjects, hp⟩ := Except.bind_eq_ok_iff.1 h
    cases hp
    rw [toObjects_eq_mapM] at hobjects
    obtain ⟨pairs, hpairs, rfl⟩ := Except.map_eq_ok_iff.1 hobjects
    rw [Except.mapM_eq_ok_iff] at hpairs
    have hall := forall₂_of_forall_mem hpairs fun c hc q hq => ih c hc hq
    refine ⟨.or (Keyword.ofKey?_name _) (Query.isObject_map_single pairs) ?_,
      Query.keysDistinct_map_single fun q hq => ?_⟩
    · rw [Query.objectPairs_map_single]
      exact hall.flip.imp fun q c hq => hq.1
    · obtain ⟨c, hc⟩ := exists_forall₂_iff.1 ⟨_, hall.flip⟩ q hq
      exact hc.2
  | nor htests =>
    obtain ⟨pairs, hpairs, hp⟩ := Except.bind_eq_ok_iff.1 h
    cases hp
    -- As a pair a nor group is always a list; only merging may write it as a negation.
    obtain ⟨hdenotes, hdistinct⟩ := denotesTest_of_mapM_toPair ho htests hpairs
    refine ⟨.nor (Keyword.ofKey?_name _) (Query.isObject_map_single pairs) ?_,
      Query.keysDistinct_map_single hdistinct⟩
    rw [Query.objectPairs_map_single]
    exact hdenotes

end Filter

/-! ### What is not written -/

/-- Whether an error says why a filter has no document. -/
def FilterError.IsConflict (e : FilterError) : Prop :=
  ∃ conflict, e = .unrepresentable conflict

open FilterError (IsConflict)

theorem Test.failsOnly_toPair (t : Test) : Except.FailsOnly IsConflict t.toPair := by
  cases t with
  | equal attr value =>
    rw [Test.toPair]
    cases (Keyword.ofKey? attr).isSome with
    | true => exact .error ⟨_, rfl⟩
    | false => exact .ok _
  | absent attr =>
    rw [Test.toPair]
    cases (Keyword.ofKey? attr).isSome with
    | true => exact .error ⟨_, rfl⟩
    | false => exact .ok _
  | bitwise rule attr mask => cases rule <;> exact .ok _
  | inChain attr entry => exact .ok _

namespace Query

theorem Member.failsOnly_choose (m : Member) (taken : List String) :
    Except.FailsOnly IsConflict (m.choose taken) := by
  unfold Member.choose
  split
  · exact .ok _
  · exact .error ⟨m.conflict, rfl⟩

theorem failsOnly_chooseAll (flexible : Bool) (taken : List String) (slots : List Slot) :
    Except.FailsOnly IsConflict (chooseAll flexible taken slots) := by
  induction slots generalizing taken with
  | nil => exact .ok _
  | cons slot slots ih =>
    rw [chooseAll]
    split
    · apply (slot.member.failsOnly_choose taken).bind
      intro choice
      exact (ih _).bind fun _ => .ok _
    · exact (ih taken).bind fun _ => .ok _

theorem failsOnly_merge (members : List Member) : Except.FailsOnly IsConflict (merge members) := by
  apply (failsOnly_chooseAll false [] _).bind
  rintro ⟨slots, taken⟩
  exact (failsOnly_chooseAll true taken slots).bind fun _ => .ok _

end Query

namespace Filter

mutual
/-- A filter that is not written has a conflict among its keys. -/
theorem failsOnly_toPair (f : Filter) : Except.FailsOnly IsConflict f.toPair := by
  match f with
  | .test t =>
    rw [toPair]
    exact t.failsOnly_toPair
  | .not t =>
    rw [toPair]
    exact t.failsOnly_toPair.bind fun _ => .ok _
  | .and children _ =>
    rw [toPair]
    apply (failsOnly_toMembers children).bind
    intro members
    exact (Query.failsOnly_merge members).bind fun _ => .ok _
  | .or children _ =>
    rw [toPair]
    exact (failsOnly_toObjects children).bind fun _ => .ok _
  | .nor members _ =>
    rw [toPair]
    apply Except.FailsOnly.bind
    · exact .mapM fun t _ => t.failsOnly_toPair
    · exact fun _ => .ok _

theorem failsOnly_toMembers (children : List Filter) :
    Except.FailsOnly IsConflict (toMembers children) := by
  match children with
  | [] => exact .ok _
  | child :: children =>
    rw [toMembers]
    apply (failsOnly_toPair child).bind
    intro _
    exact (failsOnly_toMembers children).bind fun _ => .ok _

theorem failsOnly_toObjects (children : List Filter) :
    Except.FailsOnly IsConflict (toObjects children) := by
  match children with
  | [] => exact .ok _
  | child :: children =>
    rw [toObjects]
    apply (failsOnly_toPair child).bind
    intro _
    exact (failsOnly_toObjects children).bind fun _ => .ok _
end

/-! ### Documents of built filters -/

theorem rooted_eq (f : Filter) :
    Query.rooted f = if f.kind = .equal then .andOf [f] else f := by
  cases f with
  | test t =>
    have hkind : t.kind = .equal ↔ t.isLiteral = true := by
      cases t with
      | bitwise rule => cases rule <;> simp [Test.kind, BitRule.kind, Test.isLiteral]
      | _ => simp [Test.kind, Test.isLiteral]
    simp only [Query.rooted, kind, hkind]
  | _ => rfl

/-- A document that is written for a built filter is compiled to this filter, or to the group around
it when it is an equality or an absence, by all options without restrictions whose limits exceed the
number of its nodes. When no document is written, the error says what the conflict is. -/
theorem compile_toJson_of_built {f : Filter} (hf : Built f) :
    (∀ j, f.toJson = .ok j → j.KeysDistinct ∧ ∀ o : Options, o.allowedAttributes = [] →
      o.validateAttributes = false → o.escapeValues = false →
      f.nodes.length + 1 ≤ o.maxDepth → f.nodes.length + 1 ≤ o.maxNodes →
      Query.compile o j = .ok (if f.kind = .equal then .andOf [f] else f)) ∧
    ∀ e, f.toJson = .error e → ∃ conflict, e = .unrepresentable conflict := by
  constructor
  · intro j hj
    obtain ⟨p, hp, hj⟩ := Except.bind_eq_ok_iff.1 hj
    cases hj
    refine ⟨?_, fun o hallowed hvalidate hescape hdepth hnodes => ?_⟩
    · have hdefault : ({} : Options).IsUnrestricted := ⟨rfl, rfl, rfl⟩
      exact .single p.1 (hf.sound.denotes_of_toPair hdefault hp).2
    · obtain ⟨hdenotes, -⟩ := hf.sound.denotes_of_toPair ⟨hallowed, hvalidate, hescape⟩ hp
      -- Both limits are about pairs, and there are no more of them than nodes.
      have hlength := length_nodes f
      have hnesting := nesting_le_pairCount f
      rw [Query.compile_eq_ok_iff]
      refine ⟨p.1, p.2, [], f, rfl, hdenotes, (rooted_eq f).symm, ?_, ?_⟩
      · rw [hdenotes.pairCount_eq]
        omega
      · rw [hdenotes.nesting_eq]
        omega
  · exact (failsOnly_toPair f).bind fun _ => .ok _

theorem compile_toJson_of_built_with_keywords :
    Built (andOf [.test (.bitwise .all "or" 2), .test (.bitwise .all "cn:1:" (-1)),
      .not (.absent "cn")]) ∧
    (andOf [.test (.bitwise .all "or" 2), .test (.bitwise .all "cn:1:" (-1)),
      .not (.absent "cn")]).toJson = .ok (Json.single "and" (.object [
        ("band", Json.single "or" (.number (.integer 2))),
        ("Band", Json.single "cn:1:" (.number (.integer (-1)))),
        ("not", Json.single "cn" .null)])) ∧
    Query.compile {} (Json.single "and" (.object [
        ("band", Json.single "or" (.number (.integer 2))),
        ("Band", Json.single "cn:1:" (.number (.integer (-1)))),
        ("not", Json.single "cn" .null)])) =
      .ok (andOf [.test (.bitwise .all "or" 2), .test (.bitwise .all "cn:1:" (-1)),
        .not (.absent "cn")]) := by
  have hbuilt : Built (andOf [.test (.bitwise .all "or" 2), .test (.bitwise .all "cn:1:" (-1)),
      .not (.absent "cn")]) := by
    rw [built_iff_sound]
    apply Sound.and
    rw [List.forall_mem_cons, List.forall_mem_cons, List.forall_mem_singleton]
    exact ⟨.test ⟨by decide, by decide⟩, .test ⟨by decide, by decide⟩, .not ⟨by decide, by decide⟩⟩
  have hwritten : (andOf [.test (.bitwise .all "or" 2), .test (.bitwise .all "cn:1:" (-1)),
      .not (.absent "cn")]).toJson = .ok (Json.single "and" (.object [
        ("band", Json.single "or" (.number (.integer 2))),
        ("Band", Json.single "cn:1:" (.number (.integer (-1)))),
        ("not", Json.single "cn" .null)])) := by
    rfl
  have hcompile := ((compile_toJson_of_built hbuilt).1 _ hwritten).2 {} rfl rfl rfl
    (by decide) (by decide)
  exact ⟨hbuilt, hwritten, hcompile⟩

end Filter

end LdapFilter
