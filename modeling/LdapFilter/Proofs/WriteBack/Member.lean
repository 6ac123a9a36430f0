import LdapFilter.Proofs.Json
import LdapFilter.Proofs.Keyword
import LdapFilter.Proofs.Query.Acceptance
import LdapFilter.Proofs.WriteBack.Merge

/-!
# Members that stand for filters

A member writes a filter when each pair that it may choose stands for the filter. The keys of such
members are nested in the order in which they choose, so they share an object as soon as there are
distinct keys for them, and then the pairs of this object stand for the filters one by one
(`exists_merge_of_writes`, `denotes_of_merge`).
-/

namespace LdapFilter.Query

variable {o : Options} {key key' : String} {value : Json} {k : Keyword}

/-! ### Spellings -/

/-- A test that is asked for by a keyword is asked for by each of its spellings. -/
theorem DenotesTest.respell {t : Test} (h : DenotesTest o key value t)
    (hkey : Keyword.ofKey? key = some k) (hkey' : Keyword.ofKey? key' = some k) :
    DenotesTest o key' value t := by
  rw [← hkey] at hkey'
  cases h with
  | absent hnone => simp [hnone] at hkey
  | equal hnone => simp [hnone] at hkey
  | bits rule hrule hattr hmask => exact .bits rule (hkey'.trans hrule) hattr hmask
  | chain entry hrule hattr => exact .chain entry (hkey'.trans hrule) hattr

/-- A filter that is asked for by a keyword is asked for by each of its spellings. -/
theorem Denotes.respell {f : Filter} (h : Denotes o key value f)
    (hkey : Keyword.ofKey? key = some k) (hkey' : Keyword.ofKey? key' = some k) :
    Denotes o key' value f := by
  have hsame := hkey'.trans hkey.symm
  cases h with
  | test ht => exact .test (ht.respell hkey hkey')
  | not hnot ht => exact .not (hsame.trans hnot) ht
  | and hand h => exact .and (hsame.trans hand) h
  | or hor hitems h => exact .or (hsame.trans hor) hitems h
  | nor hnor hitems h => exact .nor (hsame.trans hnor) hitems h
  | notAny hnot hlength h => exact .notAny (hsame.trans hnot) hlength h

/-! ### Choices -/

variable {p choice : String × Json} {negation : Option Json}

/-- A member keeps its pair, up to the spelling of its keyword, or becomes a negation. -/
theorem mem_choices_ofPair : choice ∈ (Member.ofPair p negation).choices ↔
    (Keyword.ofKey? p.1 = none ∧ choice = p) ∨ ∃ k, Keyword.ofKey? p.1 = some k ∧
      ((Keyword.ofKey? choice.1 = some k ∧ choice.2 = p.2) ∨
        (Keyword.ofKey? choice.1 = some .not ∧ negation = some choice.2)) := by
  have hspelled : ∀ {k : Keyword} {payload : Json}, choice ∈ Member.spelled k payload ↔
      Keyword.ofKey? choice.1 = some k ∧ choice.2 = payload := by
    intro k payload
    rw [Member.spelled, List.mem_map]
    constructor
    · rintro ⟨key, hkey, rfl⟩
      exact ⟨Keyword.mem_spellings_iff.1 hkey, rfl⟩
    · rintro ⟨hkey, rfl⟩
      exact ⟨choice.1, Keyword.mem_spellings_iff.2 hkey, rfl⟩
  unfold Member.ofPair
  split
  · next hnone => simp [hnone]
  · next k hk =>
    cases negation with
    | none => simp [hk, hspelled]
    | some payload => simp [hk, hspelled, eq_comm]

theorem mem_keys_ofPair : key ∈ (Member.ofPair p negation).keys ↔
    (Keyword.ofKey? p.1 = none ∧ key = p.1) ∨ ∃ k, Keyword.ofKey? p.1 = some k ∧
      (Keyword.ofKey? key = some k ∨
        (Keyword.ofKey? key = some .not ∧ negation.isSome = true)) := by
  rw [Member.keys, List.mem_map]
  constructor
  · rintro ⟨choice, hchoice, rfl⟩
    rcases mem_choices_ofPair.1 hchoice with ⟨hnone, rfl⟩ | ⟨k, hk, ⟨hkey, -⟩ | ⟨hkey, hpayload⟩⟩
    · exact Or.inl ⟨hnone, rfl⟩
    · exact Or.inr ⟨k, hk, Or.inl hkey⟩
    · exact Or.inr ⟨k, hk, Or.inr ⟨hkey, by rw [hpayload]; rfl⟩⟩
  · rintro (⟨hnone, rfl⟩ | ⟨k, hk, hkey | ⟨hkey, hsome⟩⟩)
    · exact ⟨p, mem_choices_ofPair.2 (Or.inl ⟨hnone, rfl⟩), rfl⟩
    · exact ⟨(key, p.2), mem_choices_ofPair.2 (Or.inr ⟨k, hk, Or.inl ⟨hkey, rfl⟩⟩), rfl⟩
    · obtain ⟨payload, hpayload⟩ := Option.isSome_iff_exists.1 hsome
      exact ⟨(key, payload), mem_choices_ofPair.2 (Or.inr ⟨k, hk, Or.inr ⟨hkey, hpayload⟩⟩), rfl⟩

theorem flexible_ofPair : (Member.ofPair p negation).flexible = negation.isSome := by
  unfold Member.ofPair
  split <;> rfl

/-- The keys of members are nested in the order in which the members choose, as long as only lists
of a nor group have a negation. -/
theorem nested_ofPair {p' : String × Json} {negation' : Option Json}
    (hnor : negation.isSome = true → Keyword.ofKey? p.1 = some .nor)
    (hnor' : negation'.isSome = true → Keyword.ofKey? p'.1 = some .nor)
    (hflexible : (Member.ofPair p negation).flexible = true →
      (Member.ofPair p' negation').flexible = true) :
    Nested (Member.ofPair p negation).keys (Member.ofPair p' negation').keys := by
  rw [flexible_ofPair, flexible_ofPair] at hflexible
  by_cases hcommon : ∃ key ∈ (Member.ofPair p negation).keys,
      key ∈ (Member.ofPair p' negation').keys
  · obtain ⟨key, hkey, hkey'⟩ := hcommon
    left
    intro other hother
    rw [mem_keys_ofPair] at hkey hkey' hother ⊢
    rcases hother with ⟨hnone, rfl⟩ | ⟨k, hk, hother⟩
    · -- An attribute is the only key of its member.
      rcases hkey with ⟨-, rfl⟩ | ⟨k, hk, -⟩
      · exact hkey'
      · simp [hnone] at hk
    · have hkey : Keyword.ofKey? key = some k ∨
          (Keyword.ofKey? key = some .not ∧ negation.isSome = true) := by
        rcases hkey with ⟨hnone, -⟩ | ⟨k', hk', hkey⟩
        · simp [hk] at hnone
        · rwa [Option.some.inj (hk.symm.trans hk')]
      rcases hkey' with ⟨hnone, rfl⟩ | ⟨k', hk', hkey'⟩
      · rcases hkey with hkey | ⟨hkey, -⟩ <;> simp [hnone] at hkey
      refine Or.inr ⟨k', hk', ?_⟩
      by_cases hsome : negation.isSome = true
      · -- Both choose among the spellings of two keywords.
        have hsame : k' = k := by
          rw [hnor hsome] at hk
          rw [hnor' (hflexible hsome)] at hk'
          exact Option.some.inj (hk'.symm.trans hk)
        rw [hsame]
        exact hother.imp_right fun hnot => ⟨hnot.1, hflexible hsome⟩
      · have hother : Keyword.ofKey? other = some k := hother.resolve_right fun h => hsome h.2
        have hkey : Keyword.ofKey? key = some k := hkey.resolve_right fun h => hsome h.2
        rw [hother, ← hkey]
        exact hkey'
  · right
    intro key hkey hkey'
    exact hcommon ⟨key, hkey, hkey'⟩

/-! ### Members -/

/-- Every pair that a member may choose stands for a filter. -/
structure Member.Writes (o : Options) (m : Member) (f : Filter) : Prop where
  exists_ofPair : ∃ p negation, m = Member.ofPair p negation ∧
    (negation.isSome = true → Keyword.ofKey? p.1 = some .nor)
  denotes : ∀ choice ∈ m.choices, Denotes o choice.1 choice.2 f ∧ choice.2.KeysDistinct

/-- A pair that stands for a filter makes up a member, with a negation that stands for the same. -/
theorem writes_ofPair {f : Filter} (hp : Denotes o p.1 p.2 f) (hdistinct : p.2.KeysDistinct)
    (hnegation : ∀ payload, negation = some payload → Keyword.ofKey? p.1 = some .nor ∧
      payload.KeysDistinct ∧ ∀ key, Keyword.ofKey? key = some .not → Denotes o key payload f) :
    (Member.ofPair p negation).Writes o f := by
  refine ⟨⟨p, negation, rfl, fun hsome => ?_⟩, fun choice hchoice => ?_⟩
  · obtain ⟨payload, hpayload⟩ := Option.isSome_iff_exists.1 hsome
    exact (hnegation payload hpayload).1
  · rcases mem_choices_ofPair.1 hchoice with ⟨-, rfl⟩ | ⟨k, hk, ⟨hkey, hvalue⟩ | ⟨hkey, hpayload⟩⟩
    · exact ⟨hp, hdistinct⟩
    · rw [hvalue]
      exact ⟨hp.respell hk hkey, hdistinct⟩
    · obtain ⟨-, hpayload_distinct, hdenotes⟩ := hnegation choice.2 hpayload
      exact ⟨hdenotes choice.1 hkey, hpayload_distinct⟩

/-- The keys of members that write filters are nested in the order in which the members choose. -/
theorem Member.Writes.nested {m m' : Member} {f f' : Filter} (h : m.Writes o f)
    (h' : m'.Writes o f') (hflexible : m.flexible = true → m'.flexible = true) :
    Nested m.keys m'.keys := by
  obtain ⟨p, negation, rfl, hnor⟩ := h.exists_ofPair
  obtain ⟨p', negation', rfl, hnor'⟩ := h'.exists_ofPair
  exact nested_ofPair hnor hnor' hflexible

/-- Members that write filters share an object when there are distinct keys for them. -/
theorem exists_merge_of_writes {members : List Member} {children : List Filter}
    {keys : List String} (h : List.Forall₂ (Member.Writes o) members children)
    (hkeys : List.Forall₂ (fun m key => key ∈ m.keys) members keys) (hnodup : keys.Nodup) :
    ∃ pairs, merge members = .ok pairs := by
  have hwrites := exists_forall₂_iff.1 ⟨_, h⟩
  have hnested : ∀ m ∈ members, ∀ m' ∈ members,
      (m.flexible = true → m'.flexible = true) → Nested m.keys m'.keys := by
    intro m hm m' hm' hflexible
    obtain ⟨f, hf⟩ := hwrites m hm
    obtain ⟨f', hf'⟩ := hwrites m' hm'
    exact hf.nested hf' hflexible
  rw [exists_merge_iff hnested]
  refine ⟨keys, ?_, hnodup, by simp⟩
  rw [List.forall₂_map_left_iff]
  exact hkeys

theorem denotes_of_choices {members : List Member} {children : List Filter}
    {pairs : List (String × Json)} (h : List.Forall₂ (Member.Writes o) members children)
    (hchoices : List.Forall₂ (fun m p => p ∈ m.choices) members pairs) :
    List.Forall₂ (fun p f => Denotes o p.1 p.2 f ∧ p.2.KeysDistinct) pairs children := by
  apply forall₂_trans hchoices.flip h
  intro p m f hp hm
  exact hm.denotes p hp

/-- The pairs that such members share an object with stand for the filters, one by one. -/
theorem denotes_of_merge {members : List Member} {children : List Filter}
    {pairs : List (String × Json)} (h : List.Forall₂ (Member.Writes o) members children)
    (hmerge : merge members = .ok pairs) :
    List.Forall₂ (fun p f => Denotes o p.1 p.2 f) pairs children ∧
      (Json.object pairs).KeysDistinct := by
  obtain ⟨hchoices, hnodup⟩ := merge_eq_ok hmerge
  have hpairs := denotes_of_choices h hchoices
  refine ⟨hpairs.imp fun p f hp => hp.1, .object hnodup fun p hp => ?_⟩
  obtain ⟨f, -, hdistinct⟩ := exists_forall₂_iff.1 ⟨_, hpairs⟩ p hp
  exact hdistinct

end LdapFilter.Query
