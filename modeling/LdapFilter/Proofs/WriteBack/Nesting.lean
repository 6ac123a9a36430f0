import LdapFilter.Proofs.Json.Text
import LdapFilter.Proofs.WriteBack.Lossless

/-!
# Texts of written documents

The document that a filter is written as nests deeper than the one that the filter came from: a
negation of several pairs is written as a list of objects, and a single literal test in a group of
its own. Still every level of payloads adds two levels of lists and objects at most
(`Filter.fits_of_toPair`), so under the default options the text of the document is not too deep to
be read back (`decode_compact_of_compile`).
-/

namespace LdapFilter

variable {n : Nat}

/-! ### Room for values -/

/-- A value that has at most some levels of lists and objects, and no numbers but integers. -/
structure Json.Fits (n : Nat) (j : Json) : Prop where
  depth : j.depth ≤ n
  integral : j.IsIntegral

namespace Json.Fits

theorem mono {m : Nat} {j : Json} (h : j.Fits m) (hmn : m ≤ n) : j.Fits n :=
  ⟨Nat.le_trans h.depth hmn, h.integral⟩

theorem null : Json.null.Fits 0 :=
  ⟨Nat.le_refl 0, .null⟩

theorem string (s : String) : (Json.string s).Fits 0 :=
  ⟨Nat.le_refl 0, .string s⟩

theorem number (m : Int64) : (Json.number (.integer m.toInt)).Fits 0 := by
  refine ⟨Nat.le_refl 0, .number ⟨m.minValue_le_toInt, ?_⟩⟩
  have hle := m.toInt_le
  have hlt : Int64.maxValue.toInt < UInt64.size := by decide
  omega

theorem array {items : List Json} (h : ∀ item ∈ items, item.Fits n) :
    (Json.array items).Fits (n + 1) := by
  refine ⟨?_, .array fun item hitem => (h item hitem).integral⟩
  rw [Json.depth, Nat.add_comm]
  exact Nat.succ_le_succ (itemsDepth_le_iff.2 fun item hitem => (h item hitem).depth)

theorem object {members : List (String × Json)} (h : ∀ member ∈ members, member.2.Fits n) :
    (Json.object members).Fits (n + 1) := by
  refine ⟨?_, .object fun member hmember => (h member hmember).integral⟩
  rw [Json.depth, Nat.add_comm]
  exact Nat.succ_le_succ (membersDepth_le_iff.2 fun member hmember => (h member hmember).depth)

theorem single {value : Json} (key : String) (h : value.Fits n) :
    (Json.single key value).Fits (n + 1) :=
  object (by simpa using h)

theorem map_single {pairs : List (String × Json)} (h : ∀ p ∈ pairs, p.2.Fits n) :
    (Json.array (pairs.map fun p => Json.single p.1 p.2)).Fits (n + 2) := by
  apply array
  rw [List.forall_mem_map]
  exact fun p hp => single p.1 (h p hp)

end Json.Fits

/-! ### Tests -/

theorem Test.fits_of_isLiteral {t : Test} {p : String × Json} (hliteral : t.isLiteral = true)
    (h : t.toPair = .ok p) : p.2.Fits 0 := by
  cases t with
  | equal attr value =>
    obtain ⟨-, rfl⟩ := Test.toPair_equal_eq_ok_iff.1 h
    exact .string value
  | absent attr =>
    obtain ⟨-, rfl⟩ := Test.toPair_absent_eq_ok_iff.1 h
    exact .null
  | bitwise _ _ _ | inChain _ _ => cases hliteral

theorem Test.fits_of_toPair {t : Test} {p : String × Json} (h : t.toPair = .ok p) :
    p.2.Fits 1 := by
  cases t with
  | equal attr value => exact (fits_of_isLiteral rfl h).mono (Nat.zero_le 1)
  | absent attr => exact (fits_of_isLiteral rfl h).mono (Nat.zero_le 1)
  | bitwise rule attr mask =>
    rw [Test.toPair_bitwise] at h
    cases h
    exact .single attr (.number mask)
  | inChain attr entry =>
    rw [Test.toPair_inChain] at h
    cases h
    exact .single attr (.string entry)

theorem Test.fits_of_mapM_toPair {tests : List Test} {pairs : List (String × Json)}
    (h : tests.mapM Test.toPair = .ok pairs) : ∀ p ∈ pairs, p.2.Fits 1 := by
  intro p hp
  rw [Except.mapM_eq_ok_iff] at h
  obtain ⟨t, ht⟩ := exists_forall₂_iff.1 ⟨_, h.flip⟩ p hp
  exact Test.fits_of_toPair ht

/-! ### Objects -/

namespace Query

theorem Member.fits_of_ofPair {p : String × Json} {negation : Option Json} (hp : p.2.Fits n)
    (hnegation : ∀ payload, negation = some payload → payload.Fits n) :
    ∀ choice ∈ (Member.ofPair p negation).choices, choice.2.Fits n := by
  intro choice hchoice
  rcases mem_choices_ofPair.1 hchoice with ⟨-, rfl⟩ | ⟨k, -, ⟨-, hvalue⟩ | ⟨-, hpayload⟩⟩
  · exact hp
  · rw [hvalue]
    exact hp
  · exact hnegation choice.2 hpayload

/-- Sharing an object takes one more level than the choices of the members. -/
theorem fits_of_merge {members : List Member} {pairs : List (String × Json)}
    (hchoices : ∀ m ∈ members, ∀ choice ∈ m.choices, choice.2.Fits n)
    (h : merge members = .ok pairs) : (Json.object pairs).Fits (n + 1) := by
  apply Json.Fits.object
  intro p hp
  have hchosen := forall₂_of_forall_mem (merge_eq_ok h).1 fun m hm q hq => hchoices m hm q hq
  obtain ⟨_, hfits⟩ := exists_forall₂_iff.1 ⟨_, hchosen.flip⟩ p hp
  exact hfits

theorem fits_of_negationPayload? {tests : List Test} {payload : Json}
    (h : negationPayload? tests = some payload) : payload.Fits 2 := by
  obtain ⟨-, pairs, members, hpairs, hmembers, rfl⟩ := negationPayload?_eq_some_iff.1 h
  refine fits_of_merge ?_ hmembers
  rw [List.forall_mem_map]
  intro p hp
  exact Member.fits_of_ofPair (Test.fits_of_mapM_toPair hpairs p hp) (by simp)

end Query

/-! ### Filters -/

namespace Filter

open Query (Member merge rooted)

theorem fits_of_negationPayload? {f : Filter} {payload : Json}
    (h : f.negationPayload? = some payload) : payload.Fits (2 * f.nesting + 1) := by
  cases f with
  | nor members _ =>
    exact (Query.fits_of_negationPayload? h).mono (by rw [nesting]; omega)
  | _ => cases h

mutual
/-- Every level of payloads takes two levels of lists and objects at most, and a single test takes
one. -/
theorem fits_of_toPair {f : Filter} {p : String × Json} (h : f.toPair = .ok p) :
    p.2.Fits (2 * f.nesting + 1) := by
  match f with
  | .test t => exact Test.fits_of_toPair h
  | .not t =>
    obtain ⟨q, hq, hp⟩ := Except.bind_eq_ok_iff.1 h
    cases hp
    exact (Json.Fits.single q.1 (Test.fits_of_toPair hq)).mono (by rw [nesting]; omega)
  | .and children _ =>
    obtain ⟨members, hmembers, hp⟩ := Except.bind_eq_ok_iff.1 h
    obtain ⟨pairs, hpairs, hp⟩ := Except.bind_eq_ok_iff.1 hp
    cases hp
    refine (Query.fits_of_merge (fits_of_toMembers hmembers) hpairs).mono ?_
    rw [nesting]
    omega
  | .or children _ =>
    obtain ⟨objects, hobjects, hp⟩ := Except.bind_eq_ok_iff.1 h
    cases hp
    refine (Json.Fits.array (fits_of_toObjects hobjects)).mono ?_
    rw [nesting]
    omega
  | .nor members _ =>
    obtain ⟨pairs, hpairs, hp⟩ := Except.bind_eq_ok_iff.1 h
    cases hp
    exact (Json.Fits.map_single (Test.fits_of_mapM_toPair hpairs)).mono (by rw [nesting])

theorem fits_of_toMembers {fs : List Filter} {members : List Member}
    (h : toMembers fs = .ok members) :
    ∀ m ∈ members, ∀ choice ∈ m.choices, choice.2.Fits (2 * nestings fs + 1) := by
  match fs with
  | [] =>
    cases h
    simp
  | f :: fs =>
    obtain ⟨p, hp, h⟩ := Except.bind_eq_ok_iff.1 h
    obtain ⟨rest, hrest, h⟩ := Except.bind_eq_ok_iff.1 h
    cases h
    have hfirst : 2 * f.nesting + 1 ≤ 2 * nestings (f :: fs) + 1 := by rw [nestings]; omega
    have hothers : 2 * nestings fs + 1 ≤ 2 * nestings (f :: fs) + 1 := by rw [nestings]; omega
    rw [List.forall_mem_cons]
    constructor
    · intro choice hchoice
      refine (Member.fits_of_ofPair (fits_of_toPair hp) ?_ choice hchoice).mono hfirst
      exact fun payload hpayload => fits_of_negationPayload? hpayload
    · intro m hm choice hchoice
      exact (fits_of_toMembers hrest m hm choice hchoice).mono hothers

theorem fits_of_toObjects {fs : List Filter} {objects : List Json}
    (h : toObjects fs = .ok objects) : ∀ item ∈ objects, item.Fits (2 * nestings fs + 2) := by
  match fs with
  | [] =>
    cases h
    simp
  | f :: fs =>
    obtain ⟨p, hp, h⟩ := Except.bind_eq_ok_iff.1 h
    obtain ⟨rest, hrest, h⟩ := Except.bind_eq_ok_iff.1 h
    cases h
    have hfirst : 2 * f.nesting + 1 + 1 ≤ 2 * nestings (f :: fs) + 2 := by rw [nestings]; omega
    have hothers : 2 * nestings fs + 2 ≤ 2 * nestings (f :: fs) + 2 := by rw [nestings]; omega
    rw [List.forall_mem_cons]
    refine ⟨(Json.Fits.single p.1 (fits_of_toPair hp)).mono hfirst, fun item hitem => ?_⟩
    exact (fits_of_toObjects hrest item hitem).mono hothers
end

/-- The group around a literal test takes no more room than the payload of another test. -/
theorem fits_of_toJson_rooted {f : Filter} {j : Json} (h : (rooted f).toJson = .ok j) :
    j.Fits (2 * f.nesting + 2) := by
  have hwhole : ∀ {g : Filter}, g.toJson = .ok j → j.Fits (2 * g.nesting + 2) := by
    intro g hg
    obtain ⟨p, hp, hj⟩ := Except.bind_eq_ok_iff.1 hg
    cases hj
    exact .single p.1 (fits_of_toPair hp)
  cases f with
  | test t =>
    by_cases hliteral : t.isLiteral = true
    · rw [rooted, if_pos hliteral] at h
      obtain ⟨p, hp, hj⟩ := Except.bind_eq_ok_iff.1 h
      cases hj
      obtain ⟨members, hmembers, hp⟩ := Except.bind_eq_ok_iff.1 hp
      obtain ⟨pairs, hpairs, hp⟩ := Except.bind_eq_ok_iff.1 hp
      cases hp
      obtain ⟨q, hq, hmembers⟩ := Except.bind_eq_ok_iff.1 hmembers
      cases hmembers
      have hchoices : ∀ choice ∈ (Member.ofPair q none).choices, choice.2.Fits 0 :=
        Member.fits_of_ofPair (Test.fits_of_isLiteral hliteral hq) (by simp)
      exact .single _ (Query.fits_of_merge (List.forall_mem_singleton.2 hchoices) hpairs)
    · rw [rooted, if_neg hliteral] at h
      exact hwhole h
  | _ => exact hwhole h

end Filter

/-! ### Documents -/

namespace Query

variable {o : Options} {d : Json} {f : Filter}

/-- A compiled filter is written as a document that has two levels of lists and objects for each
level of payloads, and two more. If the limits leave room for the group around a single test, the
same options without escaping compile this document to the filter again. -/
theorem exists_document_of_compile (hdistinct : d.KeysDistinct) (h : compile o d = .ok f) :
    ∃ j, f.toJson = .ok j ∧ j.KeysDistinct ∧ j.Fits (2 * o.maxDepth + 2) ∧
      (1 ≤ o.maxDepth → 2 ≤ o.maxNodes → compile o.verbatim j = .ok f) := by
  obtain ⟨key, value, rest, g, rfl, hg, rfl, hcount, hnest⟩ := compile_eq_ok_iff.1 h
  have hvalue : value.KeysDistinct := by
    cases hdistinct with
    | object _ hvalues => exact hvalues (key, value) List.mem_cons_self
  obtain ⟨key', value', hroot, hroot_distinct, hcount', hnest'⟩ := exists_denotes_rooted hg hvalue
  obtain ⟨p, hp, hdenotes, hpdistinct⟩ := (hroot.writesBack hroot_distinct).exists_toPair
  have hwritten : (rooted g).toJson = .ok (Json.single p.1 p.2) := by
    rw [Filter.toJson, hp]
    rfl
  refine ⟨Json.single p.1 p.2, hwritten, .single p.1 hpdistinct, ?_, fun hdepth hnodes => ?_⟩
  · rw [hg.nesting_eq] at hnest
    exact (Filter.fits_of_toJson_rooted hwritten).mono (by omega)
  · rw [compile_eq_ok_iff]
    refine ⟨p.1, p.2, [], rooted g, rfl, hdenotes, (rooted_rooted g).symm, ?_, ?_⟩
    · rw [hdenotes.pairCount_eq]
      exact Nat.le_trans hcount' (Nat.max_le.2 ⟨hnodes, hcount⟩)
    · rw [hdenotes.nesting_eq]
      exact Nat.le_trans hnest' (Nat.max_le.2 ⟨hdepth, hnest⟩)

/-- A filter that was compiled under options which leave its document room is written as a document
that is read back off its texts. -/
theorem isReadable_of_fits {j : Json} (hdistinct : j.KeysDistinct)
    (hfits : j.Fits (2 * o.maxDepth + 2)) (hdepth : o.maxDepth ≤ 62) : j.IsReadable :=
  ⟨hdistinct, hfits.integral, Nat.le_trans hfits.depth (by rw [Json.maxNesting]; omega)⟩

theorem exists_document_of_compileText {text : String} (h : compileText o text = .ok f) :
    ∃ j, f.toJson = .ok j ∧ j.KeysDistinct ∧ j.Fits (2 * o.maxDepth + 2) ∧
      (1 ≤ o.maxDepth → 2 ≤ o.maxNodes → compile o.verbatim j = .ok f) := by
  unfold compileText at h
  split at h
  · next document hdocument =>
    exact exists_document_of_compile (Json.keysDistinct_of_parse? hdocument) h
  · cases h

/-- Compiled filters are written as documents with at most two more lists and objects than twice the
levels of payloads that the options allow. Under the default options their compact text is compiled
to the same filter again, as a whole text or as the start of one that nothing follows. -/
theorem decode_compact_of_compile (hdistinct : d.KeysDistinct) :
    (∀ (o : Options) (f : Filter), compile o d = .ok f →
      ∃ j, f.toJson = .ok j ∧ j.depth ≤ 2 * o.maxDepth + 2) ∧
    ∀ f, compile {} d = .ok f → ∃ text, Json.compact <$> f.toJson = .ok text ∧
      decode text = .ok f ∧ compileText {} text = .ok f := by
  constructor
  · intro o f h
    obtain ⟨j, hj, -, hfits, -⟩ := exists_document_of_compile hdistinct h
    exact ⟨j, hj, hfits.depth⟩
  · intro f h
    obtain ⟨j, hj, hjdistinct, hfits, hcompile⟩ := exists_document_of_compile hdistinct h
    have hreadable : j.IsReadable := isReadable_of_fits hjdistinct hfits (by decide)
    have hagain : compile {} j = .ok f := hcompile (by decide) (by decide)
    refine ⟨j.compact, by rw [hj]; rfl, ?_, ?_⟩
    · simp only [decode, hreadable.read?_compact, hagain]
      rfl
    · rw [compileText, hreadable.parse?_compact]
      exact hagain

theorem decode_compact_of_negated_pairs :
    ∃ text, compile {} (Json.single "not" (.object [("cn", .string "\"\n"), ("sn", .null)])) =
        .ok (.noneOf [.equal "cn" "\"\n", .absent "sn"]) ∧
      Json.compact <$> (Filter.noneOf [.equal "cn" "\"\n", .absent "sn"]).toJson = .ok text ∧
      decode text = .ok (.noneOf [.equal "cn" "\"\n", .absent "sn"]) ∧
      compileText {} text = .ok (.noneOf [.equal "cn" "\"\n", .absent "sn"]) := by
  have hdistinct := Json.keysDistinct_settled
    (Json.single "not" (.object [("cn", .string "\"\n"), ("sn", .null)]))
  have hcompile : compile {} (Json.single "not" (.object [("cn", .string "\"\n"), ("sn", .null)])) =
      .ok (.noneOf [.equal "cn" "\"\n", .absent "sn"]) := rfl
  obtain ⟨text, hwritten, hdecode, hagain⟩ := (decode_compact_of_compile hdistinct).2 _ hcompile
  exact ⟨text, hcompile, hwritten, hdecode, hagain⟩

end Query

end LdapFilter
