import LdapFilter.Proofs.Query.Congruence

/-!
# Documents in other words

Two ways to write a document that make no difference to what it is compiled to. One is how pairs
are grouped: a negation of several pairs is the nor group of them, and the objects of a list only
hold the pairs that it has (`compile_eq_of_regroups`). The other is in which letters keywords are
spelled (`compile_eq_of_respells`). Neither do pairs after the first one make a difference.
-/

namespace LdapFilter.Query

open Text

variable {o : Options} {key key' : String} {p q : String × Json}

/-! ### Grouping -/

/-- Pairs that hold the same pairs in the same order, grouped in another way. -/
inductive Regroups : String × Json → String × Json → Prop
  /-- A negation of several pairs, and the nor group of one object for each of them. -/
  | negation {key key' : String} {members : List (String × Json)}
      (hkey : Keyword.ofKey? key = some .not) (hkey' : Keyword.ofKey? key' = some .nor)
      (hlength : 2 ≤ members.length) :
      Regroups (key, .object members) (key', .array (members.map fun p => Json.single p.1 p.2))
  /-- Two lists of objects with the same pairs. -/
  | list {key : String} {items items' : List Json}
      (hkey : Keyword.ofKey? key = some .or ∨ Keyword.ofKey? key = some .nor)
      (hitems : ∀ item ∈ items, isObject item = true)
      (hitems' : ∀ item ∈ items', isObject item = true)
      (hpairs : objectPairs items = objectPairs items') :
      Regroups (key, .array items) (key, .array items')

/-- A list of objects is read for all pairs of them. -/
theorem reached_array {items : List Json}
    (hkey : Keyword.ofKey? key = some .or ∨ Keyword.ofKey? key = some .nor)
    (hitems : ∀ item ∈ items, isObject item = true) :
    reached key (.array items) = objectPairs items := by
  rcases hkey with hkey | hkey <;>
    simp only [reached, hkey, List.takeWhile_eq_self_iff.2 hitems]

theorem runsAlike_negation {members : List (String × Json)}
    (hkey : Keyword.ofKey? key = some .not) (hkey' : Keyword.ofKey? key' = some .nor)
    (hlength : 2 ≤ members.length) :
    RunsAlike o (key, .object members)
      (key', .array (members.map fun p => Json.single p.1 p.2)) := by
  have hitems := isObject_map_single members
  have hobjects := List.all_eq_true.2 hitems
  match members, hlength with
  | first :: second :: rest, _ =>
    apply RunsAlike.of_parts
    · simp only [isCombination, hkey, hkey']
    · simp only [acceptBelow, hkey, hkey']
    · funext children
      simp only [assemble, hkey, hkey', listGroup, hobjects, if_true]
    · rw [reached_array (Or.inr hkey') hitems, objectPairs_map_single]
      simp only [reached, hkey]
      exact RunsAlike.forall₂_refl _

theorem runsAlike_list {items items' : List Json}
    (hkey : Keyword.ofKey? key = some .or ∨ Keyword.ofKey? key = some .nor)
    (hitems : ∀ item ∈ items, isObject item = true)
    (hitems' : ∀ item ∈ items', isObject item = true)
    (hpairs : objectPairs items = objectPairs items') :
    RunsAlike o (key, .array items) (key, .array items') := by
  have hcomb : isCombination key = true := by
    rcases hkey with hkey | hkey <;> simp only [isCombination, hkey]
  have hobjects : items.all isObject = items'.all isObject := by
    rw [List.all_eq_true.2 hitems, List.all_eq_true.2 hitems']
  apply RunsAlike.of_parts
  · rfl
  · exact acceptBelow_array
  · exact assemble_array hcomb hobjects
  · rw [reached_array hkey hitems, reached_array hkey hitems', hpairs]
    exact RunsAlike.forall₂_refl _

theorem Regroups.runsAlike (h : Regroups p q) : RunsAlike o p q := by
  cases h with
  | negation hkey hkey' hlength => exact runsAlike_negation hkey hkey' hlength
  | list hkey hitems hitems' hpairs => exact runsAlike_list hkey hitems hitems' hpairs

/-- Documents whose pairs are only grouped in another way, anywhere in their first pairs, are
compiled to the same filter, or to the same error. -/
theorem compile_eq_of_regroups {d d' : Json} (h : SameFirst (Congruence Regroups) d d') :
    compile o d = compile o d' :=
  h.compile_eq fun _ _ hpq => hpq.runsAlike fun _ _ => Regroups.runsAlike

theorem compile_eq_of_negation_and_lists :
    SameFirst (Congruence Regroups)
      (Json.single "and" (.object [
        ("NOT", .object [("cn", .string "a"), ("band", Json.single "flags" (.string "2"))]),
        ("or", .array [.object [], .object [("sn", .null), ("l", .bool true)]])]))
      (Json.single "and" (.object [
        ("Nor", .array [Json.single "cn" (.string "a"),
          Json.single "band" (Json.single "flags" (.string "2"))]),
        ("or", .array [Json.single "sn" .null, Json.single "l" (.bool true)])])) ∧
    compile { maxNodes := 6 } (Json.single "and" (.object [
        ("NOT", .object [("cn", .string "a"), ("band", Json.single "flags" (.string "2"))]),
        ("or", .array [.object [], .object [("sn", .null), ("l", .bool true)]])])) =
      compile { maxNodes := 6 } (Json.single "and" (.object [
        ("Nor", .array [Json.single "cn" (.string "a"),
          Json.single "band" (Json.single "flags" (.string "2"))]),
        ("or", .array [Json.single "sn" .null, Json.single "l" (.bool true)])])) := by
  have hnegation : Congruence Regroups
      ("NOT", .object [("cn", .string "a"), ("band", Json.single "flags" (.string "2"))])
      ("Nor", .array [Json.single "cn" (.string "a"),
        Json.single "band" (Json.single "flags" (.string "2"))]) :=
    .of (.negation (by decide) (by decide) (by decide))
  have hlist : Congruence Regroups
      ("or", .array [.object [], .object [("sn", .null), ("l", .bool true)]])
      ("or", .array [Json.single "sn" .null, Json.single "l" (.bool true)]) :=
    .of (.list (Or.inl (by decide)) (by simp [isObject]) (by simp [isObject, Json.single]) rfl)
  have hfirst := SameFirst.first [] []
    (@Congruence.object_of_forall₂ "and" _ _ _ (by decide) (.cons hnegation (.cons hlist .nil)))
  exact ⟨hfirst, compile_eq_of_regroups hfirst⟩

/-! ### Spelling -/

/-- Pairs of one payload under keys that spell a keyword and differ in letter case alone. -/
structure Respells (p q : String × Json) : Prop where
  isKeyword : (Keyword.ofKey? p.1).isSome = true
  fold_eq : fold p.1 = fold q.1
  payload_eq : p.2 = q.2

/-- Letter case makes no difference to what a key spells. -/
theorem ofKey?_congr (h : fold key = fold key') : Keyword.ofKey? key = Keyword.ofKey? key' := by
  simp only [Keyword.ofKey?, caseless, h]

/-- A key that spells a keyword is not looked at any further. -/
theorem runsAlike_of_ofKey? {k : Keyword} (hkey : Keyword.ofKey? key = some k)
    (hkey' : Keyword.ofKey? key' = some k) (value : Json) :
    RunsAlike o (key, value) (key', value) := by
  apply RunsAlike.of_parts
  · simp only [isCombination, hkey, hkey']
  · simp only [acceptBelow, hkey, hkey']
  · funext children
    cases k <;> simp only [assemble, testOf, hkey, hkey']
  · simp only [reached, hkey, hkey']
    exact RunsAlike.forall₂_refl _

theorem Respells.runsAlike (h : Respells p q) : RunsAlike o p q := by
  obtain ⟨hkeyword, hfold, hpayload⟩ := h
  obtain ⟨k, hkey⟩ := Option.isSome_iff_exists.1 hkeyword
  obtain ⟨key, value⟩ := p
  obtain ⟨key', value'⟩ := q
  cases hpayload
  exact runsAlike_of_ofKey? hkey (ofKey?_congr hfold ▸ hkey) value

/-- Documents whose keywords are only spelled in other letters, anywhere in their first pairs, are
compiled to the same filter, or to the same error. -/
theorem compile_eq_of_respells {d d' : Json} (h : SameFirst (Congruence Respells) d d') :
    compile o d = compile o d' :=
  h.compile_eq fun _ _ hpq => hpq.runsAlike fun _ _ => Respells.runsAlike

theorem compile_eq_of_capitals :
    SameFirst (Congruence Respells)
      (.object [("AND", .object [("Or", .array [Json.single "NOT" (Json.single "cn" .null)]),
        ("bAND", Json.single "OR" (.string "2"))]), ("sn", .null)])
      (.object [("and", .object [("oR", .array [Json.single "not" (Json.single "cn" .null)]),
        ("band", Json.single "OR" (.string "2"))])]) ∧
    compile Options.strict
        (.object [("AND", .object [("Or", .array [Json.single "NOT" (Json.single "cn" .null)]),
          ("bAND", Json.single "OR" (.string "2"))]), ("sn", .null)]) =
      compile Options.strict
        (.object [("and", .object [("oR", .array [Json.single "not" (Json.single "cn" .null)]),
          ("band", Json.single "OR" (.string "2"))])]) := by
  have hnot : Congruence Respells ("NOT", Json.single "cn" .null) ("not", Json.single "cn" .null) :=
    .of ⟨by decide, by decide, rfl⟩
  have hor : Congruence Respells ("Or", .array [Json.single "NOT" (Json.single "cn" .null)])
      ("oR", .array [Json.single "not" (Json.single "cn" .null)]) :=
    .trans (.array (by decide) [] [] [] [] hnot) (.of ⟨by decide, by decide, rfl⟩)
  have hband : Congruence Respells ("bAND", Json.single "OR" (.string "2"))
      ("band", Json.single "OR" (.string "2")) :=
    .of ⟨by decide, by decide, rfl⟩
  have hand : Congruence Respells
      ("AND", .object [("Or", .array [Json.single "NOT" (Json.single "cn" .null)]),
        ("bAND", Json.single "OR" (.string "2"))])
      ("and", .object [("oR", .array [Json.single "not" (Json.single "cn" .null)]),
        ("band", Json.single "OR" (.string "2"))]) :=
    .trans (.object_of_forall₂ (by decide) (.cons hor (.cons hband .nil)))
      (.of ⟨by decide, by decide, rfl⟩)
  have hfirst := SameFirst.first [("sn", .null)] [] hand
  exact ⟨hfirst, compile_eq_of_respells hfirst⟩

end LdapFilter.Query
