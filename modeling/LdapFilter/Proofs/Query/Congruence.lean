import LdapFilter.Proofs.Query.Run

/-!
# Replacing parts of a document

The run over a pair knows the payload of the pair through its shape and through the runs over the
pairs in it, and through nothing else. So a pair may be replaced by another one with the same runs
wherever it stands below a combination.

Main statements: equal runs are a congruence (`Congruence.runsAlike`), and what has equal runs at
the start of two documents is compiled to the same filter, or to the same error
(`SameFirst.compile_eq`).
-/

namespace LdapFilter.Query

variable {o : Options} {key : String} {p q r : String × Json}
  {members members' : List (String × Json)} {items items' : List Json}

/-! ### Equal runs -/

/-- The runs over two pairs are the same, at every depth. -/
def RunsAlike (o : Options) (p q : String × Json) : Prop :=
  ∀ depth, runPair (testOf o) depth p.1 p.2 = runPair (testOf o) depth q.1 q.2

namespace RunsAlike

theorem refl (p : String × Json) : RunsAlike o p p :=
  fun _ => rfl

theorem symm (h : RunsAlike o p q) : RunsAlike o q p :=
  fun depth => (h depth).symm

theorem trans (h : RunsAlike o p q) (h' : RunsAlike o q r) : RunsAlike o p r :=
  fun depth => (h depth).trans (h' depth)

theorem forall₂_refl (ps : List (String × Json)) : List.Forall₂ (RunsAlike o) ps ps :=
  List.forall₂_same.2 fun p _ => refl p

/-- The runs over two pairs are the same when the pairs are entered alike, accept children and
assemble them alike, and are read for pairs over which the runs are the same. -/
theorem of_parts (hcomb : isCombination p.1 = isCombination q.1)
    (haccept : acceptBelow p.1 p.2 = acceptBelow q.1 q.2)
    (hassemble : assemble (testOf o) p.1 p.2 = assemble (testOf o) q.1 q.2)
    (hreached : List.Forall₂ (RunsAlike o) (reached p.1 p.2) (reached q.1 q.2)) :
    RunsAlike o p q := by
  intro depth
  have hchildren : ((reached p.1 p.2).mapM fun c : String × Json =>
        (runPair (testOf o) (depth + 1) c.1 c.2).admitting (acceptBelow p.1 p.2)) =
      (reached q.1 q.2).mapM fun c : String × Json =>
        (runPair (testOf o) (depth + 1) c.1 c.2).admitting (acceptBelow q.1 q.2) := by
    apply mapM_eq_mapM_of_forall₂
    apply hreached.imp
    intro c d hcd
    rw [hcd, haccept]
  rw [runPair_eq, runPair_eq, hchildren, hassemble, opening, opening, hcomb]

end RunsAlike

/-! ### Payloads of one shape -/

/-- Of an object, a combination sees the number of its members. -/
theorem acceptBelow_object (h : members.length = members'.length) :
    acceptBelow key (.object members) = acceptBelow key (.object members') := by
  unfold acceptBelow
  cases Keyword.ofKey? key with
  | none => rfl
  | some k =>
    match members, members' with
    | [], [] | [_], [_] | _ :: _ :: _, _ :: _ :: _ => cases k <;> rfl

theorem assemble_object {test : String → Json → Except FilterError Test}
    (hcomb : isCombination key = true) (h : members.length = members'.length) :
    assemble test key (.object members) = assemble test key (.object members') := by
  unfold assemble
  rcases isCombination_eq_true_iff.1 hcomb with hkey | ⟨group, hkey⟩
  · rw [hkey]
    match members, members' with
    | [], [] | [_], [_] | _ :: _ :: _, _ :: _ :: _ => rfl
  · rw [hkey]
    cases group <;> rfl

/-- Of a list, a combination sees whether its items are all objects. -/
theorem acceptBelow_array : acceptBelow key (.array items) = acceptBelow key (.array items') := by
  unfold acceptBelow
  cases Keyword.ofKey? key with
  | none => rfl
  | some k => cases k <;> rfl

theorem assemble_array {test : String → Json → Except FilterError Test}
    (hcomb : isCombination key = true) (h : items.all isObject = items'.all isObject) :
    assemble test key (.array items) = assemble test key (.array items') := by
  unfold assemble
  rcases isCombination_eq_true_iff.1 hcomb with hkey | ⟨group, hkey⟩
  · rw [hkey]
  · rw [hkey]
    cases group with
    | and => rfl
    | or | nor => simp only [Group.keyword, listGroup, h]

namespace RunsAlike

/-- Objects whose members run alike do so as payloads. -/
theorem object (hcomb : isCombination key = true)
    (h : List.Forall₂ (RunsAlike o) members members') :
    RunsAlike o (key, .object members) (key, .object members') := by
  apply of_parts
  · rfl
  · exact acceptBelow_object h.length_eq
  · exact assemble_object hcomb h.length_eq
  · simp only [reached]
    cases Keyword.ofKey? key with
    | none => exact .nil
    | some k =>
      cases k with
      | and | not => exact h
      | or | nor | band | bor | recurse => exact .nil

/-- An object in a list is read when no item before it has stopped the reading. -/
theorem forall₂_objectPairs (h : List.Forall₂ (RunsAlike o) members members')
    (before after : List Json) :
    List.Forall₂ (RunsAlike o)
      (objectPairs ((before ++ .object members :: after).takeWhile isObject))
      (objectPairs ((before ++ .object members' :: after).takeWhile isObject)) := by
  induction before with
  | nil => exact List.rel_append h (forall₂_refl _)
  | cons item before ih =>
    cases item with
    | object ms => exact List.rel_append (forall₂_refl ms) ih
    | null | bool | number | string | array => exact .nil

/-- Lists with one object in the place of another, whose members run alike, do so as payloads. -/
theorem array (hcomb : isCombination key = true)
    (h : List.Forall₂ (RunsAlike o) members members') (before after : List Json) :
    RunsAlike o (key, .array (before ++ .object members :: after))
      (key, .array (before ++ .object members' :: after)) := by
  have hobjects : (before ++ .object members :: after).all isObject =
      (before ++ .object members' :: after).all isObject := by
    simp [isObject]
  apply of_parts
  · rfl
  · exact acceptBelow_array
  · exact assemble_array hcomb hobjects
  · simp only [reached]
    cases Keyword.ofKey? key with
    | none => exact .nil
    | some k =>
      cases k with
      | or | nor => exact forall₂_objectPairs h before after
      | and | not | band | bor | recurse => exact .nil

end RunsAlike

/-! ### Congruences -/

/-- The least equivalence of pairs that holds wherever a relation does, and of combinations as soon
as it holds of one pair of their payloads. It does not go below the keywords of matching rules,
where keys are attributes. -/
inductive Congruence (R : String × Json → String × Json → Prop) :
    String × Json → String × Json → Prop
  | of {p q : String × Json} (h : R p q) : Congruence R p q
  | refl (p : String × Json) : Congruence R p p
  | symm {p q : String × Json} (h : Congruence R p q) : Congruence R q p
  | trans {p q r : String × Json} (h : Congruence R p q) (h' : Congruence R q r) : Congruence R p r
  | object {key : String} {p q : String × Json} (hcomb : isCombination key = true)
      (before after : List (String × Json)) (h : Congruence R p q) :
      Congruence R (key, .object (before ++ p :: after)) (key, .object (before ++ q :: after))
  | array {key : String} {p q : String × Json} (hcomb : isCombination key = true)
      (items others : List Json) (before after : List (String × Json)) (h : Congruence R p q) :
      Congruence R (key, .array (items ++ .object (before ++ p :: after) :: others))
        (key, .array (items ++ .object (before ++ q :: after) :: others))

variable {R : String × Json → String × Json → Prop}

/-- Members may be replaced all at once. -/
theorem Congruence.object_of_forall₂ (hcomb : isCombination key = true)
    (h : List.Forall₂ (Congruence R) members members') :
    Congruence R (key, .object members) (key, .object members') := by
  have hbefore : ∀ before : List (String × Json),
      Congruence R (key, .object (before ++ members)) (key, .object (before ++ members')) := by
    induction h with
    | nil => exact fun before => .refl _
    | @cons p q ps qs hpq _ ih =>
      intro before
      have hrest := ih (before ++ [q])
      rw [List.append_assoc, List.append_assoc] at hrest
      exact (Congruence.object hcomb before ps hpq).trans hrest
  exact hbefore []

/-- Equal runs are a congruence: what is replaced by parts with the same runs runs alike. -/
theorem Congruence.runsAlike (hR : ∀ p q, R p q → RunsAlike o p q) (h : Congruence R p q) :
    RunsAlike o p q := by
  have hmembers : ∀ {p q : String × Json} (before after : List (String × Json)),
      RunsAlike o p q →
      List.Forall₂ (RunsAlike o) (before ++ p :: after) (before ++ q :: after) := by
    intro p q before after hpq
    exact List.rel_append (RunsAlike.forall₂_refl before) (.cons hpq (RunsAlike.forall₂_refl after))
  induction h with
  | of h => exact hR _ _ h
  | refl p => exact .refl p
  | symm _ ih => exact ih.symm
  | trans _ _ ih ih' => exact ih.trans ih'
  | object hcomb before after _ ih => exact .object hcomb (hmembers before after ih)
  | array hcomb items others before after _ ih =>
    exact .array hcomb (hmembers before after ih) items others

/-! ### Documents -/

/-- Documents that start with related pairs, whatever the pairs after them are. -/
inductive SameFirst (R : String × Json → String × Json → Prop) : Json → Json → Prop
  | refl (d : Json) : SameFirst R d d
  | first {p q : String × Json} (rest others : List (String × Json)) (h : R p q) :
      SameFirst R (.object (p :: rest)) (.object (q :: others))

/-- Documents are compiled alike when the pairs that they start with run alike. -/
theorem SameFirst.compile_eq {d d' : Json} (hR : ∀ p q, R p q → RunsAlike o p q)
    (h : SameFirst R d d') : compile o d = compile o d' := by
  cases h with
  | refl => rfl
  | @first p q rest others h =>
    have hrun : run o (.object (p :: rest)) = run o (.object (q :: others)) := by
      rw [run, run, hR p q h 0]
    rw [compile_eq_under, compile_eq_under, hrun]

end LdapFilter.Query
