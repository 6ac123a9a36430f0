import LdapFilter.Query.Compile

/-!
# The pairs of a document

A pair of a document holds further pairs when it asks for a combination: those of the object that
is its payload, or those of the objects in the list that is its payload. All that a document says
is said by recursion over these pairs.

Main statements: the pairs of a payload are smaller than the payload
(`sizeOf_lt_of_mem_payload`), and so recursion over them reaches every pair (`payload_induction`).
-/

namespace LdapFilter

namespace Query

/-! ### Payloads -/

/-- Whether the payload of a key is made of pairs. -/
def isCombination (key : String) : Bool :=
  match Keyword.ofKey? key with
  | some .and | some .or | some .not | some .nor => true
  | _ => false

/-- The pairs of the objects in a list, one object after the other. -/
def objectPairs : List Json → List (String × Json)
  | [] => []
  | .object members :: items => members ++ objectPairs items
  | _ :: items => objectPairs items

/-- The pairs that a pair holds. Tests hold none, and neither does a payload of the wrong shape. -/
def payload (key : String) (value : Json) : List (String × Json) :=
  match Keyword.ofKey? key, value with
  | some .and, .object members => members
  | some .not, .object members => members
  | some .or, .array items => objectPairs items
  | some .nor, .array items => objectPairs items
  | _, _ => []

theorem payload_of_not_isCombination {key : String} {value : Json}
    (h : isCombination key = false) : payload key value = [] := by
  unfold payload
  split <;> simp_all [isCombination]

theorem mem_objectPairs {p : String × Json} {items : List Json} :
    p ∈ objectPairs items ↔ ∃ members, .object members ∈ items ∧ p ∈ members := by
  induction items with
  | nil => simp [objectPairs]
  | cons item items ih =>
    cases item with
    | object members =>
      simp only [objectPairs, List.mem_append, ih, List.mem_cons, Json.object.injEq]
      constructor
      · rintro (h | ⟨ms, hms, h⟩)
        · exact ⟨members, Or.inl rfl, h⟩
        · exact ⟨ms, Or.inr hms, h⟩
      · rintro ⟨ms, rfl | hms, h⟩
        · exact Or.inl h
        · exact Or.inr ⟨ms, hms, h⟩
    | _ => simp [objectPairs, ih]

/-- A payload's pairs are those of its object, or of an object in its list. -/
theorem mem_payload {p : String × Json} {key : String} {value : Json}
    (h : p ∈ payload key value) :
    (∃ members, value = .object members ∧ p ∈ members) ∨
      ∃ items members, value = .array items ∧ .object members ∈ items ∧ p ∈ members := by
  unfold payload at h
  split at h
  · exact Or.inl ⟨_, rfl, h⟩
  · exact Or.inl ⟨_, rfl, h⟩
  · obtain ⟨members, hmem, hp⟩ := mem_objectPairs.1 h
    exact Or.inr ⟨_, members, rfl, hmem, hp⟩
  · obtain ⟨members, hmem, hp⟩ := mem_objectPairs.1 h
    exact Or.inr ⟨_, members, rfl, hmem, hp⟩
  · simp at h

theorem sizeOf_lt_of_mem_members {p : String × Json} {members : List (String × Json)}
    (h : p ∈ members) : sizeOf p.2 < sizeOf (Json.object members) := by
  have hlt := List.sizeOf_lt_of_mem h
  obtain ⟨key, value⟩ := p
  simp only [Prod.mk.sizeOf_spec] at hlt
  simp only [Json.object.sizeOf_spec]
  omega

/-- The pairs of a payload are smaller than the payload. -/
theorem sizeOf_lt_of_mem_payload {p : String × Json} {key : String} {value : Json}
    (h : p ∈ payload key value) : sizeOf p.2 < sizeOf value := by
  rcases mem_payload h with ⟨members, rfl, hp⟩ | ⟨items, members, rfl, hmem, hp⟩
  · exact sizeOf_lt_of_mem_members hp
  · have hitem := List.sizeOf_lt_of_mem hmem
    have hpair := sizeOf_lt_of_mem_members hp
    simp only [Json.array.sizeOf_spec]
    omega

/-- What holds of a pair as soon as it holds of the pairs of its payload holds of every pair. -/
theorem payload_induction {P : String → Json → Prop}
    (h : ∀ key value, (∀ p ∈ payload key value, P p.1 p.2) → P key value) (key : String)
    (value : Json) : P key value :=
  h key value fun p _hp => payload_induction h p.1 p.2
termination_by sizeOf value
decreasing_by exact sizeOf_lt_of_mem_payload _hp

/-! ### Measures -/

/-- How many pairs a pair is, with all those below it. -/
def pairCount (key : String) (value : Json) : Nat :=
  1 + ((payload key value).attach.map fun p => pairCount p.1.1 p.1.2).foldr (· + ·) 0
termination_by sizeOf value
decreasing_by exact sizeOf_lt_of_mem_payload p.2

/-- How many payloads of combinations stand one inside the other. -/
def nesting (key : String) (value : Json) : Nat :=
  if isCombination key then
    1 + ((payload key value).attach.map fun p => nesting p.1.1 p.1.2).foldr max 0
  else 0
termination_by sizeOf value
decreasing_by exact sizeOf_lt_of_mem_payload p.2

/-- The pairs that are tests, in order: a pair itself, or those below it. -/
def leaves (key : String) (value : Json) : List (String × Json) :=
  if isCombination key then
    (payload key value).attach.flatMap fun p => leaves p.1.1 p.1.2
  else [(key, value)]
termination_by sizeOf value
decreasing_by exact sizeOf_lt_of_mem_payload p.2

/-- How many pairs some pairs are, with all those below them. -/
def pairCountAll (ps : List (String × Json)) : Nat :=
  (ps.map fun p => pairCount p.1 p.2).foldr (· + ·) 0

theorem pairCount_eq (key : String) (value : Json) :
    pairCount key value = 1 + pairCountAll (payload key value) := by
  rw [pairCount, pairCountAll,
    List.attach_map_val (f := fun p : String × Json => pairCount p.1 p.2)]

@[simp] theorem pairCountAll_nil : pairCountAll [] = 0 := by
  simp [pairCountAll]

@[simp] theorem pairCountAll_cons (p : String × Json) (ps : List (String × Json)) :
    pairCountAll (p :: ps) = pairCount p.1 p.2 + pairCountAll ps := by
  simp [pairCountAll]

theorem nesting_eq (key : String) (value : Json) :
    nesting key value = if isCombination key then
      1 + ((payload key value).map fun p => nesting p.1 p.2).foldr max 0 else 0 := by
  rw [nesting, List.attach_map_val (f := fun p : String × Json => nesting p.1 p.2)]

theorem leaves_eq (key : String) (value : Json) :
    leaves key value = if isCombination key then
      (payload key value).flatMap fun p => leaves p.1 p.2 else [(key, value)] := by
  rw [leaves, List.flatMap_def, List.flatMap_def,
    List.attach_map_val (f := fun p : String × Json => leaves p.1 p.2)]

end Query

end LdapFilter
