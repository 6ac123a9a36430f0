import LdapFilter.Json.Reader

/-!
# Documents with distinct keys

An object maps keys to values: whatever a text says, the document that is read in it names each key
of an object once (`keysDistinct_of_parse?`).
-/

namespace LdapFilter.Json

/-- Every object of the document, at any level, names each of its keys once. -/
inductive KeysDistinct : Json → Prop
  | null : KeysDistinct .null
  | bool (b : Bool) : KeysDistinct (.bool b)
  | number (n : Json.Number) : KeysDistinct (.number n)
  | string (s : String) : KeysDistinct (.string s)
  | array {items : List Json} (h : ∀ item ∈ items, KeysDistinct item) :
      KeysDistinct (.array items)
  | object {members : List (String × Json)} (hkeys : (members.map Prod.fst).Nodup)
      (h : ∀ member ∈ members, KeysDistinct member.2) : KeysDistinct (.object members)

theorem KeysDistinct.single {value : Json} (key : String) (h : value.KeysDistinct) :
    (Json.single key value).KeysDistinct := by
  refine .object (by simp) fun member hmember => ?_
  rw [List.mem_singleton.1 hmember]
  exact h

/-- Settling keeps what holds of all values. -/
theorem forall_mem_settle {P : Json → Prop} {members : List (String × Json)}
    (h : ∀ member ∈ members, P member.2) : ∀ member ∈ settle members, P member.2 := by
  induction members with
  | nil => simp [settle]
  | cons member members ih =>
    rw [List.forall_mem_cons] at h
    have hrest := ih h.2
    have hstep : settle (member :: members) = settleInto member (settle members) := rfl
    rw [hstep, settleInto]
    split
    · next later hlookup =>
      rw [List.forall_mem_cons]
      refine ⟨?_, fun other hother => hrest other (List.mem_filter.1 hother).1⟩
      obtain ⟨l₁, l₂, hmembers, -⟩ := List.lookup_eq_some_iff.1 hlookup
      have hmem : (member.1, later) ∈ settle members := by
        rw [hmembers]
        simp
      exact hrest _ hmem
    · rw [List.forall_mem_cons]
      exact ⟨h.1, hrest⟩

mutual
/-- Settled documents name each key of an object once. -/
theorem keysDistinct_settled (d : Json) : d.settled.KeysDistinct := by
  match d with
  | .null => exact .null
  | .bool b => exact .bool b
  | .number n => exact .number n
  | .string s => exact .string s
  | .array items => exact .array (keysDistinct_settledItems items)
  | .object members =>
    exact .object (nodup_settle _) (forall_mem_settle (keysDistinct_settledMembers members))

theorem keysDistinct_settledItems (items : List Json) :
    ∀ item ∈ settledItems items, item.KeysDistinct := by
  match items with
  | [] => simp [settledItems]
  | item :: items =>
    rw [settledItems, List.forall_mem_cons]
    exact ⟨keysDistinct_settled item, keysDistinct_settledItems items⟩

theorem keysDistinct_settledMembers (members : List (String × Json)) :
    ∀ member ∈ settledMembers members, member.2.KeysDistinct := by
  match members with
  | [] => simp [settledMembers]
  | (key, value) :: members =>
    rw [settledMembers, List.forall_mem_cons]
    exact ⟨keysDistinct_settled value, keysDistinct_settledMembers members⟩
end

mutual
/-- A document that names each key of an object once is settled already. -/
theorem KeysDistinct.settled_eq {d : Json} (h : d.KeysDistinct) : d.settled = d := by
  match d, h with
  | .null, _ | .bool _, _ | .number _, _ | .string _, _ => rfl
  | .array items, .array hitems => rw [settled, settledItems_eq hitems]
  | .object members, .object hkeys hmembers =>
    rw [settled, settledMembers_eq hmembers, settle_of_nodup hkeys]

theorem settledItems_eq {items : List Json} (h : ∀ item ∈ items, item.KeysDistinct) :
    settledItems items = items := by
  match items with
  | [] => rfl
  | item :: items =>
    rw [List.forall_mem_cons] at h
    rw [settledItems, h.1.settled_eq, settledItems_eq h.2]

theorem settledMembers_eq {members : List (String × Json)}
    (h : ∀ member ∈ members, member.2.KeysDistinct) : settledMembers members = members := by
  match members with
  | [] => rfl
  | (key, value) :: members =>
    rw [List.forall_mem_cons] at h
    rw [settledMembers, h.1.settled_eq, settledMembers_eq h.2]
end

/-- The document of a text names each key of an object once. -/
theorem keysDistinct_of_parse? {text : String} {d : Json} (h : parse? text = some d) :
    d.KeysDistinct := by
  simp only [parse?, read?, Option.map_eq_some_iff, Option.filter_eq_some_iff] at h
  obtain ⟨_, ⟨⟨v, -, rfl⟩, -⟩, rfl⟩ := h
  exact keysDistinct_settled v.1

end LdapFilter.Json
