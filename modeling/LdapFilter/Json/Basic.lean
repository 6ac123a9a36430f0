import LdapFilter.Json.Number

/-!
# Documents as values

A document is a tree of lists and objects over scalars. The members of an object keep their
order. The text of an object may name a key more than once; `Json.settled` leaves one member for
each key.

Main statements: settled members have distinct keys (`nodup_settle`), and settling members whose
keys are distinct changes nothing (`settle_of_nodup`).
-/

namespace LdapFilter

open Json (Number)

inductive Json where
  | null
  | bool (b : Bool)
  | number (n : Number)
  | string (s : String)
  | array (items : List Json)
  | object (members : List (String × Json))
deriving Inhabited

namespace Json

def single (key : String) (value : Json) : Json :=
  .object [(key, value)]

/-! ### Repeated keys -/

/-- Put a member in front of members with distinct keys. When its key is among them, the value
there is the later one and wins, and the place here is the first one and stays. -/
def settleInto (member : String × α) (members : List (String × α)) : List (String × α) :=
  match members.lookup member.1 with
  | some later => (member.1, later) :: members.filter (·.1 ≠ member.1)
  | none => member :: members

/-- One member for each key, at the place of its first member and with the value of its last. -/
def settle (members : List (String × α)) : List (String × α) :=
  members.foldr settleInto []

/-- Settled members have distinct keys. -/
theorem nodup_settle (members : List (String × α)) :
    ((settle members).map Prod.fst).Nodup := by
  induction members with
  | nil => simp [settle]
  | cons member members ih =>
    have hstep : settle (member :: members) = settleInto member (settle members) := rfl
    rw [hstep, settleInto]
    split
    · refine List.nodup_cons.2 ⟨by simp, ?_⟩
      exact ih.sublist (List.filter_sublist.map Prod.fst)
    · next h =>
      refine List.nodup_cons.2 ⟨fun hmem => ?_, ih⟩
      obtain ⟨other, hother, hkey⟩ := List.mem_map.1 hmem
      have := List.lookup_eq_none_iff.1 h other hother
      simp [hkey] at this

/-- Members with distinct keys are settled already. -/
theorem settle_of_nodup {members : List (String × α)} (h : (members.map Prod.fst).Nodup) :
    settle members = members := by
  induction members with
  | nil => rfl
  | cons member members ih =>
    rw [List.map_cons, List.nodup_cons] at h
    have hstep : settle (member :: members) = settleInto member (settle members) := rfl
    have hnone : members.lookup member.1 = none := by
      refine List.lookup_eq_none_iff.2 fun other hother => ?_
      have : other.1 ∈ members.map Prod.fst := List.mem_map_of_mem hother
      simp only [bne_iff_ne, ne_eq]
      exact fun e => h.1 (e ▸ this)
    rw [hstep, ih h.2, settleInto, hnone]

mutual
/-- A document with the objects at every level settled. -/
def settled : Json → Json
  | .array items => .array (settledItems items)
  | .object members => .object (settle (settledMembers members))
  | scalar => scalar

def settledItems : List Json → List Json
  | [] => []
  | item :: items => item.settled :: settledItems items

def settledMembers : List (String × Json) → List (String × Json)
  | [] => []
  | (key, value) :: members => (key, value.settled) :: settledMembers members
end

end Json

end LdapFilter
