import LdapFilter.Query.Compile

/-!
# From filters to documents

A filter is written as a pair of a document. The children of a group of all have to share one
object, so each needs a key of its own there: an attribute can be written in one way only, a
keyword in any letter case, and a nor group also as the negation of several pairs.
-/

namespace LdapFilter

/-! ### Single tests -/

namespace Test

/-- The pair that a test is written as. A literal attribute must not spell a keyword, and what is
tested by a matching rule is written without the rule. -/
def toPair (t : Test) : Except FilterError (String × Json) :=
  match t with
  | .equal attr value => do
    if (Keyword.ofKey? attr).isSome then throw (.unrepresentable (.keywordAttribute attr))
    return (attr, .string value)
  | .absent attr => do
    if (Keyword.ofKey? attr).isSome then throw (.unrepresentable (.keywordAttribute attr))
    return (attr, .null)
  | .bitwise rule _ mask =>
    .ok ((Query.bitKeyword rule).name,
      Json.single (MatchingRule.attributeOf t.property) (.number (.integer mask.toInt)))
  | .inChain _ entry =>
    .ok (Keyword.recurse.name, Json.single (MatchingRule.attributeOf t.property) (.string entry))

theorem toPair_equal_eq_ok_iff {attr value : String} {p : String × Json} :
    (equal attr value).toPair = .ok p ↔
      Keyword.ofKey? attr = none ∧ p = (attr, .string value) := by
  rw [toPair]
  cases Keyword.ofKey? attr with
  | some k => exact ⟨nofun, nofun⟩
  | none => exact ⟨fun h => ⟨rfl, (Except.ok.inj h).symm⟩, fun h => h.2 ▸ rfl⟩

theorem toPair_absent_eq_ok_iff {attr : String} {p : String × Json} :
    (absent attr).toPair = .ok p ↔ Keyword.ofKey? attr = none ∧ p = (attr, .null) := by
  rw [toPair]
  cases Keyword.ofKey? attr with
  | some k => exact ⟨nofun, nofun⟩
  | none => exact ⟨fun h => ⟨rfl, (Except.ok.inj h).symm⟩, fun h => h.2 ▸ rfl⟩

/-- The attribute of a test of bits is written as it was given. -/
theorem toPair_bitwise (rule : BitRule) (attr : String) (mask : Int64) :
    (bitwise rule attr mask).toPair =
      .ok ((Query.bitKeyword rule).name, Json.single attr (.number (.integer mask.toInt))) := by
  rw [toPair, property, MatchingRule.attributeOf_property]

theorem toPair_inChain (attr entry : String) :
    (inChain attr entry).toPair =
      .ok (Keyword.recurse.name, Json.single attr (.string entry)) := by
  rw [toPair, property, MatchingRule.attributeOf_property]

end Test

/-! ### Sharing an object -/

namespace Query

/-- A child that needs a pair in an object together with others. -/
structure Member where
  /-- The pairs that it may be written as, the preferred one first. -/
  choices : List (String × Json)
  /-- Whether it may be written under more than one keyword. Such members choose last, so that
  they take no key from the others. -/
  flexible : Bool
  /-- What is wrong when all its keys are taken. -/
  conflict : Conflict

namespace Member

/-- A keyword with a payload, in every spelling. -/
def spelled (k : Keyword) (payload : Json) : List (String × Json) :=
  k.spellings.map fun key => (key, payload)

/-- A member that is written as a pair, or else, with another payload, as a negation. -/
def ofPair (pair : String × Json) (negation : Option Json) : Member :=
  match Keyword.ofKey? pair.1 with
  | none => ⟨[pair], negation.isSome, .repeatedAttribute pair.1⟩
  | some k =>
    ⟨spelled k pair.2 ++ (negation.map (spelled .not)).getD [], negation.isSome,
      .spellingsExhausted k⟩

/-- The preferred pair among those whose key is not taken. -/
def choose (m : Member) (taken : List String) : Except FilterError (String × Json) :=
  match m.choices.find? fun choice => !taken.contains choice.1 with
  | some choice => .ok choice
  | none => .error (.unrepresentable m.conflict)

end Member

/-- A member and the pair that it has chosen, if it has. -/
structure Slot where
  member : Member
  chosen : Option (String × Json)

/-- Let the members of one sort choose, in order; the others stay as they are. -/
def chooseAll (flexible : Bool) (taken : List String) :
    List Slot → Except FilterError (List Slot × List String)
  | [] => .ok ([], taken)
  | slot :: slots =>
    if slot.member.flexible = flexible then do
      let choice ← slot.member.choose taken
      let (slots, taken) ← chooseAll flexible (choice.1 :: taken) slots
      return (⟨slot.member, some choice⟩ :: slots, taken)
    else do
      let (slots, taken) ← chooseAll flexible taken slots
      return (slot :: slots, taken)

/-- The pairs of members in one object, in the order of the members. -/
def merge (members : List Member) : Except FilterError (List (String × Json)) := do
  let (slots, taken) ← chooseAll false [] (members.map fun m => ⟨m, none⟩)
  let (slots, _) ← chooseAll true taken slots
  return slots.filterMap Slot.chosen

/-- The payload of a negation that means none of some tests. A negation of fewer than two pairs
means something else. -/
def negationPayload? (tests : List Test) : Option Json :=
  if tests.length < 2 then none
  else match tests.mapM Test.toPair with
    | .error _ => none
    | .ok pairs =>
      match merge (pairs.map fun p => Member.ofPair p none) with
      | .error _ => none
      | .ok members => some (.object members)

end Query

/-! ### Filters -/

namespace Filter

open Query (Member merge negationPayload?)

/-- The payload that a filter has under a negation, when it is a nor group that has one. -/
def negationPayload? : Filter → Option Json
  | .nor members _ => Query.negationPayload? members
  | _ => none

mutual
def toPair : Filter → Except FilterError (String × Json)
  | .test t => t.toPair
  | .not t => do
    let (key, value) ← t.toPair
    return (Keyword.not.name, Json.single key value)
  | .and children _ => do
    let members ← toMembers children
    return (Keyword.and.name, .object (← merge members))
  | .or children _ => do
    let objects ← toObjects children
    return (Keyword.or.name, .array objects)
  | .nor members _ => do
    let pairs ← members.mapM Test.toPair
    return (Keyword.nor.name, .array (pairs.map fun p => Json.single p.1 p.2))

/-- The children of a group as members of one object. -/
def toMembers : List Filter → Except FilterError (List Member)
  | [] => .ok []
  | child :: children => do
    let pair ← toPair child
    let members ← toMembers children
    return Member.ofPair pair child.negationPayload? :: members

def toObjects : List Filter → Except FilterError (List Json)
  | [] => .ok []
  | child :: children => do
    let (key, value) ← toPair child
    let objects ← toObjects children
    return Json.single key value :: objects
end

def toJson (f : Filter) : Except FilterError Json := do
  let (key, value) ← f.toPair
  return Json.single key value

end Filter

end LdapFilter
