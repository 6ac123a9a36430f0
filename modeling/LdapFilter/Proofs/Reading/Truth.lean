import LdapFilter.Proofs.Reading.Render

/-!
# Truth of readings

A directory decides a filter for one entry at a time. For the entry, every atomic test is true or
false, and a filter combines these truth values. A reading that asks for anything but the atomic
tests has no truth value here.

Main statements: a test of bits is as true as the atomic test with its mask (`truth?_bits`), and
one for a chain as the atomic test with its entry (`truth?_inChain`).
-/

namespace LdapFilter

open Text

/-- What a directory can be asked about a single attribute of an entry. -/
inductive Atom where
  /-- The attribute has the value. -/
  | equals (attr : String) (value : List UInt8)
  /-- The attribute has some value. -/
  | present (attr : String)
  /-- The attribute has bits of the mask set. -/
  | bits (rule : BitRule) (attr : String) (mask : Int)
  /-- A chain of the attribute leads to the entry. -/
  | inChain (attr : String) (entry : List UInt8)
deriving DecidableEq, Repr

namespace Reading

/-! ### Truth values -/

def ruleOf? (oid : String) : Option MatchingRule :=
  [MatchingRule.allBits, .someBits, .inChain].find? fun rule => rule.oid = oid

/-- The number that octets are the decimal text of. -/
def mask? (value : List UInt8) : Option Int :=
  Decimal.toInt? (value.map fun octet => Char.ofNat octet.toNat)

def ruleAtom? (attr oid : String) (value : List UInt8) : Option Atom :=
  match ruleOf? oid with
  | some .allBits => (mask? value).map (.bits .all attr)
  | some .someBits => (mask? value).map (.bits .any attr)
  | some .inChain => some (.inChain attr value)
  | none => none

mutual
/-- The truth value of a reading, by those of the atomic tests. -/
def truth? (ρ : Atom → Bool) : Reading → Option Bool
  | .and parts => (truths? ρ parts).map fun bs => bs.all id
  | .or parts => (truths? ρ parts).map fun bs => bs.any id
  | .not part => (truth? ρ part).map (!·)
  | .compare .equal attr value => some (ρ (.equals attr value))
  | .present attr => some (ρ (.present attr))
  | .extensible (some attr) false (some rule) value => (ruleAtom? attr rule value).map ρ
  | _ => none

def truths? (ρ : Atom → Bool) : List Reading → Option (List Bool)
  | [] => some []
  | part :: parts => do
    let b ← truth? ρ part
    let bs ← truths? ρ parts
    return b :: bs
end

theorem truths?_eq_some_iff {ρ : Atom → Bool} {parts : List Reading} {bs : List Bool} :
    truths? ρ parts = some bs ↔ List.Forall₂ (fun part b => truth? ρ part = some b) parts bs := by
  induction parts generalizing bs with
  | nil => simp [truths?, eq_comm]
  | cons part parts ih =>
    simp only [truths?, Option.bind_eq_bind, Option.bind_eq_some_iff, ih]
    constructor
    · rintro ⟨b, hb, bs, hbs, h⟩
      cases h
      exact .cons hb hbs
    · rintro (_ | ⟨hb, hbs⟩)
      exact ⟨_, hb, _, hbs, rfl⟩

/-! ### Masks -/

/-- Characters with codes less than 128 are read back from their octets. -/
theorem map_octets {cs : List Char} (h : ∀ c ∈ cs, c.toNat < 128) :
    (octets cs).map (fun octet => Char.ofNat octet.toNat) = cs := by
  induction cs with
  | nil => rfl
  | cons c cs ih =>
    rw [List.forall_mem_cons] at h
    have hoctet : String.utf8EncodeChar c = [UInt8.ofNat c.toNat] := by
      have := utf8EncodeChar_ofNat h.1
      rwa [Char.ofNat_toNat] at this
    rw [octets_cons, hoctet, List.map_append, ih h.2]
    simp [Nat.mod_eq_of_lt (show c.toNat < 256 by omega)]

theorem mask?_decimal (n : Int) : mask? (octets (Decimal.ofInt n)) = some n := by
  rw [mask?, map_octets fun c => Decimal.toNat_lt_of_mem_ofInt, Decimal.toInt?_ofInt]

theorem truth?_bits (ρ : Atom → Bool) (rule : BitRule) (attr : String) (mask : Int64) :
    truth? ρ (Test.bitwise rule attr mask).reading = some (ρ (.bits rule attr mask.toInt)) := by
  cases rule
  · have hrule : ruleOf? BitRule.all.matchingRule.oid = some .allBits := by decide
    simp [Test.reading, truth?, ruleAtom?, hrule, mask?_decimal]
  · have hrule : ruleOf? BitRule.any.matchingRule.oid = some .someBits := by decide
    simp [Test.reading, truth?, ruleAtom?, hrule, mask?_decimal]

theorem truth?_inChain (ρ : Atom → Bool) (attr entry : String) :
    truth? ρ (Test.inChain attr entry).reading =
      some (ρ (.inChain attr (octets (AssertionValue.unescape entry).toList))) := by
  have hrule : ruleOf? MatchingRule.inChain.oid = some .inChain := by decide
  simp [Test.reading, truth?, ruleAtom?, hrule]

end Reading

end LdapFilter
