import LdapFilter.Text.Caseless

/-!
# Keywords

The reserved keys of a query document. A key that spells a keyword in any letter case asks for
that keyword; every other key names an attribute.

Main statement: a key spells a keyword exactly when it differs from its name in letter case alone
(`ofKey?_eq_some_iff`).
-/

namespace LdapFilter

open Text

/-- The reserved keys. -/
inductive Keyword where
  /-- Every test of an object holds. -/
  | and
  /-- Some test of a list of objects holds. -/
  | or
  /-- The tests of an object are negated. -/
  | not
  /-- The tests of a list of objects are negated. -/
  | nor
  /-- Every bit of a mask is set. -/
  | band
  /-- Some bit of a mask is set. -/
  | bor
  /-- A chain of memberships leads to an entry. -/
  | recurse
deriving DecidableEq, Repr

namespace Keyword

/-- All keywords, in the order in which they are documented. -/
def all : List Keyword := [and, or, not, nor, band, bor, recurse]

/-- The keyword in lower case, as it is written and reported. -/
def name : Keyword → String
  | and => "and"
  | or => "or"
  | not => "not"
  | nor => "nor"
  | band => "band"
  | bor => "bor"
  | recurse => "recurse"

def ofKey? (key : String) : Option Keyword :=
  all.find? fun k => caseless k.name key

/-- Every spelling of a keyword, the one in lower case first. -/
def spellings (k : Keyword) : List String :=
  (capitalisations k.name.toList).map String.ofList

@[simp] theorem mem_all (k : Keyword) : k ∈ all := by
  cases k <;> decide

/-- No two keywords have names that differ in letter case alone. -/
theorem fold_name_injective {j k : Keyword} (h : fold j.name = fold k.name) : j = k := by
  cases j <;> cases k <;> first | rfl | exact absurd h (by decide)

/-- A key spells a keyword exactly when it differs from its name in letter case alone. -/
theorem ofKey?_eq_some_iff {key : String} {k : Keyword} :
    ofKey? key = some k ↔ fold k.name = fold key := by
  constructor
  · intro h
    simpa using List.find?_some h
  · intro h
    cases hfind : ofKey? key with
    | none => exact absurd h (by simpa [ofKey?] using List.find?_eq_none.1 hfind k (mem_all k))
    | some j =>
      have hj : fold j.name = fold key := by simpa using List.find?_some hfind
      rw [fold_name_injective (hj.trans h.symm)]

/-- Every spelling of a keyword spells it. -/
theorem ofKey?_of_mem_spellings {key : String} {k : Keyword} (h : key ∈ k.spellings) :
    ofKey? key = some k := by
  obtain ⟨cs, hcs, rfl⟩ := List.mem_map.1 h
  rw [ofKey?_eq_some_iff, fold, fold, String.toList_ofList]
  exact (map_toLower_of_mem_capitalisations hcs).symm

end Keyword

end LdapFilter
