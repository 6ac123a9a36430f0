import LdapFilter.Proofs.Query.Denotes

/-!
# Measures of filters

How many pairs a filter takes to write, and how deep their payloads are nested. Whatever pair
stands for a filter has these measures (`Denotes.pairCount_eq`, `Denotes.nesting_eq`), so all
documents of one filter are within the same limits.
-/

namespace LdapFilter

namespace Filter

mutual
/-- The pairs that stand for a filter. -/
def pairCount : Filter → Nat
  | .test _ => 1
  | .not _ => 2
  | .and children _ | .or children _ => 1 + pairCounts children
  | .nor members _ => 1 + members.length

def pairCounts : List Filter → Nat
  | [] => 0
  | f :: fs => f.pairCount + pairCounts fs
end

mutual
/-- The payloads of combinations that stand one inside the other. -/
def nesting : Filter → Nat
  | .test _ => 0
  | .not _ | .nor _ _ => 1
  | .and children _ | .or children _ => 1 + nestings children

def nestings : List Filter → Nat
  | [] => 0
  | f :: fs => max f.nesting (nestings fs)
end

theorem pairCounts_eq (fs : List Filter) :
    pairCounts fs = (fs.map pairCount).foldr (· + ·) 0 := by
  induction fs with
  | nil => rfl
  | cons f fs ih => rw [pairCounts, ih, List.map_cons, List.foldr_cons]

theorem nestings_eq (fs : List Filter) : nestings fs = (fs.map nesting).foldr max 0 := by
  induction fs with
  | nil => rfl
  | cons f fs ih => rw [nestings, ih, List.map_cons, List.foldr_cons]

theorem pairCounts_map_test (tests : List Test) : pairCounts (tests.map .test) = tests.length := by
  induction tests with
  | nil => rfl
  | cons t tests ih =>
    rw [List.map_cons, pairCounts, ih, pairCount, List.length_cons, Nat.add_comm]

theorem nestings_map_test (tests : List Test) : nestings (tests.map .test) = 0 := by
  induction tests with
  | nil => rfl
  | cons t tests ih => rw [List.map_cons, nestings, ih, nesting, Nat.max_self]

mutual
/-- Each payload that stands inside another one is that of a pair of its own. -/
theorem nesting_le_pairCount (f : Filter) : f.nesting ≤ f.pairCount := by
  match f with
  | .test _ | .not _ | .nor _ _ => simp [nesting, pairCount]
  | .and children _ | .or children _ =>
    rw [nesting, pairCount]
    exact Nat.add_le_add_left (nestings_le_pairCounts children) 1

theorem nestings_le_pairCounts (fs : List Filter) : nestings fs ≤ pairCounts fs := by
  match fs with
  | [] => exact Nat.le_refl 0
  | f :: fs =>
    have hhead := nesting_le_pairCount f
    have htail := nestings_le_pairCounts fs
    rw [nestings, pairCounts]
    omega
end

end Filter

namespace Query

variable {o : Options} {key : String} {value : Json} {ps : List (String × Json)}

theorem pairCountAll_of_denotes {children : List Filter}
    (ih : ∀ p ∈ ps, ∀ {f : Filter}, Denotes o p.1 p.2 f → pairCount p.1 p.2 = f.pairCount)
    (h : List.Forall₂ (fun p f => Denotes o p.1 p.2 f) ps children) :
    pairCountAll ps = Filter.pairCounts children := by
  rw [pairCountAll, Filter.pairCounts_eq, map_eq_map_of_forall₂ h fun p hp f hf => ih p hp hf]

theorem foldr_max_nesting_of_denotes {children : List Filter}
    (ih : ∀ p ∈ ps, ∀ {f : Filter}, Denotes o p.1 p.2 f → nesting p.1 p.2 = f.nesting)
    (h : List.Forall₂ (fun p f => Denotes o p.1 p.2 f) ps children) :
    (ps.map fun p => nesting p.1 p.2).foldr max 0 = Filter.nestings children := by
  rw [Filter.nestings_eq, map_eq_map_of_forall₂ h fun p hp f hf => ih p hp hf]

/-- A filter takes the same number of pairs in whatever way it is written. -/
theorem Denotes.pairCount_eq {f : Filter} (h : Denotes o key value f) :
    pairCount key value = f.pairCount := by
  induction key, value using payload_induction generalizing f with
  | h key value ih =>
  have hgroup : ∀ {children : List Filter},
      List.Forall₂ (fun p f => Denotes o p.1 p.2 f) (payload key value) children →
      pairCountAll (payload key value) = Filter.pairCounts children :=
    pairCountAll_of_denotes fun p hp => ih p hp
  rw [Query.pairCount_eq]
  cases h with
  | test ht =>
    rw [payload_of_not_isCombination ht.not_isCombination, pairCountAll_nil, Filter.pairCount]
  | @not _ p t hkey ht =>
    simp only [payload, hkey] at hgroup ⊢
    rw [hgroup (.cons (.test ht) .nil)]
    rfl
  | and hkey h =>
    simp only [payload, hkey] at hgroup ⊢
    rw [hgroup h, Filter.andOf, Filter.pairCount]
  | or hkey hitems h =>
    simp only [payload, hkey] at hgroup ⊢
    rw [hgroup h, Filter.orOf, Filter.pairCount]
  | nor hkey hitems h =>
    simp only [payload, hkey] at hgroup ⊢
    rw [hgroup (forall₂_denotes_map_test_iff.2 h), Filter.pairCounts_map_test, Filter.noneOf,
      Filter.pairCount]
  | notAny hkey hlength h =>
    simp only [payload, hkey] at hgroup ⊢
    rw [hgroup (forall₂_denotes_map_test_iff.2 h), Filter.pairCounts_map_test, Filter.noneOf,
      Filter.pairCount]

/-- A filter is nested to the same depth in whatever way it is written. -/
theorem Denotes.nesting_eq {f : Filter} (h : Denotes o key value f) :
    nesting key value = f.nesting := by
  induction key, value using payload_induction generalizing f with
  | h key value ih =>
  have hgroup : ∀ {children : List Filter}, isCombination key = true →
      List.Forall₂ (fun p f => Denotes o p.1 p.2 f) (payload key value) children →
      nesting key value = 1 + Filter.nestings children := by
    intro children hcomb h
    rw [Query.nesting_eq, if_pos hcomb, foldr_max_nesting_of_denotes (fun p hp => ih p hp) h]
  cases h with
  | test ht =>
    rw [Query.nesting_eq, ht.not_isCombination]
    rfl
  | @not _ p t hkey ht =>
    simp only [isCombination, payload, hkey] at hgroup
    rw [hgroup trivial (.cons (.test ht) .nil)]
    rfl
  | and hkey h =>
    simp only [isCombination, payload, hkey] at hgroup
    rw [hgroup trivial h, Filter.andOf, Filter.nesting]
  | or hkey hitems h =>
    simp only [isCombination, payload, hkey] at hgroup
    rw [hgroup trivial h, Filter.orOf, Filter.nesting]
  | nor hkey hitems h =>
    simp only [isCombination, payload, hkey] at hgroup
    rw [hgroup trivial (forall₂_denotes_map_test_iff.2 h), Filter.nestings_map_test]
    rfl
  | notAny hkey hlength h =>
    simp only [isCombination, payload, hkey] at hgroup
    rw [hgroup trivial (forall₂_denotes_map_test_iff.2 h), Filter.nestings_map_test]
    rfl

end Query

end LdapFilter
