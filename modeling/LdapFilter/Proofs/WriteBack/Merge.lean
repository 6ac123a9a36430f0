import LdapFilter.Proofs.Basic
import LdapFilter.Query.WriteBack
import Mathlib.Data.List.Forall2
import Mathlib.Data.List.Nodup
import Mathlib.Data.List.Perm.Basic

/-!
# Sharing the keys of an object

The members of an object choose their keys one after the other, and never go back on a choice.
Where of any two members the one that chooses first has no key of the other or only such keys,
nothing is lost by this: the members find keys exactly when there are distinct keys for all of
them (`exists_merge_iff`).
-/

namespace LdapFilter.Query

/-! ### Distinct keys -/

/-- There are distinct keys, one from each list and none of them taken. -/
def Assignable (taken : List String) (choices : List (List String)) : Prop :=
  ∃ keys, List.Forall₂ (fun choice key => key ∈ choice) choices keys ∧ keys.Nodup ∧
    ∀ key ∈ keys, key ∉ taken

/-- The keys of the first list are all in the second, or none of them is. -/
def Nested (choice other : List String) : Prop :=
  choice ⊆ other ∨ choice.Disjoint other

variable {taken : List String} {choices : List (List String)}

theorem Assignable.perm {choices' : List (List String)} (h : Assignable taken choices)
    (hperm : choices'.Perm choices) : Assignable taken choices' := by
  obtain ⟨keys, hkeys, hnodup, hfree⟩ := h
  obtain ⟨keys', hkeys', hperm'⟩ := List.perm_comp_forall₂ hperm hkeys
  refine ⟨keys', hkeys', hperm'.nodup_iff.2 hnodup, ?_⟩
  intro key hkey
  exact hfree key (hperm'.mem_iff.1 hkey)

/-- A key, or the one that takes its place. -/
def exchange (key place other : String) : String :=
  if other = key then place else other

theorem exchange_self (key place : String) : exchange key place key = place :=
  if_pos rfl

theorem exchange_of_ne {key place other : String} (h : other ≠ key) :
    exchange key place other = other :=
  if_neg h

/-- Keys stay distinct when one of them gives way to a new one. -/
theorem nodup_map_exchange {keys : List String} {place : String} (key : String)
    (hnodup : keys.Nodup) (hplace : place ∉ keys) : (keys.map (exchange key place)).Nodup := by
  apply List.Nodup.map_on ?_ hnodup
  intro x hx y hy hxy
  by_cases hxkey : x = key
  · by_cases hykey : y = key
    · rw [hxkey, hykey]
    · rw [hxkey, exchange_self, exchange_of_ne hykey] at hxy
      exact absurd (hxy ▸ hy) hplace
  · by_cases hykey : y = key
    · rw [hykey, exchange_self, exchange_of_ne hxkey] at hxy
      exact absurd (hxy ▸ hx) hplace
    · rwa [exchange_of_ne hxkey, exchange_of_ne hykey] at hxy

/-- Any free key will do for the first list: where another list has to give up this key, it gets
the one that was meant for the first. -/
theorem Assignable.choose {choice : List String} {key : String}
    (h : Assignable taken (choice :: choices)) (hnested : ∀ other ∈ choices, Nested choice other)
    (hkey : key ∈ choice) (hfree : key ∉ taken) : Assignable (key :: taken) choices := by
  obtain ⟨_, hall, hnodup, hfrees⟩ := h
  cases hall with
  | @cons _ meant _ keys hmeant hkeys =>
    rw [List.nodup_cons] at hnodup
    rw [List.forall_mem_cons] at hfrees
    have hmem : ∀ list other, Nested choice list ∧ other ∈ list →
        exchange key meant other ∈ list := by
      rintro list other ⟨hlist, hother⟩
      by_cases heq : other = key
      · rw [heq, exchange_self]
        rcases hlist with hsub | hdisjoint
        · exact hsub hmeant
        · exact absurd (heq ▸ hother) (hdisjoint hkey)
      · rwa [exchange_of_ne heq]
    refine ⟨keys.map (exchange key meant), ?_, nodup_map_exchange key hnodup.2 hnodup.1, ?_⟩
    · rw [List.forall₂_map_right_iff]
      exact ((List.forall₂_and_left _ _).2 ⟨hnested, hkeys⟩).imp hmem
    · intro other hother
      obtain ⟨x, hx, rfl⟩ := List.mem_map.1 hother
      rw [List.mem_cons, not_or]
      by_cases hxkey : x = key
      · rw [hxkey, exchange_self]
        refine ⟨?_, hfrees.1⟩
        rintro rfl
        exact hnodup.1 (hxkey ▸ hx)
      · rw [exchange_of_ne hxkey]
        exact ⟨hxkey, hfrees.2 x hx⟩

theorem Assignable.exists_free {choice : List String} (h : Assignable taken (choice :: choices)) :
    ∃ key ∈ choice, key ∉ taken := by
  obtain ⟨_, hall, -, hfree⟩ := h
  cases hall with
  | cons hkey _ => exact ⟨_, hkey, hfree _ List.mem_cons_self⟩

/-! ### Choosing -/

/-- The keys that a member may be written under. -/
def Member.keys (m : Member) : List String :=
  m.choices.map Prod.fst

variable {m : Member} {flexible : Bool} {slots slots' : List Slot} {taken' : List String}

theorem Member.choose_eq_ok {choice : String × Json} (h : m.choose taken = .ok choice) :
    choice ∈ m.choices ∧ choice.1 ∉ taken := by
  unfold Member.choose at h
  split at h
  · next hfind =>
    cases h
    have hfree := List.find?_some hfind
    refine ⟨List.mem_of_find?_eq_some hfind, ?_⟩
    simpa using hfree
  · cases h

/-- A member with a free key makes a choice. -/
theorem Member.exists_choose {key : String} (hkey : key ∈ m.keys) (hfree : key ∉ taken) :
    ∃ choice, m.choose taken = .ok choice := by
  obtain ⟨choice, hchoice, rfl⟩ := List.mem_map.1 hkey
  cases hfind : m.choices.find? fun choice => !taken.contains choice.1 with
  | some choice => exact ⟨choice, by rw [Member.choose, hfind]⟩
  | none =>
    have hnone := List.find?_eq_none.1 hfind choice hchoice
    simp [hfree] at hnone

/-- What members of one sort leave of a slot: their own have a choice, the others are as before. -/
def Slot.Chooses (flexible : Bool) (slot slot' : Slot) : Prop :=
  slot'.member = slot.member ∧
    if slot.member.flexible = flexible then
      ∃ choice ∈ slot.member.choices, slot'.chosen = some choice
    else slot'.chosen = slot.chosen

def chosenKeys (slots : List Slot) : List String :=
  (slots.filterMap Slot.chosen).map Prod.fst

/-- Choosing does not change the members, and those of the given sort have one of their choices. -/
theorem forall₂_chooses (h : chooseAll flexible taken slots = .ok (slots', taken')) :
    List.Forall₂ (Slot.Chooses flexible) slots slots' := by
  induction slots generalizing taken slots' taken' with
  | nil =>
    cases h
    exact .nil
  | cons slot slots ih =>
    rw [chooseAll] at h
    split at h
    · next hflexible =>
      obtain ⟨choice, hchoice, h⟩ := Except.bind_eq_ok_iff.1 h
      obtain ⟨⟨rest, taken''⟩, hrest, h⟩ := Except.bind_eq_ok_iff.1 h
      cases h
      refine .cons ⟨rfl, ?_⟩ (ih hrest)
      rw [if_pos hflexible]
      exact ⟨choice, (Member.choose_eq_ok hchoice).1, rfl⟩
    · next hflexible =>
      obtain ⟨⟨rest, taken''⟩, hrest, h⟩ := Except.bind_eq_ok_iff.1 h
      cases h
      refine .cons ⟨rfl, ?_⟩ (ih hrest)
      rw [if_neg hflexible]

/-- The keys that are taken by choosing are those of the new choices, and they stay distinct. -/
theorem taken_of_chooseAll (h : chooseAll flexible taken slots = .ok (slots', taken'))
    (hnone : ∀ slot ∈ slots, slot.member.flexible = flexible → slot.chosen = none) :
    (chosenKeys slots' ++ taken).Perm (chosenKeys slots ++ taken') ∧
      (taken.Nodup → taken'.Nodup) := by
  induction slots generalizing taken slots' taken' with
  | nil =>
    cases h
    exact ⟨.refl _, id⟩
  | cons slot slots ih =>
    rw [List.forall_mem_cons] at hnone
    rw [chooseAll] at h
    split at h
    · next hflexible =>
      obtain ⟨choice, hchoice, h⟩ := Except.bind_eq_ok_iff.1 h
      obtain ⟨⟨rest, taken''⟩, hrest, h⟩ := Except.bind_eq_ok_iff.1 h
      cases h
      obtain ⟨hperm, hnodup⟩ := ih hrest hnone.2
      have hslot : chosenKeys (slot :: slots) = chosenKeys slots := by
        simp [chosenKeys, hnone.1 hflexible]
      have hslot' : chosenKeys (⟨slot.member, some choice⟩ :: rest) = choice.1 :: chosenKeys rest :=
        rfl
      rw [hslot, hslot']
      refine ⟨List.perm_middle.symm.trans hperm, fun htaken => ?_⟩
      exact hnodup (List.nodup_cons.2 ⟨(Member.choose_eq_ok hchoice).2, htaken⟩)
    · next hflexible =>
      obtain ⟨⟨rest, taken''⟩, hrest, h⟩ := Except.bind_eq_ok_iff.1 h
      cases h
      obtain ⟨hperm, hnodup⟩ := ih hrest hnone.2
      refine ⟨?_, hnodup⟩
      cases hchosen : slot.chosen with
      | none => simpa [chosenKeys, hchosen] using hperm
      | some choice => simpa [chosenKeys, hchosen] using hperm

/-- The members of one sort find their keys if there are distinct ones for all of them and for the
later members. They leave distinct ones for the latter. -/
theorem exists_chooseAll {later : List (List String)}
    (h : Assignable taken
      (((slots.map Slot.member).filter fun m => m.flexible = flexible).map Member.keys ++ later))
    (hnested : List.Pairwise Nested
      (((slots.map Slot.member).filter fun m => m.flexible = flexible).map Member.keys ++ later)) :
    ∃ slots' taken', chooseAll flexible taken slots = .ok (slots', taken') ∧
      Assignable taken' later := by
  induction slots generalizing taken with
  | nil => exact ⟨[], taken, rfl, h⟩
  | cons slot slots ih =>
    by_cases hflexible : slot.member.flexible = flexible
    · have hcons : (((slot :: slots).map Slot.member).filter fun m => m.flexible = flexible) =
          slot.member :: (slots.map Slot.member).filter fun m => m.flexible = flexible := by
        simp [hflexible]
      rw [hcons, List.map_cons, List.cons_append] at h hnested
      rw [List.pairwise_cons] at hnested
      obtain ⟨key, hkey, hfree⟩ := h.exists_free
      obtain ⟨choice, hchoice⟩ := Member.exists_choose hkey hfree
      obtain ⟨hmem, hnot⟩ := Member.choose_eq_ok hchoice
      have hrest := h.choose hnested.1 (List.mem_map_of_mem hmem) hnot
      obtain ⟨slots', taken', hslots', hlater⟩ := ih hrest hnested.2
      refine ⟨⟨slot.member, some choice⟩ :: slots', taken', ?_, hlater⟩
      rw [chooseAll, if_pos hflexible, hchoice]
      simp only [bind, Except.bind]
      rw [hslots']
      rfl
    · have hskip : (((slot :: slots).map Slot.member).filter fun m => m.flexible = flexible) =
          (slots.map Slot.member).filter fun m => m.flexible = flexible := by
        simp [hflexible]
      rw [hskip] at h hnested
      obtain ⟨slots', taken', hslots', hlater⟩ := ih h hnested
      refine ⟨slot :: slots', taken', ?_, hlater⟩
      rw [chooseAll, if_neg hflexible, hslots']
      rfl

/-! ### Merging -/

variable {members : List Member} {pairs : List (String × Json)}

/-- When both sorts have chosen, every slot holds a choice of its member. -/
theorem forall₂_chosen {slots slots' : List Slot}
    (h : List.Forall₂ (Slot.Chooses false) (members.map fun m => ⟨m, none⟩) slots)
    (h' : List.Forall₂ (Slot.Chooses true) slots slots') :
    List.Forall₂ (fun m p => p ∈ m.choices) members (slots'.filterMap Slot.chosen) := by
  induction members generalizing slots slots' with
  | nil =>
    cases h
    cases h'
    exact .nil
  | cons m members ih =>
    cases h with
    | @cons _ slot _ slots hslot hslots =>
      cases h' with
      | @cons _ slot' _ slots' hslot' hslots' =>
        obtain ⟨hmember, hchosen⟩ := hslot
        obtain ⟨hmember', hchosen'⟩ := hslot'
        have hmem : ∃ choice ∈ m.choices, slot'.chosen = some choice := by
          rw [hmember] at hchosen'
          by_cases hflexible : m.flexible = true
          · rwa [if_pos hflexible] at hchosen'
          · rw [if_neg hflexible] at hchosen'
            rw [if_pos (Bool.eq_false_iff.2 hflexible)] at hchosen
            rwa [hchosen']
        obtain ⟨choice, hchoice, hsome⟩ := hmem
        rw [List.filterMap_cons_some hsome]
        exact .cons hchoice (ih hslots hslots')

theorem chosen_eq_none_of_chooses {slots slots' : List Slot}
    (h : List.Forall₂ (Slot.Chooses flexible) slots slots')
    (hnone : ∀ slot ∈ slots, slot.chosen = none) :
    ∀ slot ∈ slots', slot.member.flexible ≠ flexible → slot.chosen = none := by
  induction h with
  | nil => simp
  | cons hslot _ ih =>
    rw [List.forall_mem_cons] at hnone ⊢
    refine ⟨fun hother => ?_, ih hnone.2⟩
    obtain ⟨hmember, hchosen⟩ := hslot
    rw [hmember] at hother
    rw [if_neg hother] at hchosen
    rw [hchosen, hnone.1]

/-- The pairs of an object are choices of the members, in their order, and have distinct keys. -/
theorem merge_eq_ok (h : merge members = .ok pairs) :
    List.Forall₂ (fun m p => p ∈ m.choices) members pairs ∧ (pairs.map Prod.fst).Nodup := by
  obtain ⟨⟨slots, taken⟩, hfixed, h⟩ := Except.bind_eq_ok_iff.1 h
  obtain ⟨⟨slots', taken'⟩, hflexible, h⟩ := Except.bind_eq_ok_iff.1 h
  cases h
  have hslots := forall₂_chooses hfixed
  refine ⟨forall₂_chosen hslots (forall₂_chooses hflexible), ?_⟩
  obtain ⟨hperm, hnodup⟩ := taken_of_chooseAll hfixed (by simp)
  have hempty : chosenKeys (members.map fun m => ⟨m, none⟩) = [] := by
    simp [chosenKeys]
  rw [hempty, List.append_nil, List.nil_append] at hperm
  have hnone : ∀ slot ∈ slots, slot.member.flexible = true → slot.chosen = none := by
    intro slot hslot htrue
    exact chosen_eq_none_of_chooses hslots (by simp) slot hslot (by simp [htrue])
  obtain ⟨hperm', hnodup'⟩ := taken_of_chooseAll hflexible hnone
  have hkeys : (chosenKeys slots').Perm taken' :=
    (List.perm_append_left_iff taken).1
      (List.perm_append_comm.trans (hperm'.trans (hperm.append_right taken')))
  exact hkeys.nodup_iff.2 (hnodup' (hnodup List.nodup_nil))

theorem map_member_of_chooses {slots slots' : List Slot}
    (h : List.Forall₂ (Slot.Chooses flexible) slots slots') :
    slots'.map Slot.member = slots.map Slot.member := by
  induction h with
  | nil => rfl
  | cons hslot _ ih => rw [List.map_cons, List.map_cons, hslot.1, ih]

/-- The members in the order in which they choose. -/
theorem perm_filter_flexible (members : List Member) :
    (members.filter (fun m => m.flexible = false) ++
      members.filter (fun m => m.flexible = true)).Perm members := by
  have hnot : (fun m : Member => decide (m.flexible = true)) =
      fun m => !decide (m.flexible = false) := by
    funext m
    cases m.flexible <;> rfl
  rw [hnot]
  exact List.filter_append_perm _ members

theorem pairwise_nested_filter_flexible (hnested : ∀ m ∈ members, ∀ m' ∈ members,
      (m.flexible = true → m'.flexible = true) → Nested m.keys m'.keys) :
    List.Pairwise Nested ((members.filter fun m => m.flexible = false).map Member.keys ++
      (members.filter fun m => m.flexible = true).map Member.keys) := by
  rw [← List.map_append, List.pairwise_map, List.pairwise_append]
  refine ⟨List.pairwise_of_forall_mem_list ?_, List.pairwise_of_forall_mem_list ?_, ?_⟩
  all_goals
    intro m hm m' hm'
    simp only [List.mem_filter, decide_eq_true_eq] at hm hm'
    apply hnested m hm.1 m' hm'.1
    simp [hm.2, hm'.2]

/-- When there are distinct keys for all members, both sorts find theirs. -/
theorem exists_merge_of_assignable (hnested : ∀ m ∈ members, ∀ m' ∈ members,
      (m.flexible = true → m'.flexible = true) → Nested m.keys m'.keys)
    (h : Assignable [] (members.map Member.keys)) : ∃ pairs, merge members = .ok pairs := by
  have hassignable := h.perm ((perm_filter_flexible members).map Member.keys)
  have hpairwise := pairwise_nested_filter_flexible hnested
  have hmembers : (members.map fun m => (⟨m, none⟩ : Slot)).map Slot.member = members := by
    rw [List.map_map]
    exact List.map_id members
  rw [List.map_append] at hassignable
  rw [← hmembers] at hassignable hpairwise
  obtain ⟨slots, taken, hfixed, hlater⟩ := exists_chooseAll hassignable hpairwise
  have hslots := map_member_of_chooses (forall₂_chooses hfixed)
  have hlast : ((slots.map Slot.member).filter fun m => m.flexible = true).map Member.keys ++ [] =
      (((members.map fun m => (⟨m, none⟩ : Slot)).map Slot.member).filter fun m =>
        m.flexible = true).map Member.keys := by
    rw [List.append_nil, hslots]
  rw [← hlast] at hlater hpairwise
  have hpairwise' := (List.pairwise_append.1 hpairwise).2.1
  obtain ⟨slots', taken', hflexible, -⟩ := exists_chooseAll hlater hpairwise'
  refine ⟨slots'.filterMap Slot.chosen, ?_⟩
  rw [merge, hfixed]
  simp only [bind, Except.bind]
  rw [hflexible]
  rfl

/-- Members whose keys are nested in the order in which they choose share an object exactly when
there are distinct keys for all of them. -/
theorem exists_merge_iff (hnested : ∀ m ∈ members, ∀ m' ∈ members,
      (m.flexible = true → m'.flexible = true) → Nested m.keys m'.keys) :
    (∃ pairs, merge members = .ok pairs) ↔ Assignable [] (members.map Member.keys) := by
  constructor
  · rintro ⟨pairs, h⟩
    obtain ⟨hall, hnodup⟩ := merge_eq_ok h
    refine ⟨pairs.map Prod.fst, ?_, hnodup, by simp⟩
    rw [List.forall₂_map_left_iff, List.forall₂_map_right_iff]
    apply hall.imp
    intro m p hp
    exact List.mem_map_of_mem hp
  · exact exists_merge_of_assignable hnested

end LdapFilter.Query
