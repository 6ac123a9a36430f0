import LdapFilter.Keyword

/-!
# Spellings of keywords

Every key that spells a keyword is among the spellings of the keyword, so a key is free for a
keyword as long as one of its spellings is (`mem_spellings_iff`).
-/

namespace LdapFilter

namespace Text

/-- A character is its lower-case partner, or the upper-case partner of that. -/
theorem eq_or_eq_toUpper_of_toLower_eq {c d : Char} (h : d.toLower = c) :
    d = c ∨ d = c.toUpper := by
  unfold Char.toLower at h
  split at h
  · next hupper =>
    right
    have hbounds : 65 ≤ d.val.toNat ∧ d.val.toNat ≤ 90 :=
      ⟨UInt32.le_iff_toNat_le.1 hupper.1, UInt32.le_iff_toNat_le.1 hupper.2⟩
    have hval : (d.val + ('a'.val - 'A'.val)).toNat = d.val.toNat + 32 := by
      rw [UInt32.toNat_add, show ('a'.val - 'A'.val).toNat = 32 from rfl]
      omega
    subst h
    have hlower :
        'a'.val ≤ d.val + ('a'.val - 'A'.val) ∧ d.val + ('a'.val - 'A'.val) ≤ 'z'.val := by
      rw [UInt32.le_iff_toNat_le, UInt32.le_iff_toNat_le, hval, show 'a'.val.toNat = 97 from rfl,
        show 'z'.val.toNat = 122 from rfl]
      omega
    unfold Char.toUpper
    rw [dif_pos hlower]
    apply Char.ext
    simp [UInt32.add_assoc]
  · exact Or.inl h

/-- Every text that differs from a lower-case word in letter case alone is one of its
capitalisations. -/
theorem mem_capitalisations_of_map_toLower {cs ds : List Char} (h : ds.map Char.toLower = cs) :
    ds ∈ capitalisations cs := by
  induction ds generalizing cs with
  | nil =>
    subst h
    exact List.mem_singleton.2 rfl
  | cons d ds ih =>
    subst h
    rw [List.map_cons, capitalisations, List.mem_flatMap]
    refine ⟨ds, ih rfl, ?_⟩
    rcases eq_or_eq_toUpper_of_toLower_eq (d := d) rfl with hd | hd
    · rw [← hd]
      exact List.mem_cons_self
    · rw [← hd]
      exact List.mem_cons_of_mem _ (List.mem_singleton.2 rfl)

end Text

namespace Keyword

open Text

/-- The spellings of a keyword are the keys that spell it. -/
theorem mem_spellings_iff {key : String} {k : Keyword} :
    key ∈ k.spellings ↔ ofKey? key = some k := by
  constructor
  · exact ofKey?_of_mem_spellings
  · intro h
    have hname : fold k.name = k.name.toList := by cases k <;> decide
    rw [ofKey?_eq_some_iff, hname] at h
    rw [spellings, List.mem_map]
    exact ⟨key.toList, mem_capitalisations_of_map_toLower h.symm, String.ofList_toList⟩

theorem ofKey?_name (k : Keyword) : ofKey? k.name = some k :=
  ofKey?_eq_some_iff.2 rfl

end Keyword

end LdapFilter
