/-!
# Text with the case of ASCII letters set aside

Only the letters `A` to `Z` have a lower-case partner here; every other character stands for
itself.

Main statement: the capitalisations of a word differ from it in letter case alone
(`map_toLower_of_mem_capitalisations`).
-/

namespace LdapFilter.Text

/-- The characters of a text with ASCII letters in lower case. -/
def fold (s : String) : List Char :=
  s.toList.map Char.toLower

def caseless (s t : String) : Bool :=
  fold s == fold t

@[simp] theorem caseless_iff (s t : String) : caseless s t = true ↔ fold s = fold t := by
  simp [caseless]

/-- Every way to capitalise a word: the first letter varies fastest, and the word itself comes
first. -/
def capitalisations : List Char → List (List Char)
  | [] => [[]]
  | c :: cs => (capitalisations cs).flatMap fun rest => [c :: rest, c.toUpper :: rest]

/-- An upper-case partner has the same lower-case partner as the character. -/
theorem toLower_toUpper (c : Char) : c.toUpper.toLower = c.toLower := by
  unfold Char.toUpper
  split
  · next h =>
    rw [UInt32.le_iff_toNat_le, UInt32.le_iff_toNat_le] at h
    have hn : (c.val + ('A'.val - 'a'.val)).toNat = c.val.toNat - 32 := by
      rw [UInt32.toNat_add]; simp at h ⊢; omega
    have hupper :
        'A'.val ≤ c.val + ('A'.val - 'a'.val) ∧ c.val + ('A'.val - 'a'.val) ≤ 'Z'.val := by
      rw [UInt32.le_iff_toNat_le, UInt32.le_iff_toNat_le, hn]
      simp at h ⊢; omega
    have hlower : ¬ ('A'.val ≤ c.val ∧ c.val ≤ 'Z'.val) := by
      rw [UInt32.le_iff_toNat_le, UInt32.le_iff_toNat_le]
      simp at h ⊢; omega
    unfold Char.toLower
    rw [dif_pos hupper, dif_neg hlower]
    apply Char.ext
    simp [UInt32.add_assoc]
  · rfl

/-- The capitalisations of a word differ from it in letter case alone. -/
theorem map_toLower_of_mem_capitalisations {cs ds : List Char} (h : ds ∈ capitalisations cs) :
    ds.map Char.toLower = cs.map Char.toLower := by
  induction cs generalizing ds with
  | nil => simp [List.mem_singleton.1 h]
  | cons c cs ih =>
    obtain ⟨rest, hrest, hds⟩ := List.mem_flatMap.1 h
    rcases List.mem_cons.1 hds with rfl | hds
    · simp [ih hrest]
    · rw [List.mem_singleton.1 hds, List.map_cons, List.map_cons, toLower_toUpper, ih hrest]

end LdapFilter.Text
