import LdapFilter.Attribute
import LdapFilter.Proofs.Basic
import Mathlib.Computability.Language

/-!
# The grammar of attribute descriptions

The rules of the grammar of attribute descriptions (RFC 4512), as languages: each rule is the set of
the words that it derives. No part of a description contains the separator that stands behind it,
so cutting a text at the separators gives the parts that the rules put together
(`splitOn_eq_cons_iff`).

Main statement: the attribute descriptions are the words that the grammar derives
(`isDescription_iff_mem_description`).
-/

namespace LdapFilter.Attribute

open Computability

namespace Grammar

/-! ### Rules -/

def chars (p : Char → Prop) : Language Char :=
  {w | ∃ c, p c ∧ w = [c]}

/-- Letters: `ALPHA`. -/
def alpha : Language Char :=
  chars (fun c => 'A' ≤ c ∧ c ≤ 'Z') + chars (fun c => 'a' ≤ c ∧ c ≤ 'z')

/-- Digits: `DIGIT`. -/
def digit : Language Char := chars fun c => '0' ≤ c ∧ c ≤ '9'

/-- Digits other than zero: `LDIGIT`. -/
def leadingDigit : Language Char := chars fun c => '1' ≤ c ∧ c ≤ '9'

/-- The characters of names and options: `ALPHA / DIGIT / HYPHEN`. -/
def keyChar : Language Char := alpha + digit + {['-']}

/-- Names: `ALPHA *keychar`. -/
def descriptor : Language Char := alpha * keyChar∗

/-- Numbers: a zero, or `LDIGIT *DIGIT`. -/
def number : Language Char := {['0']} + leadingDigit * digit∗

/-- Numeric identifiers: `number 1*( DOT number )`. -/
def numericOid : Language Char := number * (({['.']} * number) * ({['.']} * number)∗)

/-- Options: `1*keychar`. -/
def option : Language Char := keyChar * keyChar∗

/-- Attribute descriptions: a name or a numeric identifier, and then `*( SEMI option )`. -/
def description : Language Char := (descriptor + numericOid) * ({[';']} * option)∗

/-! ### Single characters -/

section

variable {p q : Char → Prop} {w : List Char}

theorem mem_chars_iff : w ∈ chars p ↔ ∃ c, p c ∧ w = [c] :=
  Iff.rfl

theorem mem_singleton_iff {v : List Char} : w ∈ ({v} : Language Char) ↔ w = v :=
  Iff.rfl

theorem chars_add_chars (p q : Char → Prop) : chars p + chars q = chars fun c => p c ∨ q c := by
  ext w
  simp only [Language.mem_add, mem_chars_iff, or_and_right, exists_or]

theorem singleton_eq_chars (c : Char) : {[c]} = chars (· = c) := by
  ext w
  simp [mem_singleton_iff, mem_chars_iff]

/-- Repetitions of single characters are the words over these characters. -/
theorem mem_kstar_chars_iff : w ∈ (chars p)∗ ↔ ∀ c ∈ w, p c := by
  rw [Language.mem_kstar]
  constructor
  · rintro ⟨parts, rfl, hparts⟩ c hc
    obtain ⟨part, hpart, hc⟩ := List.mem_flatten.1 hc
    obtain ⟨d, hd, rfl⟩ := hparts part hpart
    rwa [List.mem_singleton.1 hc]
  · intro h
    refine ⟨w.map ([·]), by rw [← List.flatMap_def, List.flatMap_singleton'], fun part hpart => ?_⟩
    obtain ⟨c, hc, rfl⟩ := List.mem_map.1 hpart
    exact ⟨c, h c hc, rfl⟩

/-- A first character, and then any number of others. -/
theorem mem_chars_mul_kstar_iff :
    w ∈ chars p * (chars q)∗ ↔ ∃ c cs, w = c :: cs ∧ p c ∧ ∀ d ∈ cs, q d := by
  simp only [Language.mem_mul, mem_chars_iff, mem_kstar_chars_iff]
  constructor
  · rintro ⟨_, ⟨c, hc, rfl⟩, cs, hcs, rfl⟩
    exact ⟨c, cs, rfl, hc, hcs⟩
  · rintro ⟨c, cs, rfl, hc, hcs⟩
    exact ⟨[c], ⟨c, hc, rfl⟩, cs, hcs, rfl⟩

/-- A character that may stand neither first nor later does not occur. -/
theorem not_mem_of_mem_chars_mul_kstar {x : Char} (h : w ∈ chars p * (chars q)∗) (hp : ¬ p x)
    (hq : ¬ q x) : x ∉ w := by
  obtain ⟨c, cs, rfl, hc, hcs⟩ := mem_chars_mul_kstar_iff.1 h
  intro hmem
  rcases List.mem_cons.1 hmem with rfl | hmem
  · exact hp hc
  · exact hq (hcs x hmem)

theorem alpha_eq : alpha = chars fun c => c.isAlpha = true := by
  rw [alpha, chars_add_chars]
  congr 1
  funext c
  have hupper : c.isUpper = true ↔ 'A' ≤ c ∧ c ≤ 'Z' := decide_eq_true_iff
  have hlower : c.isLower = true ↔ 'a' ≤ c ∧ c ≤ 'z' :=
    (Bool.and_eq_true_iff ..).trans (and_congr decide_eq_true_iff decide_eq_true_iff)
  have halpha : c.isAlpha = true ↔ c.isUpper = true ∨ c.isLower = true :=
    Bool.or_eq_true_iff ..
  exact propext (halpha.trans (or_congr hupper hlower)).symm

theorem digit_eq : digit = chars fun c => c.isDigit = true := by
  rw [digit]
  congr 1
  funext c
  simp [Char.isDigit, Char.le_def]

theorem keyChar_eq : keyChar = chars fun c => isKeyChar c = true := by
  rw [keyChar, alpha_eq, digit_eq, singleton_eq_chars, chars_add_chars, chars_add_chars]
  congr 1
  funext c
  simp [isKeyChar, Char.isAlphanum]

theorem leadingDigit_eq : leadingDigit = chars fun c => c.isDigit = true ∧ c ≠ '0' := by
  rw [leadingDigit]
  congr 1
  funext c
  rw [Char.isDigit_iff_toNat, ne_eq, ← Char.toNat_inj, Char.le_def, Char.le_def,
    UInt32.le_iff_toNat_le, UInt32.le_iff_toNat_le, eq_iff_iff]
  change 49 ≤ c.toNat ∧ c.toNat ≤ 57 ↔ (48 ≤ c.toNat ∧ c.toNat ≤ 57) ∧ ¬ c.toNat = 48
  omega

end

/-! ### Words between separators -/

section

variable {x : Char} {m : Language Char} {w cs : List Char} {ws : List (List Char)}

/-- A text is cut at the separators that join its parts, when they contain no separator. -/
theorem splitOn_eq_cons_iff (hw : x ∉ w) (hws : ∀ v ∈ ws, x ∉ v) :
    cs.splitOn x = w :: ws ↔ cs = w ++ ws.flatMap ([x] ++ ·) := by
  rw [← intercalate_cons]
  constructor
  · intro h
    rw [← h, List.intercalate_splitOn]
  · rintro rfl
    exact List.splitOn_intercalate x (List.forall_mem_cons.2 ⟨hw, hws⟩) (List.cons_ne_nil w ws)

/-- Repetitions of a separator and a word. -/
theorem mem_kstar_separated_iff :
    cs ∈ ({[x]} * m)∗ ↔
      ∃ ws : List (List Char), (∀ w ∈ ws, w ∈ m) ∧ cs = ws.flatMap ([x] ++ ·) := by
  rw [Language.mem_kstar]
  constructor
  · rintro ⟨parts, rfl, hparts⟩
    induction parts with
    | nil => exact ⟨[], by simp, rfl⟩
    | cons part parts ih =>
      rw [List.forall_mem_cons] at hparts
      obtain ⟨_, rfl, w, hw, rfl⟩ := Language.mem_mul.1 hparts.1
      obtain ⟨ws, hws, hflatten⟩ := ih hparts.2
      exact ⟨w :: ws, List.forall_mem_cons.2 ⟨hw, hws⟩, by
        rw [List.flatten_cons, List.flatMap_cons, hflatten]⟩
  · rintro ⟨ws, hws, rfl⟩
    refine ⟨ws.map ([x] ++ ·), List.flatMap_def, fun part hpart => ?_⟩
    obtain ⟨w, hw, rfl⟩ := List.mem_map.1 hpart
    exact Language.append_mem_mul rfl (hws w hw)

end

end Grammar

/-! ### Recognition -/

open Grammar

section

variable {cs : List Char}

/-- Names are recognized exactly as their rule derives them. -/
theorem isDescriptor_iff_mem_descriptor : isDescriptor cs = true ↔ cs ∈ descriptor := by
  rw [descriptor, alpha_eq, keyChar_eq, mem_chars_mul_kstar_iff]
  cases cs <;> simp [isDescriptor]

theorem isOption_iff_mem_option : isOption cs = true ↔ cs ∈ option := by
  rw [option, keyChar_eq, mem_chars_mul_kstar_iff]
  cases cs <;> simp [isOption]

theorem number_eq : number =
    {['0']} + chars (fun c => c.isDigit = true ∧ c ≠ '0') * (chars fun c => c.isDigit = true)∗ := by
  rw [number, leadingDigit_eq, digit_eq]

/-- A number is a zero, or starts with no zero. -/
theorem isArc_iff_mem_number : isArc cs = true ↔ cs ∈ number := by
  rw [number_eq, Language.mem_add, mem_singleton_iff, mem_chars_mul_kstar_iff]
  unfold isArc
  split
  · simp
  · simp
  · next ds hds =>
    simp only [Bool.false_eq_true, List.cons.injEq, true_and, false_iff]
    rintro (rfl | ⟨c, _, ⟨rfl, rfl⟩, hc, -⟩)
    · exact hds rfl
    · exact hc.2 rfl
  · next hnil _ hzero =>
    cases cs with
    | nil => exact absurd rfl hnil
    | cons c ds =>
      have hc : c ≠ '0' := fun e => hzero ds (e ▸ rfl)
      simp [hc]

theorem not_mem_of_mem_number {x : Char} (h : cs ∈ number) (hx : x.isDigit = false) : x ∉ cs := by
  have hdigit : ¬ x.isDigit = true := Bool.eq_false_iff.1 hx
  rw [number_eq, Language.mem_add, mem_singleton_iff] at h
  rcases h with rfl | h
  · intro hmem
    rw [List.mem_singleton.1 hmem] at hdigit
    exact hdigit rfl
  · exact not_mem_of_mem_chars_mul_kstar h (fun hx => hdigit hx.1) hdigit

theorem mem_numericOid_iff :
    cs ∈ numericOid ↔ ∃ w v ws, cs = w ++ (v :: ws).flatMap (['.'] ++ ·) ∧
      ∀ u ∈ w :: v :: ws, u ∈ number := by
  rw [numericOid, Language.mem_mul]
  constructor
  · rintro ⟨w, hw, _, htail, rfl⟩
    obtain ⟨_, hfirst, _, hmore, rfl⟩ := Language.mem_mul.1 htail
    obtain ⟨_, rfl, v, hv, rfl⟩ := Language.mem_mul.1 hfirst
    obtain ⟨ws, hws, rfl⟩ := mem_kstar_separated_iff.1 hmore
    exact ⟨w, v, ws, rfl, List.forall_mem_cons.2 ⟨hw, List.forall_mem_cons.2 ⟨hv, hws⟩⟩⟩
  · rintro ⟨w, v, ws, rfl, hwords⟩
    rw [List.forall_mem_cons, List.forall_mem_cons] at hwords
    obtain ⟨hw, hv, hws⟩ := hwords
    have hfirst : ['.'] ++ v ∈ ({['.']} * number : Language Char) :=
      Language.append_mem_mul rfl hv
    have hmore : ws.flatMap (['.'] ++ ·) ∈ ({['.']} * number : Language Char)∗ :=
      mem_kstar_separated_iff.2 ⟨ws, hws, rfl⟩
    exact ⟨w, hw, _, Language.append_mem_mul hfirst hmore, rfl⟩

/-- The numbers of a numeric identifier are what its dots cut it into. -/
theorem isNumericOid_iff_mem_numericOid : isNumericOid cs = true ↔ cs ∈ numericOid := by
  have hparts : isNumericOid cs = true ↔ ∃ w v ws, cs.splitOn '.' = w :: v :: ws ∧
      ∀ u ∈ w :: v :: ws, u ∈ number := by
    simp only [isNumericOid, Bool.and_eq_true, decide_eq_true_eq, List.all_eq_true,
      isArc_iff_mem_number]
    match cs.splitOn '.' with
    | [] | [w] => simp
    | w :: v :: ws => simp
  have hdot : ∀ {u}, u ∈ number → '.' ∉ u := fun hu => not_mem_of_mem_number hu rfl
  rw [hparts, mem_numericOid_iff]
  refine exists_congr fun w => exists_congr fun v => exists_congr fun ws =>
    and_congr_left fun hwords => ?_
  rw [List.forall_mem_cons] at hwords
  exact splitOn_eq_cons_iff (hdot hwords.1) fun u hu => hdot (hwords.2 u hu)

/-! ### Descriptions -/

theorem semicolon_not_mem_of_mem_option (h : cs ∈ option) : ';' ∉ cs := by
  rw [option, keyChar_eq] at h
  exact not_mem_of_mem_chars_mul_kstar h (by decide) (by decide)

theorem semicolon_not_mem_of_mem_descriptor (h : cs ∈ descriptor) : ';' ∉ cs := by
  rw [descriptor, alpha_eq, keyChar_eq] at h
  exact not_mem_of_mem_chars_mul_kstar h (by decide) (by decide)

theorem semicolon_not_mem_of_mem_numericOid (h : cs ∈ numericOid) : ';' ∉ cs := by
  obtain ⟨w, v, ws, rfl, hwords⟩ := mem_numericOid_iff.1 h
  rw [List.forall_mem_cons] at hwords
  intro hmem
  rcases List.mem_append.1 hmem with hmem | hmem
  · exact not_mem_of_mem_number hwords.1 rfl hmem
  · obtain ⟨u, hu, hmem⟩ := List.mem_flatMap.1 hmem
    rcases List.mem_cons.1 hmem with hdot | hmem
    · exact absurd hdot (by decide)
    · exact not_mem_of_mem_number (hwords.2 u hu) rfl hmem

theorem mem_description_iff :
    cs ∈ description ↔ ∃ (w : List Char) (ws : List (List Char)),
      cs = w ++ ws.flatMap ([';'] ++ ·) ∧ (w ∈ descriptor ∨ w ∈ numericOid) ∧
        ∀ v ∈ ws, v ∈ option := by
  rw [description, Language.mem_mul]
  constructor
  · rintro ⟨w, hw, _, hmore, rfl⟩
    obtain ⟨ws, hws, rfl⟩ := mem_kstar_separated_iff.1 hmore
    exact ⟨w, ws, rfl, hw, hws⟩
  · rintro ⟨w, ws, rfl, hw, hws⟩
    exact ⟨w, hw, _, mem_kstar_separated_iff.2 ⟨ws, hws, rfl⟩, rfl⟩

end

/-- The attribute descriptions are the words that the grammar derives. -/
theorem isDescription_iff_mem_description (s : String) :
    isDescription s = true ↔ s.toList ∈ description := by
  have hparts : isDescription s = true ↔ ∃ w ws, s.toList.splitOn ';' = w :: ws ∧
      (w ∈ descriptor ∨ w ∈ numericOid) ∧ ∀ v ∈ ws, v ∈ option := by
    rw [isDescription]
    cases s.toList.splitOn ';' with
    | nil => simp
    | cons w ws =>
      simp [isDescriptor_iff_mem_descriptor, isNumericOid_iff_mem_numericOid,
        isOption_iff_mem_option]
  rw [hparts, mem_description_iff]
  refine exists_congr fun w => exists_congr fun ws => and_congr_left fun ⟨hw, hws⟩ => ?_
  refine splitOn_eq_cons_iff ?_ fun v hv => semicolon_not_mem_of_mem_option (hws v hv)
  exact hw.elim semicolon_not_mem_of_mem_descriptor semicolon_not_mem_of_mem_numericOid

example : isDescription "2.5.4.3;lang-en;binary" = true ∧ isDescription "2.05" = false ∧
    isDescription "cn;" = false := by
  decide

end LdapFilter.Attribute
