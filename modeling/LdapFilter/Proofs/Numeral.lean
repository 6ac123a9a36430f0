import LdapFilter.Text.Blank
import LdapFilter.Text.Decimal
import Mathlib.Data.List.Basic
import Mathlib.Tactic.Ring

/-!
# Numerals

A run of digits denotes a number by the places of its digits. A numeral is such a run after an
optional sign, and a text denotes a number when it is a numeral of it with blanks around. A number
has one canonical numeral, without a plus sign and without leading zeros.

Main statements: what is read of a text is what the text denotes (`toInt?_trim_eq_some_iff`), and
numbers are written as their canonical numerals (`isCanonical_ofInt`).
-/

namespace LdapFilter.Text

/-! ### Blanks -/

section

variable {before word after : List Char}

/-- Only blanks are trimmed. -/
theorem exists_eq_append_trim (cs : List Char) :
    ∃ before after, cs = before ++ trim cs ++ after ∧ (∀ c ∈ before, isBlank c = true) ∧
      ∀ c ∈ after, isBlank c = true := by
  have hblank : ∀ ds : List Char, ∀ c ∈ ds.takeWhile isBlank, isBlank c = true :=
    fun ds c hc => List.all_eq_true.1 List.all_takeWhile c hc
  refine ⟨cs.takeWhile isBlank, ((cs.dropWhile isBlank).reverse.takeWhile isBlank).reverse, ?_,
    hblank cs, fun c hc => hblank _ c (List.mem_reverse.1 hc)⟩
  rw [trim, List.append_assoc, ← List.reverse_append, List.takeWhile_append_dropWhile,
    List.reverse_reverse, List.takeWhile_append_dropWhile]

/-- A word without blanks is what is left of it when blanks around it are trimmed. -/
theorem trim_append (hbefore : ∀ c ∈ before, isBlank c = true)
    (hafter : ∀ c ∈ after, isBlank c = true) (hne : word ≠ [])
    (hword : ∀ c ∈ word, isBlank c = false) : trim (before ++ word ++ after) = word := by
  have hdrop : ∀ {ds rest : List Char}, ds ≠ [] → (∀ c ∈ ds, isBlank c = false) →
      (ds ++ rest).dropWhile isBlank = ds ++ rest := by
    intro ds rest hne hds
    cases ds with
    | nil => exact absurd rfl hne
    | cons c ds =>
      exact List.dropWhile_cons_of_neg (by simp [hds c List.mem_cons_self])
  have hreverse : ∀ c ∈ after.reverse, isBlank c = true :=
    fun c hc => hafter c (List.mem_reverse.1 hc)
  have hwordReverse : ∀ c ∈ word.reverse, isBlank c = false :=
    fun c hc => hword c (List.mem_reverse.1 hc)
  have hstop : (word.reverse ++ []).dropWhile isBlank = word.reverse ++ [] :=
    hdrop (List.reverse_ne_nil_iff.2 hne) hwordReverse
  rw [List.append_nil] at hstop
  rw [trim, List.append_assoc, List.dropWhile_append_of_pos hbefore, hdrop hne hword,
    List.reverse_append, List.dropWhile_append_of_pos hreverse, hstop, List.reverse_reverse]

end

namespace Decimal

/-! ### Numerals -/

/-- The number that digits denote: each of them counts for its place. -/
def placeValue : List Char → Nat
  | [] => 0
  | d :: ds => (d.toNat - '0'.toNat) * 10 ^ ds.length + placeValue ds

structure IsDigits (ds : List Char) : Prop where
  ne_nil : ds ≠ []
  isDigit : ∀ d ∈ ds, d.isDigit = true

/-- A numeral of a number: digits, with an optional sign in front of them. -/
inductive IsNumeral : List Char → Int → Prop
  | plain {ds : List Char} (h : IsDigits ds) : IsNumeral ds (placeValue ds)
  | plus {ds : List Char} (h : IsDigits ds) : IsNumeral ('+' :: ds) (placeValue ds)
  | minus {ds : List Char} (h : IsDigits ds) : IsNumeral ('-' :: ds) (-(placeValue ds : Int))

/-- A text denotes a number when it is a numeral of it, with blanks around it or without. -/
def Denotes (text : String) (n : Int) : Prop :=
  ∃ before numeral after, text.toList = before ++ numeral ++ after ∧ IsNumeral numeral n ∧
    (∀ c ∈ before, isBlank c = true) ∧ ∀ c ∈ after, isBlank c = true

/-- The numeral of a number that has no plus sign and no leading zeros. -/
inductive IsCanonical : List Char → Int → Prop
  | zero : IsCanonical ['0'] 0
  | positive {d : Char} {ds : List Char} (h : IsDigits (d :: ds)) (hd : d ≠ '0') :
      IsCanonical (d :: ds) (placeValue (d :: ds))
  | negative {d : Char} {ds : List Char} (h : IsDigits (d :: ds)) (hd : d ≠ '0') :
      IsCanonical ('-' :: d :: ds) (-(placeValue (d :: ds) : Int))

/-! ### Reading -/

variable {cs ds : List Char}

/-- Reading digits one after the other gives each its place. -/
theorem ofDigitChars_eq (ds : List Char) (n : Nat) :
    Nat.ofDigitChars 10 ds n = n * 10 ^ ds.length + placeValue ds := by
  induction ds generalizing n with
  | nil => simp [Nat.ofDigitChars, placeValue]
  | cons d ds ih =>
    rw [Nat.ofDigitChars_cons, ih, placeValue, List.length_cons]
    ring

theorem toNat?_eq_some_iff {n : Nat} : toNat? ds = some n ↔ IsDigits ds ∧ placeValue ds = n := by
  rw [toNat?, ofDigitChars_eq, Nat.zero_mul, Nat.zero_add]
  split
  · next h =>
    have hdigits : IsDigits ds := ⟨h.1, List.all_eq_true.1 h.2⟩
    simp [hdigits]
  · next h =>
    have hdigits : ¬ IsDigits ds := fun hds => h ⟨hds.ne_nil, List.all_eq_true.2 hds.isDigit⟩
    simp [hdigits]

theorem IsDigits.not_cons {c : Char} (hc : c.isDigit = false) : ¬ IsDigits (c :: ds) := by
  intro h
  rw [h.isDigit c List.mem_cons_self] at hc
  cases hc

/-- A plus sign makes no difference to digits. -/
theorem toNatPlus?_eq_some_iff {n : Nat} :
    toNatPlus? cs = some n ↔
      ∃ ds, (cs = ds ∨ cs = '+' :: ds) ∧ IsDigits ds ∧ placeValue ds = n := by
  unfold toNatPlus?
  split
  · next ds =>
    rw [toNat?_eq_some_iff]
    constructor
    · exact fun h => ⟨ds, Or.inr rfl, h⟩
    · rintro ⟨es, rfl | hes, h⟩
      · exact absurd h.1 (IsDigits.not_cons rfl)
      · cases hes
        exact h
  · next hplus =>
    rw [toNat?_eq_some_iff]
    constructor
    · exact fun h => ⟨cs, Or.inl rfl, h⟩
    · rintro ⟨es, rfl | hes, h⟩
      · exact h
      · exact absurd hes (hplus es)

theorem toInt?_cons_minus (ds : List Char) :
    toInt? ('-' :: ds) = (toNat? ds).map fun n : Nat => -(n : Int) := by
  rw [toInt?]
  cases toNat? ds <;> rfl

theorem toInt?_of_ne_cons_minus (h : ∀ ds, cs ≠ '-' :: ds) :
    toInt? cs = (toNatPlus? cs).map fun n : Nat => (n : Int) := by
  unfold toInt?
  split
  · next ds => exact absurd rfl (h ds)
  · cases toNatPlus? cs <;> rfl

/-- A whole number is read exactly off its numerals. -/
theorem toInt?_eq_some_iff {n : Int} : toInt? cs = some n ↔ IsNumeral cs n := by
  by_cases hminus : ∃ ds, cs = '-' :: ds
  · obtain ⟨ds, rfl⟩ := hminus
    rw [toInt?_cons_minus, Option.map_eq_some_iff]
    constructor
    · rintro ⟨m, hm, rfl⟩
      obtain ⟨hds, rfl⟩ := toNat?_eq_some_iff.1 hm
      exact .minus hds
    · intro h
      cases h with
      | plain h => exact absurd h (IsDigits.not_cons rfl)
      | minus h => exact ⟨_, toNat?_eq_some_iff.2 ⟨h, rfl⟩, rfl⟩
  · rw [not_exists] at hminus
    rw [toInt?_of_ne_cons_minus hminus, Option.map_eq_some_iff]
    constructor
    · rintro ⟨m, hm, rfl⟩
      obtain ⟨ds, rfl | rfl, hds, rfl⟩ := toNatPlus?_eq_some_iff.1 hm
      · exact .plain hds
      · exact .plus hds
    · intro h
      cases h with
      | plain h => exact ⟨_, toNatPlus?_eq_some_iff.2 ⟨_, Or.inl rfl, h, rfl⟩, rfl⟩
      | plus h => exact ⟨_, toNatPlus?_eq_some_iff.2 ⟨_, Or.inr rfl, h, rfl⟩, rfl⟩
      | @minus ds h => exact absurd rfl (hminus ds)

theorem isBlank_eq_false_of_isDigit {c : Char} (h : c.isDigit = true) : isBlank c = false := by
  have hcode : 48 ≤ c.toNat ∧ c.toNat ≤ 57 := Char.isDigit_iff_toNat.1 h
  simp only [isBlank, blankRanges, List.any_cons, List.any_nil, Bool.or_false, Bool.or_eq_false_iff,
    Bool.and_eq_false_iff, decide_eq_false_iff_not]
  omega

/-- There are no blanks in a numeral. -/
theorem IsNumeral.isBlank_eq_false {n : Int} (h : IsNumeral cs n) :
    cs ≠ [] ∧ ∀ c ∈ cs, isBlank c = false := by
  have hdigits : ∀ {ds}, IsDigits ds → ∀ c ∈ ds, isBlank c = false :=
    fun hds c hc => isBlank_eq_false_of_isDigit (hds.isDigit c hc)
  cases h with
  | plain h => exact ⟨h.ne_nil, hdigits h⟩
  | plus h => exact ⟨List.cons_ne_nil _ _, List.forall_mem_cons.2 ⟨rfl, hdigits h⟩⟩
  | minus h => exact ⟨List.cons_ne_nil _ _, List.forall_mem_cons.2 ⟨rfl, hdigits h⟩⟩

/-- What is read of a text without the blanks around it is what the text denotes. -/
theorem toInt?_trim_eq_some_iff {text : String} {n : Int} :
    toInt? (trim text.toList) = some n ↔ Denotes text n := by
  rw [toInt?_eq_some_iff]
  constructor
  · intro h
    obtain ⟨before, after, htext, hbefore, hafter⟩ := exists_eq_append_trim text.toList
    exact ⟨before, trim text.toList, after, htext, h, hbefore, hafter⟩
  · rintro ⟨before, numeral, after, htext, h, hbefore, hafter⟩
    rwa [htext, trim_append hbefore hafter h.isBlank_eq_false.1 h.isBlank_eq_false.2]

/-! ### Writing -/

/-- A number is written without leading zeros. -/
theorem head?_ofNat_ne {n : Nat} (h : 0 < n) : (ofNat n).head? ≠ some '0' := by
  induction n using Nat.strongRecOn with
  | ind n ih =>
    rw [ofNat, Nat.toDigits_eq_if (by decide)]
    split
    · next hlt =>
      have hdigit : ∀ n < 10, 0 < n → [n.digitChar].head? ≠ some '0' := by decide
      exact hdigit n hlt h
    · next hge =>
      have hne : Nat.toDigits 10 (n / 10) ≠ [] := Nat.toDigits_ne_nil
      rw [List.head?_append_of_ne_nil _ hne]
      exact ih (n / 10) (by omega) (by omega)

/-- The digits of a positive number start with no zero, and denote the number. -/
theorem exists_ofNat_eq_cons {n : Nat} (h : 0 < n) :
    ∃ d ds, ofNat n = d :: ds ∧ IsDigits (d :: ds) ∧ d ≠ '0' ∧ placeValue (d :: ds) = n := by
  obtain ⟨hdigits, hvalue⟩ := toNat?_eq_some_iff.1 (toNat?_ofNat n)
  obtain ⟨d, ds, hcons, -⟩ := ofNat_eq_cons n
  have hhead := head?_ofNat_ne h
  rw [hcons] at hdigits hvalue hhead
  exact ⟨d, ds, hcons, hdigits, fun hd => hhead (congrArg some hd), hvalue⟩

/-- A whole number is written as its canonical numeral. -/
theorem isCanonical_ofInt (n : Int) : IsCanonical (ofInt n) n := by
  match n with
  | .ofNat 0 => exact .zero
  | .ofNat (n + 1) =>
    obtain ⟨d, ds, hcons, hdigits, hd, hvalue⟩ := exists_ofNat_eq_cons (Nat.succ_pos n)
    have hcanonical := IsCanonical.positive hdigits hd
    rwa [hvalue, ← hcons] at hcanonical
  | .negSucc n =>
    obtain ⟨d, ds, hcons, hdigits, hd, hvalue⟩ := exists_ofNat_eq_cons (Nat.succ_pos n)
    have hcanonical := IsCanonical.negative hdigits hd
    rwa [hvalue, ← hcons] at hcanonical

end Decimal

end LdapFilter.Text
