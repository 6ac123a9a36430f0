/-!
# Decimal text

Whole numbers written in decimal, read back, and measured without being written.

Main statements: reading undoes writing (`toNat?_ofNat`, `toInt?_ofInt`), and a number is as long
as it is measured (`length_ofInt`).
-/

namespace LdapFilter.Text.Decimal

/-! ### Writing -/

/-- The digits of a natural number, without leading zeros. -/
def ofNat (n : Nat) : List Char :=
  Nat.toDigits 10 n

/-- The digits of a whole number, after a minus sign when it is negative. -/
def ofInt : Int → List Char
  | .ofNat n => ofNat n
  | .negSucc n => '-' :: ofNat (n + 1)

def text (n : Int) : String :=
  String.ofList (ofInt n)

/-! ### Reading -/

/-- The natural number that a non-empty run of ASCII digits denotes; leading zeros are fine. -/
def toNat? (cs : List Char) : Option Nat :=
  if cs ≠ [] ∧ cs.all Char.isDigit then some (Nat.ofDigitChars 10 cs 0) else none

def toNatPlus? : List Char → Option Nat
  | '+' :: cs => toNat? cs
  | cs => toNat? cs

/-- A whole number: an optional sign and a non-empty run of ASCII digits. -/
def toInt? : List Char → Option Int
  | '-' :: cs => (toNat? cs).map fun n => -(n : Int)
  | cs => (toNatPlus? cs).map fun n => (n : Int)

/-- Reading the digits of a number gives the number. -/
theorem toNat?_ofNat (n : Nat) : toNat? (ofNat n) = some n := by
  have hne : ofNat n ≠ [] := List.length_pos_iff.1 Nat.length_toDigits_pos
  have hall : (ofNat n).all Char.isDigit = true :=
    List.all_eq_true.2 fun _ hc => Nat.isDigit_of_mem_toDigits (by decide) (by decide) hc
  rw [toNat?, if_pos ⟨hne, hall⟩, ofNat, Nat.ofDigitChars_toDigits (by decide) (by decide)]

/-- A number's digits start with a digit. -/
theorem ofNat_eq_cons (n : Nat) : ∃ c cs, ofNat n = c :: cs ∧ c.isDigit = true := by
  cases h : ofNat n with
  | nil => exact absurd h (List.length_pos_iff.1 Nat.length_toDigits_pos)
  | cons c cs =>
    have hc : c ∈ ofNat n := h ▸ List.mem_cons_self
    exact ⟨c, cs, rfl, Nat.isDigit_of_mem_toDigits (by decide) (by decide) hc⟩

/-- Digits carry no sign, so reading them as a whole number reads them as a natural one. -/
theorem toInt?_ofNat (n : Nat) : toInt? (ofNat n) = some (n : Int) := by
  obtain ⟨c, cs, h, hc⟩ := ofNat_eq_cons n
  have hread := toNat?_ofNat n
  have hminus : c ≠ '-' := fun e => by simp [e] at hc
  have hplus : c ≠ '+' := fun e => by simp [e] at hc
  rw [h] at hread ⊢
  rw [toInt?, toNatPlus?, hread]
  · rfl
  · intro cs' e; exact hplus (List.cons.inj e).1
  · intro cs' e; exact hminus (List.cons.inj e).1

/-- Reading the text of a whole number gives the number. -/
theorem toInt?_ofInt (n : Int) : toInt? (ofInt n) = some n := by
  cases n with
  | ofNat n => exact toInt?_ofNat n
  | negSucc n =>
    simp only [ofInt, toInt?, toNat?_ofNat]
    rfl

/-- Decimal text is ASCII. -/
theorem toNat_lt_of_mem_ofInt {n : Int} {c : Char} (h : c ∈ ofInt n) : c.toNat < 128 := by
  have hdigit : ∀ {m : Nat}, c ∈ ofNat m → c.toNat < 128 := by
    intro m hc
    have hc := Nat.isDigit_of_mem_toDigits (by decide) (by decide) hc
    exact Nat.lt_of_le_of_lt (Char.isDigit_iff_toNat.1 hc).2 (by decide)
  cases n with
  | ofNat m => exact hdigit h
  | negSucc m =>
    rcases List.mem_cons.1 h with rfl | hc
    · decide
    · exact hdigit hc

/-! ### Measuring -/

def digitCount (n : Nat) : Nat :=
  if n < 10 then 1 else digitCount (n / 10) + 1
termination_by n

/-- How many characters a whole number is written with. -/
def width : Int → Nat
  | .ofNat n => digitCount n
  | .negSucc n => digitCount (n + 1) + 1

/-- The digits of a number are as many as `digitCount` says. -/
theorem length_ofNat (n : Nat) : (ofNat n).length = digitCount n := by
  fun_induction digitCount n with
  | case1 n h => simp [ofNat, Nat.toDigits_of_lt_base h]
  | case2 n h ih =>
    have hpos : 0 < n / 10 := by omega
    have hsplit : 10 * (n / 10) + n % 10 = n := by omega
    have happ : ofNat (n / 10) ++ ofNat (n % 10) = ofNat (10 * (n / 10) + n % 10) :=
      Nat.toDigits_append_toDigits (by decide) hpos (by omega)
    have hlast : ofNat (n % 10) = [(n % 10).digitChar] := Nat.toDigits_of_lt_base (by omega)
    rw [hsplit] at happ
    rw [← happ, List.length_append, ih, hlast, List.length_singleton]

/-- The text of a whole number is as long as `width` says. -/
theorem length_ofInt (n : Int) : (ofInt n).length = width n := by
  cases n <;> simp [ofInt, width, length_ofNat]

end LdapFilter.Text.Decimal
