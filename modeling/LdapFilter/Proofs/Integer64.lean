import LdapFilter.Integer64
import LdapFilter.Proofs.Numeral
import Mathlib.Algebra.Order.Ring.Int

/-!
# The integers that documents give

A part of a document gives a 64-bit integer when it is the integer, or a double that equals it and
is small enough to be exact, or a text that denotes it. What the parts of documents are converted to
is what they give (`ofJson?_eq_some_iff`).
-/

namespace LdapFilter

open Text

/-! ### Whole numbers among the doubles -/

namespace Json.Binary64

/-- `± mantissa * 2 ^ exponent` equals a whole number; the power of two stands on the side where it
has no negative exponent. -/
def IsWhole (x : Binary64) (n : Int) : Prop :=
  (if x.negative then -(x.mantissa : Int) else x.mantissa) * 2 ^ x.exponent.toNat =
    n * 2 ^ (-x.exponent).toNat

theorem magnitude?_eq_some_iff {x : Binary64} {k : Nat} :
    x.magnitude? = some k ↔
      x.mantissa * 2 ^ x.exponent.toNat = k * 2 ^ (-x.exponent).toNat := by
  have hunit : Nat.pow 2 (-x.exponent).toNat = 2 ^ (-x.exponent).toNat := rfl
  have hpower : Nat.pow 2 x.exponent.toNat = 2 ^ x.exponent.toNat := rfl
  rw [magnitude?, hunit, hpower]
  rcases Int.le_total 0 x.exponent with hexponent | hexponent
  · have hzero : (-x.exponent).toNat = 0 := by omega
    simp [hzero, Nat.mod_one]
  · have hzero : x.exponent.toNat = 0 := by omega
    have hpos : 0 < 2 ^ (-x.exponent).toNat := Nat.two_pow_pos _
    simp only [hzero, Nat.pow_zero, Nat.mul_one, Option.ite_none_right_eq_some, Option.some.injEq]
    constructor
    · rintro ⟨hmod, rfl⟩
      exact (Nat.div_mul_cancel (Nat.dvd_of_mod_eq_zero hmod)).symm
    · intro h
      rw [h]
      exact ⟨Nat.mul_mod_left _ _, Nat.mul_div_cancel _ hpos⟩

/-- A double is read as the whole number that it equals. -/
theorem toInt?_eq_some_iff {x : Binary64} {n : Int} : x.toInt? = some n ↔ x.IsWhole n := by
  have hpos : (0 : Int) < 2 ^ (-x.exponent).toNat := Int.pow_pos (by decide)
  have hsize : 0 ≤ (x.mantissa : Int) * 2 ^ x.exponent.toNat :=
    Int.mul_nonneg (Int.natCast_nonneg _) (Int.pow_nonneg (by decide))
  have hmagnitude : ∀ k : Nat, x.magnitude? = some k ↔
      (x.mantissa : Int) * 2 ^ x.exponent.toNat = (k : Int) * 2 ^ (-x.exponent).toNat := by
    intro k
    rw [magnitude?_eq_some_iff]
    norm_cast
  rw [toInt?, Option.map_eq_some_iff, IsWhole]
  cases x.negative with
  | false =>
    simp only [Bool.false_eq_true, if_false]
    constructor
    · rintro ⟨k, hk, rfl⟩
      exact (hmagnitude k).1 hk
    · intro h
      have hn : 0 ≤ n := nonneg_of_mul_nonneg_left (h ▸ hsize) hpos
      obtain ⟨k, rfl⟩ := Int.eq_ofNat_of_zero_le hn
      exact ⟨k, (hmagnitude k).2 h, rfl⟩
  | true =>
    simp only [if_true, Int.neg_mul]
    constructor
    · rintro ⟨k, hk, rfl⟩
      rw [(hmagnitude k).1 hk, Int.neg_mul]
    · intro h
      have hflip : (x.mantissa : Int) * 2 ^ x.exponent.toNat = -n * 2 ^ (-x.exponent).toNat := by
        rw [Int.neg_mul, ← h, Int.neg_neg]
      have hn : 0 ≤ -n := nonneg_of_mul_nonneg_left (hflip ▸ hsize) hpos
      obtain ⟨k, hk⟩ := Int.eq_ofNat_of_zero_le hn
      exact ⟨k, (hmagnitude k).2 (hk ▸ hflip), by omega⟩

end Json.Binary64

namespace Integer64

/-! ### Integers of 64 bits -/

theorem ofInt?_eq_some_iff {n : Int} {m : Int64} : ofInt? n = some m ↔ m.toInt = n := by
  constructor
  · exact toInt_of_ofInt?_eq_some
  · rintro rfl
    exact ofInt?_toInt m

/-- The numbers in range are those of the integers. -/
theorem exists_toInt_eq_iff {n : Int} :
    (∃ m : Int64, m.toInt = n) ↔ -2 ^ 63 ≤ n ∧ n ≤ 2 ^ 63 - 1 := by
  constructor
  · rintro ⟨m, rfl⟩
    exact ⟨m.le_toInt, Int.le_sub_one_of_lt m.toInt_lt⟩
  · rintro ⟨hmin, hmax⟩
    exact ⟨Int64.ofInt n, Int64.toInt_ofInt_of_le hmin (Int.lt_of_le_sub_one hmax)⟩

/-! ### Texts -/

/-- A text denotes an integer of 64 bits. -/
def Denotes (text : String) (n : Int) : Prop :=
  Decimal.Denotes text n ∧ -2 ^ 63 ≤ n ∧ n ≤ 2 ^ 63 - 1

/-- A text gives the integer that it denotes. -/
theorem ofText?_eq_some_iff {text : String} {m : Int64} :
    ofText? text = some m ↔ Denotes text m.toInt := by
  have hrange := exists_toInt_eq_iff.1 ⟨m, rfl⟩
  simp only [ofText?, Option.bind_eq_some_iff, Decimal.toInt?_trim_eq_some_iff, ofInt?_eq_some_iff,
    exists_eq_right', Denotes, hrange, and_true]

/-! ### Parts of documents -/

/-- A part of a document gives an integer of 64 bits. A double that is larger than `2 ^ 53` may
stand for a whole number other than the one that was written, and gives none. -/
inductive Gives : Json → Int → Prop
  | integer {n : Int} (hmin : -2 ^ 63 ≤ n) (hmax : n ≤ 2 ^ 63 - 1) :
      Gives (.number (.integer n)) n
  | real {x : Json.Binary64} {n : Int} (h : x.IsWhole n) (hsize : n.natAbs ≤ 2 ^ 53) :
      Gives (.number (.real x)) n
  | text {s : String} {n : Int} (h : Denotes s n) : Gives (.string s) n

theorem Gives.range {j : Json} {n : Int} (h : Gives j n) : -2 ^ 63 ≤ n ∧ n ≤ 2 ^ 63 - 1 := by
  cases h with
  | integer hmin hmax => exact ⟨hmin, hmax⟩
  | real _ hsize => omega
  | text h => exact h.2

theorem ofNumber?_eq_some_iff {n : Json.Number} {m : Int64} :
    ofNumber? n = some m ↔ Gives (.number n) m.toInt := by
  have hrange := exists_toInt_eq_iff.1 ⟨m, rfl⟩
  cases n with
  | integer n =>
    rw [ofNumber?, ofInt?_eq_some_iff]
    constructor
    · rintro rfl
      exact .integer hrange.1 hrange.2
    · intro h
      cases h
      rfl
  | real x =>
    simp only [ofNumber?, Option.bind_eq_some_iff, Option.filter_eq_some_iff, ofInt?_eq_some_iff,
      Json.Binary64.toInt?_eq_some_iff, decide_eq_true_eq]
    constructor
    · rintro ⟨n, ⟨hwhole, hsize⟩, rfl⟩
      exact .real hwhole hsize
    · intro h
      cases h with
      | real hwhole hsize => exact ⟨_, ⟨hwhole, hsize⟩, rfl⟩

/-- What a part of a document is converted to is the integer that it gives. -/
theorem ofJson?_eq_some_iff {j : Json} {m : Int64} : ofJson? j = some m ↔ Gives j m.toInt := by
  cases j with
  | number n => exact ofNumber?_eq_some_iff
  | string s =>
    rw [ofJson?, ofText?_eq_some_iff]
    constructor
    · exact .text
    · intro h
      cases h with
      | text h => exact h
  | null | bool _ | array _ | object _ => exact ⟨nofun, nofun⟩

/-- An integer of 64 bits gives itself. -/
theorem gives_toInt (m : Int64) : Gives (.number (.integer m.toInt)) m.toInt :=
  ofNumber?_eq_some_iff.1 (ofInt?_toInt m)

/-- What a part of a document gives is some integer. -/
theorem Gives.exists_toInt_eq {j : Json} {n : Int} (h : Gives j n) :
    ∃ m : Int64, m.toInt = n ∧ ofJson? j = some m := by
  obtain ⟨m, rfl⟩ := exists_toInt_eq_iff.2 h.range
  exact ⟨m, rfl, ofJson?_eq_some_iff.2 h⟩

/-- A part of a document gives no two integers. -/
theorem Gives.unique {j : Json} {n n' : Int} (h : Gives j n) (h' : Gives j n') : n = n' := by
  obtain ⟨m, rfl, hm⟩ := h.exists_toInt_eq
  obtain ⟨m', rfl, hm'⟩ := h'.exists_toInt_eq
  rw [Option.some.inj (hm.symm.trans hm')]

theorem exists_gives_iff {j : Json} {P : Int → Prop} :
    (∃ n, Gives j n ∧ P n) ↔ ∃ m ∈ ofJson? j, P m.toInt := by
  constructor
  · rintro ⟨n, h, hn⟩
    obtain ⟨m, rfl, hm⟩ := h.exists_toInt_eq
    exact ⟨m, hm, hn⟩
  · rintro ⟨m, hm, hn⟩
    exact ⟨m.toInt, ofJson?_eq_some_iff.1 hm, hn⟩

instance {j : Json} {P : Int → Prop} [DecidablePred P] : Decidable (∃ n, Gives j n ∧ P n) :=
  decidable_of_iff' _ exists_gives_iff

end Integer64

end LdapFilter
