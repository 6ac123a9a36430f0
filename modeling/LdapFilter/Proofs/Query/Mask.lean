import LdapFilter.Proofs.Filter.Size
import LdapFilter.Proofs.Integer64
import LdapFilter.Proofs.Query.Denotes
import LdapFilter.Query.WriteBack

/-!
# Masks given as text

The mask of a test of bits may be given as a number or as text. A text gives the 64-bit integer that
it denotes, and none when it denotes no number or one that is out of range. The test is then that of
the number, however the text spells it (`compile_maskDocument_text`).
-/

namespace LdapFilter

open Text

/-! ### Tests of bits -/

namespace Query

/-- A document that asks for a test of bits in its first pair. -/
def maskDocument (key attr : String) (operand : Json) (rest : List (String × Json)) : Json :=
  .object ((key, Json.single attr operand) :: rest)

section

variable {rule : BitRule} {key attr : String}

theorem bitwise_single (hattr : attr ≠ "") (operand : Json) :
    bitwise {} rule (Json.single attr operand) =
      match Integer64.ofJson? operand with
      | some mask => .ok (.bitwise rule attr mask)
      | none => .error (.malformedValue (bitOperand rule) attr) := by
  have hread : bitwise {} rule (Json.single attr operand) =
      match Integer64.ofJson? operand with
      | some mask => Test.ofMask rule attr mask
      | none => .error (.malformedValue (bitOperand rule) attr) := rfl
  rw [hread]
  cases Integer64.ofJson? operand with
  | none => rfl
  | some mask => exact Test.ofMask_eq_ok_iff.2 ⟨hattr, rfl⟩

/-- The first pair of such a document is the filter, and the mask decides what comes of it. -/
theorem compile_maskDocument (hkey : Keyword.ofKey? key = some (bitKeyword rule))
    (hattr : attr ≠ "") (operand : Json) (rest : List (String × Json)) :
    compile {} (maskDocument key attr operand rest) =
      match Integer64.ofJson? operand with
      | some mask => .ok (.test (.bitwise rule attr mask))
      | none => .error (.malformedValue (bitOperand rule) attr) := by
  have hcount : countPair {} 0 = .ok 1 := rfl
  have hpair : pair {} 0 0 key (Json.single attr operand) =
      (fun t => (.test t, 1)) <$> bitwise {} rule (Json.single attr operand) := by
    cases rule <;> simp only [pair, hkey, bitKeyword, hcount] <;> rfl
  rw [maskDocument, compile, hpair, bitwise_single hattr]
  cases Integer64.ofJson? operand <;> rfl

variable {text : String}

/-- The mask is the integer that the text denotes. -/
theorem compile_maskDocument_of_denotes (hkey : Keyword.ofKey? key = some (bitKeyword rule))
    (hattr : attr ≠ "") {n : Int} (h : Integer64.Denotes text n) (rest : List (String × Json)) :
    ∃ mask : Int64, mask.toInt = n ∧
      compile {} (maskDocument key attr (.string text) rest) =
        .ok (.test (.bitwise rule attr mask)) := by
  obtain ⟨mask, hmask, hread⟩ := (Integer64.Gives.text h).exists_toInt_eq
  exact ⟨mask, hmask, by rw [compile_maskDocument hkey hattr, hread]⟩

/-- A text that denotes no integer is malformed. -/
theorem compile_maskDocument_of_not_denotes (hkey : Keyword.ofKey? key = some (bitKeyword rule))
    (hattr : attr ≠ "") (h : ¬ ∃ n, Integer64.Denotes text n) (rest : List (String × Json)) :
    compile {} (maskDocument key attr (.string text) rest) =
      .error (.malformedValue (bitOperand rule) attr) := by
  have hread : Integer64.ofJson? (.string text) = none := by
    refine Option.eq_none_iff_forall_ne_some.2 fun mask hmask => ?_
    exact h ⟨_, Integer64.ofText?_eq_some_iff.1 hmask⟩
  rw [compile_maskDocument hkey hattr, hread]

end

/-- Text gives a mask exactly when it denotes an integer of 64 bits: digits after an optional sign,
with blanks around. The test is then that of the integer, and is written with its canonical numeral
and written back with the integer itself. Any other text is malformed. -/
theorem compile_maskDocument_text (rule : BitRule) (key attr text : String)
    (rest : List (String × Json)) (hkey : Keyword.ofKey? key = some (bitKeyword rule))
    (hattr : attr ≠ "") :
    ((∃ f, compile {} (maskDocument key attr (.string text) rest) = .ok f) ↔
      ∃ n, Integer64.Denotes text n) ∧
    (∀ n, Integer64.Denotes text n →
      ∃ f, compile {} (maskDocument key attr (.string text) rest) = .ok f ∧
        compile {} (maskDocument key attr (.number (.integer n)) rest) = .ok f ∧
        (∃ mask : Int64, f = .test (.bitwise rule attr mask) ∧ mask.toInt = n) ∧
        (∃ numeral, Decimal.IsCanonical numeral n ∧
          f.render = "(" ++ (attr ++ ":" ++ rule.matchingRule.oid ++ ":") ++ "=" ++
            String.ofList numeral ++ ")") ∧
        f.size = f.render.utf8ByteSize ∧
        f.toJson = .ok (Json.single (bitKeyword rule).name
          (Json.single attr (.number (.integer n))))) ∧
    ((¬ ∃ n, Integer64.Denotes text n) →
      compile {} (maskDocument key attr (.string text) rest) =
        .error (.malformedValue (bitOperand rule) attr)) := by
  have hmalformed : (¬ ∃ n, Integer64.Denotes text n) →
      compile {} (maskDocument key attr (.string text) rest) =
        .error (.malformedValue (bitOperand rule) attr) :=
    fun hnone => compile_maskDocument_of_not_denotes hkey hattr hnone rest
  refine ⟨⟨?_, ?_⟩, ?_, hmalformed⟩
  · rintro ⟨f, hf⟩
    by_contra hnone
    cases (hmalformed hnone).symm.trans hf
  · rintro ⟨n, hn⟩
    obtain ⟨mask, -, hf⟩ := compile_maskDocument_of_denotes hkey hattr hn rest
    exact ⟨_, hf⟩
  · intro n hn
    obtain ⟨mask, rfl, hf⟩ := compile_maskDocument_of_denotes hkey hattr hn rest
    have hnumber : compile {} (maskDocument key attr (.number (.integer mask.toInt)) rest) =
        .ok (.test (.bitwise rule attr mask)) := by
      have hmask : Integer64.ofJson? (.number (.integer mask.toInt)) = some mask :=
        Integer64.ofInt?_toInt mask
      rw [compile_maskDocument hkey hattr, hmask]
    have hbytes := Test.utf8ByteSize_render (.bitwise rule attr mask)
    have hwritten : (Filter.test (.bitwise rule attr mask)).toJson =
        .ok (Json.single (bitKeyword rule).name
          (Json.single attr (.number (.integer mask.toInt)))) := by
      rw [Filter.toJson, Filter.toPair, Test.toPair_bitwise]
      rfl
    exact ⟨_, hf, hnumber, ⟨mask, rfl, rfl⟩, ⟨_, Decimal.isCanonical_ofInt mask.toInt, rfl⟩,
      hbytes.symm, hwritten⟩

/-- The smallest mask may be given as text with blanks and zeros, and its positive counterpart is
out of range. -/
theorem compile_maskDocument_text_of_smallest :
    Keyword.ofKey? "bOr" = some .bor ∧ "OR" ≠ "" ∧
    Integer64.Denotes "\u2003-009223372036854775808\n" Int64.minValue.toInt ∧
    compile {} (maskDocument "bOr" "OR" (.string "\u2003-009223372036854775808\n")
        [("cn", .null)]) =
      .ok (.test (.bitwise .any "OR" Int64.minValue)) ∧
    (¬ ∃ n, Integer64.Denotes "9223372036854775808" n) ∧
    compile {} (maskDocument "bOr" "OR" (.string "9223372036854775808") []) =
      .error (.malformedValue .someBits "OR") := by
  have hkey : Keyword.ofKey? "bOr" = some .bor := by decide
  have hattr : "OR" ≠ "" := by decide
  have hsmallest : Integer64.Denotes "\u2003-009223372036854775808\n" Int64.minValue.toInt :=
    Integer64.ofText?_eq_some_iff.1 (by decide)
  have hlarge : ¬ ∃ n, Integer64.Denotes "9223372036854775808" n := by
    rintro ⟨n, hn⟩
    obtain ⟨m, -, hread⟩ := (Integer64.Gives.text hn).exists_toInt_eq
    have hnone : Integer64.ofJson? (.string "9223372036854775808") = none := by decide
    cases hnone.symm.trans hread
  obtain ⟨f, hf, -, ⟨mask, rfl, hmask⟩, -⟩ :=
    (compile_maskDocument_text .any "bOr" "OR" "\u2003-009223372036854775808\n" [("cn", .null)] hkey
      hattr).2.1 _ hsmallest
  have hmalformed := (compile_maskDocument_text .any "bOr" "OR" "9223372036854775808" [] hkey
    hattr).2.2 hlarge
  rw [Int64.toInt_inj.1 hmask] at hf
  exact ⟨hkey, hattr, hsmallest, hf, hlarge, hmalformed⟩

end Query

end LdapFilter
