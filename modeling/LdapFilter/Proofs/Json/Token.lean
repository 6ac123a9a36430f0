import LdapFilter.Json.Printer
import LdapFilter.Proofs.Numeral
import Mathlib.Data.List.Chain

/-!
# Tokens read back

Text between quotes is read back as it was written, and so is an integer in decimal. Hence every
token is read back off its spelling, unless it is a double, or a number that what follows runs on
into. A text that displays tokens, with any space in front of each, is read back token by token
(`Displays.reads`).
-/

namespace LdapFilter.Json

open Text

/-! ### Quoted text -/

namespace Quoted

/-- An escape of two characters is read as the character that it was written for. -/
theorem escaped?_of_find? {c letter d : Char} (cs : List Char)
    (h : shortEscapes.find? (fun e => e.2 = c ∧ c ≠ '/') = some (letter, d)) :
    escaped? (letter :: cs) = some (c, cs) := by
  have hmem := List.mem_of_find?_eq_some h
  have hc := List.find?_some h
  simp only [decide_eq_true_eq] at hc
  obtain ⟨rfl, -⟩ := hc
  have hlookup : ∀ e ∈ shortEscapes, e.1 ≠ 'u' ∧ shortEscapes.lookup e.1 = some e.2 := by
    decide
  obtain ⟨hletter, hlookup⟩ := hlookup _ hmem
  rw [escaped?, if_neg hletter, hlookup]
  rfl

/-- A control character is read back off its escape by number. -/
theorem escaped?_of_isControl {c : Char} (cs : List Char) (h : isControl c = true) :
    escaped? ('u' :: '0' :: '0' :: Nat.digitChar (c.toNat / 16) :: Nat.digitChar (c.toNat % 16)
      :: cs) = some (c, cs) := by
  have hlt : c.toNat < 0x20 := by simpa [isControl] using h
  have hunit : codeUnit? ('0' :: '0' :: Nat.digitChar (c.toNat / 16)
      :: Nat.digitChar (c.toNat % 16) :: cs) = some (c.toNat, cs) := by
    have hzero : Hexadecimal.value? '0' = some 0 := rfl
    have hhigh := Hexadecimal.value?_digitChar (n := c.toNat / 16) (by omega)
    have hlow := Hexadecimal.value?_digitChar (n := c.toNat % 16) (by omega)
    have hsplit : c.toNat / 16 * 16 + c.toNat % 16 = c.toNat := by omega
    simp [codeUnit?, hzero, hhigh, hlow, hsplit]
  have hsurrogate : isHighSurrogate c.toNat = false ∧ isLowSurrogate c.toNat = false := by
    simp only [isHighSurrogate, isLowSurrogate, Bool.and_eq_false_iff, decide_eq_false_iff_not]
    omega
  rw [escaped?, if_pos rfl, numbered?, hunit]
  simp [hsurrogate]

/-- Reading goes on with the character that an escape denotes. -/
theorem read?_backslash {c : Char} {cs after : List Char} (done : List Char)
    (h : escaped? cs = some (c, after)) : read? done ('\\' :: cs) = read? (c :: done) after := by
  rw [read?, if_neg (by decide), if_pos rfl]
  split
  · next hescaped =>
    cases h.symm.trans hescaped
    rfl
  · next hescaped => cases h.symm.trans hescaped

/-- A character is read back off its escape. -/
theorem read?_escape (c : Char) (done cs : List Char) :
    read? done (escape c ++ cs) = read? (c :: done) cs := by
  unfold escape
  split
  · next letter d hfind => exact read?_backslash done (escaped?_of_find? cs hfind)
  · next hfind =>
    split
    · next hcontrol => exact read?_backslash done (escaped?_of_isControl cs hcontrol)
    · next hcontrol =>
      -- Quote and backslash have escapes of two characters.
      have hquote : c ≠ '"' := by
        rintro rfl
        simp [shortEscapes] at hfind
      have hslash : c ≠ '\\' := by
        rintro rfl
        simp [shortEscapes] at hfind
      rw [List.singleton_append, read?]
      simp [hquote, hslash, hcontrol]

/-- Text between quotes is read back as it was written. -/
theorem read?_flatMap_escape (text done rest : List Char) :
    read? done (text.flatMap escape ++ '"' :: rest) = some (done.reverse ++ text, rest) := by
  induction text generalizing done with
  | nil =>
    rw [List.flatMap_nil, List.nil_append, read?]
    simp
  | cons c text ih =>
    rw [List.flatMap_cons, List.append_assoc, read?_escape, ih]
    simp

end Quoted

/-! ### Numbers -/

/-- The numbers that are read back as they were written: integers of 64 bits, signed or not. -/
def Number.IsInteger : Number → Prop
  | .integer n => Int64.minValue.toInt ≤ n ∧ n < UInt64.size
  | .real _ => False

namespace Token

/-- The characters that a number may go on with. -/
def goesOn (c : Char) : Bool :=
  c.isDigit || c = '.' || c = 'e' || c = 'E'

/-- Whether a text does not go on with a number that ends before it. -/
def IsApart (rest : List Char) : Prop :=
  ∀ c ∈ rest.head?, goesOn c = false

theorem isApart_nil : IsApart [] := by
  simp [IsApart]

theorem isApart_cons {c : Char} {cs : List Char} : IsApart (c :: cs) ↔ goesOn c = false := by
  simp [IsApart]

variable {rest : List Char}

/-- The digits that a text starts with are all that come before anything else. -/
theorem digits?_eq_some_iff {cs ds : List Char} :
    digits? cs = some (ds, rest) ↔
      cs = ds ++ rest ∧ Decimal.IsDigits ds ∧ ∀ c ∈ rest.head?, c.isDigit = false := by
  constructor
  · intro h
    rw [digits?] at h
    split at h
    · cases h
    · next hne =>
      cases h
      refine ⟨List.takeWhile_append_dropWhile.symm,
        ⟨hne, List.all_eq_true.1 List.all_takeWhile⟩, fun c hc => ?_⟩
      have hhead := List.head?_dropWhile_not Char.isDigit cs
      rw [Option.mem_def.1 hc] at hhead
      exact hhead
  · rintro ⟨rfl, hds, hrest⟩
    have hstop : rest.takeWhile Char.isDigit = [] ∧ rest.dropWhile Char.isDigit = rest := by
      cases rest with
      | nil => exact ⟨rfl, rfl⟩
      | cons c cs =>
        have hc : c.isDigit = false := hrest c rfl
        simp [hc]
    rw [digits?, List.takeWhile_append_of_pos hds.isDigit, List.dropWhile_append_of_pos hds.isDigit,
      hstop.1, hstop.2, List.append_nil]
    exact if_neg hds.ne_nil

theorem digits?_ofNat (h : IsApart rest) (n : Nat) :
    digits? (Decimal.ofNat n ++ rest) = some (Decimal.ofNat n, rest) := by
  have hds : Decimal.IsDigits (Decimal.ofNat n) :=
    (Decimal.toNat?_eq_some_iff.1 (Decimal.toNat?_ofNat n)).1
  refine digits?_eq_some_iff.2 ⟨rfl, hds, fun c hc => ?_⟩
  have hgoes := h c hc
  simp only [goesOn, Bool.or_eq_false_iff] at hgoes
  exact hgoes.1.1.1

theorem whole?_ofNat (h : IsApart rest) (n : Nat) :
    whole? (Decimal.ofNat n ++ rest) = some (Decimal.ofNat n, rest) := by
  rw [whole?, digits?_ofNat h, Option.filter_some]
  refine if_pos (decide_eq_true ?_)
  rcases Nat.eq_zero_or_pos n with rfl | hpos
  · exact Or.inl rfl
  · exact Or.inr (Decimal.head?_ofNat_ne hpos)

/-- Nothing but a sign and digits is read of a number that does not go on. -/
theorem number?_of_whole? {cs after ds : List Char} {negative : Bool} (h : IsApart rest)
    (hsign : sign cs = (negative, after)) (hwhole : whole? after = some (ds, rest)) :
    number? cs = (Number.ofLiteral? ⟨negative, ds, [], none⟩).map fun n => (n, rest) := by
  have hfraction : fraction? rest = some ([], rest) := by
    unfold fraction?
    split
    · simp [isApart_cons, goesOn] at h
    · rfl
  have hexponent : exponent? rest = some (none, rest) := by
    unfold exponent?
    split
    · simp [isApart_cons, goesOn] at h
    · simp [isApart_cons, goesOn] at h
    · rfl
  simp only [number?, hsign, hwhole, hfraction, hexponent, Option.bind_eq_bind, Option.bind_some]
  cases Number.ofLiteral? ⟨negative, ds, [], none⟩ <;> rfl

theorem sign_ofNat (n : Nat) :
    sign (Decimal.ofNat n ++ rest) = (false, Decimal.ofNat n ++ rest) := by
  obtain ⟨c, cs, hcons, hc⟩ := Decimal.ofNat_eq_cons n
  rw [hcons, List.cons_append]
  unfold sign
  split
  · next heq =>
    cases heq
    simp at hc
  · rfl

theorem ofDigitChars_ofNat (n : Nat) : Nat.ofDigitChars 10 (Decimal.ofNat n) 0 = n :=
  Nat.ofDigitChars_toDigits (by decide) (by decide)

theorem ofLiteral?_ofNat {n : Nat} (h : n < UInt64.size) :
    Number.ofLiteral? ⟨false, Decimal.ofNat n, [], none⟩ = some (.integer n) := by
  simp only [Number.ofLiteral?, ofDigitChars_ofNat]
  rw [if_pos ⟨by simp, by simp, h⟩]

theorem ofLiteral?_negative {n : Nat} (hpos : 0 < n) (h : Int64.minValue.toInt ≤ -(n : Int)) :
    Number.ofLiteral? ⟨true, Decimal.ofNat n, [], none⟩ = some (.integer (-(n : Int))) := by
  simp only [Number.ofLiteral?, ofDigitChars_ofNat]
  rw [if_neg (by simp), if_pos ⟨by simp, by simp, hpos, h⟩]

/-- An integer is read back off its decimal text. -/
theorem number?_numberText (h : IsApart rest) {n : Number} (hn : n.IsInteger) :
    number? (numberText n ++ rest) = some (n, rest) := by
  match n with
  | .integer (.ofNat n) =>
    have hlt : n < UInt64.size := Int.ofNat_lt.1 hn.2
    rw [numberText, Decimal.ofInt, number?_of_whole? h (sign_ofNat n) (whole?_ofNat h n),
      ofLiteral?_ofNat hlt]
    rfl
  | .integer (.negSucc n) =>
    have hsign : sign ('-' :: Decimal.ofNat (n + 1) ++ rest) =
        (true, Decimal.ofNat (n + 1) ++ rest) := rfl
    rw [numberText, Decimal.ofInt, number?_of_whole? h hsign (whole?_ofNat h (n + 1)),
      ofLiteral?_negative (Nat.succ_pos n) hn.1]
    rfl

/-! ### Tokens -/

/-- Whether a token is read back off its spelling. -/
def IsExact : Token → Prop
  | .number n => n.IsInteger
  | _ => True

def isNumber : Token → Bool
  | .number _ => true
  | _ => false

/-- What starts with a digit or a sign is read as a number. -/
theorem lexeme?_eq_number? {c : Char} {cs : List Char} (hc : c.isDigit = true ∨ c = '-') :
    lexeme? (c :: cs) = (number? (c :: cs)).map fun n => (.number n.1, n.2) := by
  unfold lexeme?
  split
  case h_1 heq => cases heq
  case h_12 => rfl
  all_goals
    next heq =>
    cases heq
    simp at hc

theorem exists_ofInt_eq_cons (n : Int) :
    ∃ c cs, Decimal.ofInt n = c :: cs ∧ (c.isDigit = true ∨ c = '-') := by
  cases n with
  | ofNat n =>
    obtain ⟨c, cs, hcons, hc⟩ := Decimal.ofNat_eq_cons n
    exact ⟨c, cs, hcons, Or.inl hc⟩
  | negSucc n => exact ⟨'-', Decimal.ofNat (n + 1), rfl, Or.inr rfl⟩

/-- A token is read back off its spelling, unless it is a number that the text goes on with. -/
theorem lexeme?_spell {t : Token} (ht : t.IsExact) (h : t.isNumber = true → IsApart rest) :
    lexeme? (t.spell ++ rest) = some (t, rest) := by
  match t with
  | .string s =>
    have hread := Quoted.read?_flatMap_escape s.toList [] rest
    have hspell : (Token.string s).spell ++ rest =
        '"' :: (s.toList.flatMap Quoted.escape ++ '"' :: rest) := by
      simp [spell, Quoted.write]
    rw [hspell, lexeme?, hread]
    simp
  | .number (.integer n) =>
    obtain ⟨c, cs, hcons, hc⟩ := exists_ofInt_eq_cons n
    have hspell : (Token.number (.integer n)).spell ++ rest = c :: (cs ++ rest) := by
      rw [spell, numberText, hcons, List.cons_append]
    have hread : number? (c :: (cs ++ rest)) = some (.integer n, rest) :=
      hspell ▸ number?_numberText (n := .integer n) (h rfl) ht
    rw [hspell, lexeme?_eq_number? hc, hread]
    rfl
  | .bool b => cases b <;> rfl
  | .openArray | .closeArray | .openObject | .closeObject | .colon | .comma | .null => rfl

theorem isSpace_iff {c : Char} :
    isSpace c = true ↔ c = ' ' ∨ c = '\t' ∨ c = '\n' ∨ c = '\r' := by
  simp [isSpace, or_assoc]

/-- What a token starts with is no space, and only a number starts with what a number may go on
with. -/
theorem exists_spell_eq_cons {t : Token} (ht : t.IsExact) :
    ∃ c cs, t.spell = c :: cs ∧ isSpace c = false ∧ (t.isNumber = false → goesOn c = false) := by
  match t with
  | .string s => exact ⟨_, _, rfl, by decide, fun _ => by decide⟩
  | .number (.integer n) =>
    obtain ⟨c, cs, hcons, hc⟩ := exists_ofInt_eq_cons n
    refine ⟨c, cs, hcons, ?_, nofun⟩
    rw [Bool.eq_false_iff]
    intro hspace
    rcases isSpace_iff.1 hspace with rfl | rfl | rfl | rfl <;> simp at hc
  | .bool b => cases b <;> exact ⟨_, _, rfl, by decide, by decide⟩
  | .openArray | .closeArray | .openObject | .closeObject | .colon | .comma | .null =>
    exact ⟨_, _, rfl, by decide, by decide⟩

/-- A token is read back off its spelling, with spaces in front of it. -/
theorem read?_spell {t : Token} {spaces : List Char} (hspaces : ∀ c ∈ spaces, isSpace c = true)
    (ht : t.IsExact) (h : t.isNumber = true → IsApart rest) :
    read? (spaces ++ t.spell ++ rest) = some (t, rest) := by
  obtain ⟨c, cs, hcons, hc, -⟩ := exists_spell_eq_cons ht
  rw [read?, List.append_assoc, List.dropWhile_append_of_pos hspaces, hcons, List.cons_append,
    List.dropWhile_cons_of_neg (by simp [hc]), ← List.cons_append, ← hcons]
  exact lexeme?_spell ht h

end Token

/-! ### Runs of tokens -/

/-- Tokens are read off a text one after the other, and the rest of it is left. -/
inductive Reads : List Token → List Char → List Char → Prop
  | nil (cs : List Char) : Reads [] cs cs
  | cons {t : Token} {ts : List Token} {cs after rest : List Char}
      (ht : Token.read? cs = some (t, after)) (hts : Reads ts after rest) : Reads (t :: ts) cs rest

/-- A text that is written for tokens: their spellings, with any space in front of each. -/
inductive Displays : List Token → List Char → Prop
  | nil : Displays [] []
  | cons {t : Token} {ts : List Token} {cs : List Char} (spaces : List Char)
      (hspaces : ∀ c ∈ spaces, Token.isSpace c = true) (hts : Displays ts cs) :
      Displays (t :: ts) (spaces ++ t.spell ++ cs)

/-- Whether tokens can be told apart in any text that displays them: all of them are exact, and no
number comes right after another one. -/
structure Legible (ts : List Token) : Prop where
  exact : ∀ t ∈ ts, t.IsExact
  chain : ts.IsChain fun t t' => t.isNumber = true → t'.isNumber = false

namespace Displays

variable {ts ts' : List Token} {cs cs' : List Char}

theorem append (h : Displays ts cs) (h' : Displays ts' cs') : Displays (ts ++ ts') (cs ++ cs') := by
  induction h with
  | nil => exact h'
  | cons spaces hspaces _ ih =>
    rw [List.append_assoc]
    exact .cons spaces hspaces ih

theorem token (t : Token) : Displays [t] t.spell := by
  simpa using Displays.cons (t := t) [] (by simp) .nil

/-- More space may stand in front of tokens. -/
theorem spaced {spaces : List Char} (hspaces : ∀ c ∈ spaces, Token.isSpace c = true)
    (h : Displays ts cs) (hne : ts ≠ []) : Displays ts (spaces ++ cs) := by
  cases h with
  | nil => exact absurd rfl hne
  | cons more hmore hts =>
    rw [List.append_assoc, ← List.append_assoc, ← List.append_assoc]
    exact .cons (spaces ++ more) (List.forall_mem_append.2 ⟨hspaces, hmore⟩) hts

/-- The spellings of tokens display them, without any space in between. -/
theorem flatMap_spell (ts : List Token) : Displays ts (ts.flatMap Token.spell) := by
  induction ts with
  | nil => exact .nil
  | cons t ts ih => exact .cons [] (by simp) ih

/-- No number goes on with tokens that start with none. -/
theorem isApart {t : Token} {rest : List Char} (h : Displays (t :: ts) cs) (ht : t.IsExact)
    (hnumber : t.isNumber = false) : Token.IsApart (cs ++ rest) := by
  cases h with
  | cons spaces hspaces _ =>
    cases spaces with
    | nil =>
      obtain ⟨c, after, hcons, -, hc⟩ := Token.exists_spell_eq_cons ht
      rw [hcons]
      exact Token.isApart_cons.2 (hc hnumber)
    | cons c spaces =>
      refine Token.isApart_cons.2 ?_
      rcases Token.isSpace_iff.1 (hspaces c List.mem_cons_self) with rfl | rfl | rfl | rfl <;>
        decide

/-- A text is read as the tokens that it displays, whatever follows it that goes on with no
number. -/
theorem reads {rest : List Char} (h : Displays ts cs) (hts : Legible ts)
    (hrest : Token.IsApart rest) : Reads ts (cs ++ rest) rest := by
  induction h with
  | nil => exact .nil rest
  | @cons t ts cs spaces hspaces h ih =>
    obtain ⟨hexact, hchain⟩ := hts
    rw [List.forall_mem_cons] at hexact
    rw [List.isChain_cons] at hchain
    have hapart : t.isNumber = true → Token.IsApart (cs ++ rest) := by
      intro hnumber
      cases ts with
      | nil =>
        cases h
        exact hrest
      | cons t' ts =>
        exact h.isApart (hexact.2 t' List.mem_cons_self) (hchain.1 t' rfl hnumber)
    rw [List.append_assoc]
    exact .cons (Token.read?_spell hspaces hexact.1 hapart) (ih ⟨hexact.2, hchain.2⟩)

end Displays

end LdapFilter.Json
