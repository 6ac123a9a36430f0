import LdapFilter.Json.Basic
import LdapFilter.Json.Quoted
import LdapFilter.Text.Decimal

/-!
# Tokens of document text

The text of a document is a run of tokens with spaces between them. `Token.read?` takes the first
token off a text, and `Token.spell` writes a token.

Main statement: reading takes up text (`length_read?`).
-/

namespace LdapFilter.Json

open Text

/-- The smallest parts of document text that mean something. -/
inductive Token where
  | openArray
  | closeArray
  | openObject
  | closeObject
  | colon
  | comma
  | null
  | bool (b : Bool)
  | number (n : Number)
  | string (s : String)
deriving DecidableEq, Repr

namespace Token

/-! ### Numbers -/

/-- The digits that a text starts with, if there are any, and the text after them. -/
def digits? (cs : List Char) : Option (List Char × List Char) :=
  let ds := cs.takeWhile Char.isDigit
  if ds = [] then none else some (ds, cs.dropWhile Char.isDigit)

def sign : List Char → Bool × List Char
  | '-' :: cs => (true, cs)
  | cs => (false, cs)

/-- The digits before the point: a zero starts no others. -/
def whole? (cs : List Char) : Option (List Char × List Char) :=
  (digits? cs).filter fun ds => ds.1.length = 1 ∨ ds.1.head? ≠ some '0'

/-- The digits after the point, none when there is no point. -/
def fraction? : List Char → Option (List Char × List Char)
  | '.' :: cs => digits? cs
  | cs => some ([], cs)

/-- The digits of the power of ten, with or without a sign. -/
def power? : List Char → Option (Int × List Char)
  | '-' :: cs => (digits? cs).map fun ds => (-(Nat.ofDigitChars 10 ds.1 0 : Int), ds.2)
  | '+' :: cs => (digits? cs).map fun ds => ((Nat.ofDigitChars 10 ds.1 0 : Int), ds.2)
  | cs => (digits? cs).map fun ds => ((Nat.ofDigitChars 10 ds.1 0 : Int), ds.2)

def exponent? : List Char → Option (Option Int × List Char)
  | 'e' :: cs => (power? cs).map fun p => (some p.1, p.2)
  | 'E' :: cs => (power? cs).map fun p => (some p.1, p.2)
  | cs => some (none, cs)

def number? (cs : List Char) : Option (Number × List Char) := do
  let (negative, cs) := sign cs
  let (whole, cs) ← whole? cs
  let (fraction, cs) ← fraction? cs
  let (exponent, cs) ← exponent? cs
  let n ← Number.ofLiteral? ⟨negative, whole, fraction, exponent⟩
  return (n, cs)

/-! ### Reading -/

def isSpace (c : Char) : Bool :=
  c = ' ' || c = '\t' || c = '\n' || c = '\r'

/-- The token that a text starts with, when its first character is no space. -/
def lexeme? : List Char → Option (Token × List Char)
  | [] => none
  | '[' :: cs => some (.openArray, cs)
  | ']' :: cs => some (.closeArray, cs)
  | '{' :: cs => some (.openObject, cs)
  | '}' :: cs => some (.closeObject, cs)
  | ':' :: cs => some (.colon, cs)
  | ',' :: cs => some (.comma, cs)
  | '"' :: cs => (Quoted.read? [] cs).map fun s => (.string (String.ofList s.1), s.2)
  | 'n' :: 'u' :: 'l' :: 'l' :: cs => some (.null, cs)
  | 't' :: 'r' :: 'u' :: 'e' :: cs => some (.bool true, cs)
  | 'f' :: 'a' :: 'l' :: 's' :: 'e' :: cs => some (.bool false, cs)
  | cs => (number? cs).map fun n => (.number n.1, n.2)

/-- The first token of a text, and the text after it. -/
def read? (cs : List Char) : Option (Token × List Char) :=
  lexeme? (cs.dropWhile isSpace)

/-- Dropping a run from the front of a text leaves no longer a text. -/
theorem length_dropWhile_le (p : Char → Bool) (cs : List Char) :
    (cs.dropWhile p).length ≤ cs.length :=
  (List.dropWhile_sublist p).length_le

theorem length_digits? {cs ds rest : List Char} (h : digits? cs = some (ds, rest)) :
    rest.length < cs.length := by
  unfold digits? at h
  simp only at h
  split at h
  · simp at h
  · next hne =>
    simp only [Option.some.injEq, Prod.mk.injEq] at h
    obtain ⟨_, rfl⟩ := h
    cases cs with
    | nil => simp at hne
    | cons c cs =>
      by_cases hc : c.isDigit
      · rw [List.dropWhile_cons_of_pos hc, List.length_cons]
        exact Nat.lt_succ_of_le (length_dropWhile_le _ cs)
      · simp [List.takeWhile_cons_of_neg hc] at hne

theorem length_sign_le (cs : List Char) : (sign cs).2.length ≤ cs.length := by
  unfold sign
  split <;> simp

theorem length_whole? {cs ds rest : List Char} (h : whole? cs = some (ds, rest)) :
    rest.length < cs.length :=
  length_digits? (Option.filter_eq_some_iff.1 h).1

theorem length_fraction?_le {cs ds rest : List Char} (h : fraction? cs = some (ds, rest)) :
    rest.length ≤ cs.length := by
  unfold fraction? at h
  split at h
  · have := length_digits? h
    simp only [List.length_cons]
    omega
  · simp only [Option.some.injEq, Prod.mk.injEq] at h
    simp [h.2]

theorem length_power?_le {cs rest : List Char} {n : Int} (h : power? cs = some (n, rest)) :
    rest.length ≤ cs.length := by
  unfold power? at h
  split at h <;>
  · obtain ⟨⟨ds, after⟩, hds, h⟩ := Option.map_eq_some_iff.1 h
    obtain rfl : after = rest := congrArg Prod.snd h
    have := length_digits? hds
    simp only [List.length_cons] at *
    omega

theorem length_exponent?_le {cs rest : List Char} {e : Option Int}
    (h : exponent? cs = some (e, rest)) : rest.length ≤ cs.length := by
  unfold exponent? at h
  split at h
  · obtain ⟨⟨n, after⟩, hn, h⟩ := Option.map_eq_some_iff.1 h
    obtain rfl : after = rest := congrArg Prod.snd h
    have := length_power?_le hn
    simp only [List.length_cons]
    omega
  · obtain ⟨⟨n, after⟩, hn, h⟩ := Option.map_eq_some_iff.1 h
    obtain rfl : after = rest := congrArg Prod.snd h
    have := length_power?_le hn
    simp only [List.length_cons]
    omega
  · simp only [Option.some.injEq, Prod.mk.injEq] at h
    simp [h.2]

theorem length_number? {cs rest : List Char} {n : Number} (h : number? cs = some (n, rest)) :
    rest.length < cs.length := by
  simp only [number?, Option.bind_eq_bind, Option.bind_eq_some_iff] at h
  obtain ⟨⟨whole, afterWhole⟩, hwhole, ⟨fraction, afterFraction⟩, hfraction,
    ⟨exponent, afterExponent⟩, hexponent, m, _, h⟩ := h
  obtain rfl : afterExponent = rest := congrArg Prod.snd (Option.some.inj h)
  calc afterExponent.length
    _ ≤ afterFraction.length := length_exponent?_le hexponent
    _ ≤ afterWhole.length := length_fraction?_le hfraction
    _ < (sign cs).2.length := length_whole? hwhole
    _ ≤ cs.length := length_sign_le cs

theorem length_lexeme? {cs rest : List Char} {t : Token} (h : lexeme? cs = some (t, rest)) :
    rest.length < cs.length := by
  unfold lexeme? at h
  split at h
  case h_1 => simp at h
  case h_8 =>
    obtain ⟨⟨s, after⟩, hs, h⟩ := Option.map_eq_some_iff.1 h
    obtain rfl : after = rest := congrArg Prod.snd h
    have := Quoted.length_read? hs
    simp only [List.length_cons]
    omega
  case h_12 =>
    obtain ⟨⟨n, after⟩, hn, h⟩ := Option.map_eq_some_iff.1 h
    obtain rfl : after = rest := congrArg Prod.snd h
    exact length_number? hn
  all_goals
    simp only [Option.some.injEq, Prod.mk.injEq] at h
    simp only [← h.2, List.length_cons]
    omega

/-- Reading a token takes up text. -/
theorem length_read? {cs rest : List Char} {t : Token} (h : read? cs = some (t, rest)) :
    rest.length < cs.length :=
  Nat.lt_of_lt_of_le (length_lexeme? h) (length_dropWhile_le _ cs)

/-! ### Writing -/

/-- The text of a number: an integer in decimal, a double exactly and with a point. -/
def numberText : Number → List Char
  | .integer n => Decimal.ofInt n
  | .real x => x.text

def spell : Token → List Char
  | .openArray => ['[']
  | .closeArray => [']']
  | .openObject => ['{']
  | .closeObject => ['}']
  | .colon => [':']
  | .comma => [',']
  | .null => "null".toList
  | .bool true => "true".toList
  | .bool false => "false".toList
  | .number n => numberText n
  | .string s => Quoted.write s.toList

end Token

end LdapFilter.Json
