import LdapFilter.Text.Hexadecimal

/-!
# Numbers in settings files

Whole numbers may be written in four bases. Digits may have single underscores between them.
-/

namespace LdapFilter.Config

open Text

/-- The number that digits of a base denote, with single underscores between them. -/
def digits? (base : Nat) (cs : List Char) : Option Nat :=
  let groups := cs.splitOn '_'
  if groups.all fun group => !group.isEmpty then
    groups.flatten.foldlM (fun n c =>
      ((Hexadecimal.value? c).filter (· < base)).map fun d => n * base + d) 0
  else none

/-- A decimal number, which has no zero in front. -/
def decimal? (cs : List Char) : Option Nat :=
  match cs with
  | '0' :: _ :: _ => none
  | cs => digits? 10 cs

/-- A whole number. Only decimal ones may have a sign. -/
def integer? : List Char → Option Int
  | '0' :: 'x' :: cs => (digits? 16 cs).map fun n => (n : Int)
  | '0' :: 'o' :: cs => (digits? 8 cs).map fun n => (n : Int)
  | '0' :: 'b' :: cs => (digits? 2 cs).map fun n => (n : Int)
  | '+' :: cs => (decimal? cs).map fun n => (n : Int)
  | '-' :: cs => (decimal? cs).map fun n => -(n : Int)
  | cs => (decimal? cs).map fun n => (n : Int)

def dropSign : List Char → List Char
  | '+' :: cs => cs
  | '-' :: cs => cs
  | cs => cs

/-- Whether a character may stand in a run of digits. -/
def isDigitOrMark (c : Char) : Bool :=
  c.isDigit || c = '_'

/-- The power of ten at the end of a number with a fraction, when it has one. -/
def isPower : List Char → Bool
  | [] => true
  | c :: cs => (c = 'e' || c = 'E') && (digits? 10 (dropSign cs)).isSome

/-- Whether text without a sign is a number with a fraction, or a power of ten, or both. -/
def isFraction (cs : List Char) : Bool :=
  (decimal? (cs.takeWhile isDigitOrMark)).isSome &&
    match cs.dropWhile isDigitOrMark with
    | [] => false
    | '.' :: rest =>
      (digits? 10 (rest.takeWhile isDigitOrMark)).isSome && isPower (rest.dropWhile isDigitOrMark)
    | rest => isPower rest

/-- Whether text is a number that is not written as a whole one; this may be no number at all. -/
def isFloat (cs : List Char) : Bool :=
  let cs := dropSign cs
  cs = "inf".toList || cs = "nan".toList || isFraction cs

end LdapFilter.Config
