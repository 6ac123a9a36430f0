import LdapFilter.Text.Hexadecimal

/-!
# Quoted text in documents

Text stands between quotes, with escapes for the characters that may not stand there by
themselves. Reading accepts every escape of the format; writing uses the shortest one, and only
where one is needed.
-/

namespace LdapFilter.Json.Quoted

open Text

/-! ### Escapes of two characters -/

/-- The letters that may follow a backslash, each with the character it denotes. -/
def shortEscapes : List (Char × Char) :=
  [('"', '"'), ('\\', '\\'), ('/', '/'), ('b', '\x08'), ('f', '\x0C'), ('n', '\n'), ('r', '\r'),
    ('t', '\t')]

/-- Whether a character below the printable ones cannot stand for itself between quotes. -/
def isControl (c : Char) : Bool :=
  c.toNat < 0x20

/-! ### Escapes by number -/

/-- The number that four hexadecimal digits denote, and the text after them. -/
def codeUnit? : List Char → Option (Nat × List Char)
  | a :: b :: c :: d :: rest => do
    let a ← Hexadecimal.value? a
    let b ← Hexadecimal.value? b
    let c ← Hexadecimal.value? c
    let d ← Hexadecimal.value? d
    return (((a * 16 + b) * 16 + c) * 16 + d, rest)
  | _ => none

/-- A number that takes a second one to denote a character. -/
def isHighSurrogate (unit : Nat) : Bool :=
  0xD800 ≤ unit && unit < 0xDC00

/-- A number that denotes a character only after a first one. -/
def isLowSurrogate (unit : Nat) : Bool :=
  0xDC00 ≤ unit && unit < 0xE000

/-- The character that a surrogate pair denotes. -/
def joinSurrogates (high low : Nat) : Char :=
  Char.ofNat (0x10000 + (high - 0xD800) * 0x400 + (low - 0xDC00))

/-- The second number of a pair, with its own escape in front. -/
def lowSurrogate? : List Char → Option (Nat × List Char)
  | '\\' :: 'u' :: rest => (codeUnit? rest).filter fun low => isLowSurrogate low.1
  | _ => none

/-- The character given by number, and the text after it. A surrogate without its partner is
refused. -/
def numbered? (cs : List Char) : Option (Char × List Char) := do
  let (unit, rest) ← codeUnit? cs
  if isHighSurrogate unit then
    let (low, rest) ← lowSurrogate? rest
    return (joinSurrogates unit low, rest)
  else if isLowSurrogate unit then none
  else return (Char.ofNat unit, rest)

/-- The character that an escape denotes, and the text after it; the backslash is gone already. -/
def escaped? : List Char → Option (Char × List Char)
  | [] => none
  | c :: rest =>
    if c = 'u' then numbered? rest else (shortEscapes.lookup c).map fun d => (d, rest)

/-! ### Reading -/

theorem length_codeUnit? {cs rest : List Char} {unit : Nat}
    (h : codeUnit? cs = some (unit, rest)) : rest.length < cs.length := by
  unfold codeUnit? at h
  split at h
  · simp only [Option.bind_eq_bind, Option.bind_eq_some_iff, Option.pure_def, Option.some.injEq,
      Prod.mk.injEq] at h
    obtain ⟨_, _, _, _, _, _, _, _, _, rfl⟩ := h
    simp only [List.length_cons]
    omega
  · simp at h

theorem length_lowSurrogate? {cs rest : List Char} {unit : Nat}
    (h : lowSurrogate? cs = some (unit, rest)) : rest.length < cs.length := by
  unfold lowSurrogate? at h
  split at h
  · have := length_codeUnit? (Option.filter_eq_some_iff.1 h).1
    simp only [List.length_cons]
    omega
  · simp at h

theorem length_numbered? {cs rest : List Char} {c : Char}
    (h : numbered? cs = some (c, rest)) : rest.length < cs.length := by
  simp only [numbered?, Option.bind_eq_bind, Option.bind_eq_some_iff] at h
  obtain ⟨⟨unit, middle⟩, hunit, h⟩ := h
  have hlt := length_codeUnit? hunit
  split at h
  · obtain ⟨⟨low, last⟩, hlow, h⟩ := Option.bind_eq_some_iff.1 h
    obtain rfl : last = rest := congrArg Prod.snd (Option.some.inj h)
    exact Nat.lt_trans (length_lowSurrogate? hlow) hlt
  · split at h
    · simp at h
    · obtain rfl : middle = rest := congrArg Prod.snd (Option.some.inj h)
      exact hlt

/-- An escape takes up text. -/
theorem length_escaped? {cs rest : List Char} {c : Char}
    (h : escaped? cs = some (c, rest)) : rest.length < cs.length := by
  unfold escaped? at h
  split at h
  · simp at h
  · split at h
    · have := length_numbered? h
      simp only [List.length_cons]
      omega
    · obtain ⟨d, _, h⟩ := Option.map_eq_some_iff.1 h
      have hrest := congrArg Prod.snd h
      simp only at hrest
      simp [hrest]

/-- The text up to the closing quote, and what follows the quote. The opening quote is gone
already, and `done` is the text so far, last character first. -/
def read? (done cs : List Char) : Option (List Char × List Char) :=
  match cs with
  | [] => none
  | c :: rest =>
    if c = '"' then some (done.reverse, rest)
    else if c = '\\' then
      match _h : escaped? rest with
      | some (d, after) => read? (d :: done) after
      | none => none
    else if isControl c then none
    else read? (c :: done) rest
termination_by cs.length
decreasing_by
  · have := length_escaped? _h
    simp only [List.length_cons]
    omega
  · simp

/-- Quoted text takes up what is read of it. -/
theorem length_read? {done cs text rest : List Char}
    (h : read? done cs = some (text, rest)) : rest.length < cs.length := by
  fun_induction read? done cs with
  | case1 => simp at h
  | case2 => cases h; simp
  | case3 _ _ _ _ hesc _ ih =>
    have := ih h
    have := length_escaped? hesc
    simp only [List.length_cons]
    omega
  | case4 => simp at h
  | case5 => simp at h
  | case6 _ _ _ _ _ _ ih =>
    have := ih h
    simp only [List.length_cons]
    omega

/-! ### Writing -/

/-- A character as it stands between quotes. -/
def escape (c : Char) : List Char :=
  match shortEscapes.find? fun e => e.2 = c ∧ c ≠ '/' with
  | some (letter, _) => ['\\', letter]
  | none =>
    if isControl c then
      ['\\', 'u', '0', '0', Nat.digitChar (c.toNat / 16), Nat.digitChar (c.toNat % 16)]
    else [c]

def write (text : List Char) : List Char :=
  '"' :: text.flatMap escape ++ ['"']

end LdapFilter.Json.Quoted
