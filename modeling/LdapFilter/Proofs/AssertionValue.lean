import LdapFilter.AssertionValue
import LdapFilter.Text.Hexadecimal

/-!
# Escaping and unescaping

An escaped value is read back by replacing a backslash and two hexadecimal digits by the character
of that code. Every character is escaped so that this gives the character back
(`unescape_escape`), and no character that could end a value is left (`isEscaped_escape`). So an
escaped value is inert, and tells which value it is of (`isInert_escape_and_unescape_escape`).
-/

namespace LdapFilter.AssertionValue

open Text

def unescapeChars : List Char → List Char
  | [] => []
  | '\\' :: high :: low :: cs =>
    match Hexadecimal.value? high, Hexadecimal.value? low with
    | some m, some n => Char.ofNat (16 * m + n) :: unescapeChars cs
    | _, _ => '\\' :: unescapeChars (high :: low :: cs)
  | c :: cs => c :: unescapeChars cs

def unescape (text : String) : String :=
  String.ofList (unescapeChars text.toList)

/-- A character that has a code may not stand for itself. -/
theorem isSpecial_iff {c : Char} : isSpecial c = true ↔ c ∈ codes.map Prod.fst := by
  rw [isSpecial, List.lookup_isSome_iff]
  simp

/-- A character is written as a backslash and the digits of its code, or stands for itself. -/
theorem escapeChar_eq_or (c : Char) :
    (∃ digits, (c, digits) ∈ codes ∧ escapeChar c = '\\' :: digits) ∨
    (escapeChar c = [c] ∧ ∀ d ∈ codes.map Prod.fst, c ≠ d) := by
  cases hcode : codes.lookup c with
  | some digits =>
    left
    obtain ⟨before, after, hcodes, -⟩ := List.lookup_eq_some_iff.1 hcode
    exact ⟨digits, by simp [hcodes], by rw [escapeChar, hcode]⟩
  | none =>
    right
    have hplain : c ∉ codes.map Prod.fst := by
      rw [← isSpecial_iff, isSpecial, hcode]
      exact Bool.false_ne_true
    exact ⟨by rw [escapeChar, hcode], fun d hd hcd => hplain (hcd ▸ hd)⟩

/-- A character that is escaped is written as the two digits of its code, which is less than 128;
any other one stands for itself. -/
theorem escapeChar_cases (c : Char) :
    (∃ high low m n, escapeChar c = ['\\', high, low] ∧ Hexadecimal.value? high = some m ∧
      Hexadecimal.value? low = some n ∧ c = Char.ofNat (16 * m + n) ∧ 16 * m + n < 128) ∨
    (escapeChar c = [c] ∧ ∀ d ∈ codes.map Prod.fst, c ≠ d) := by
  refine (escapeChar_eq_or c).imp_left ?_
  rintro ⟨digits, hcode, hescape⟩
  simp only [codes, List.mem_cons, Prod.mk.injEq, List.not_mem_nil, or_false] at hcode
  rcases hcode with ⟨rfl, rfl⟩ | ⟨rfl, rfl⟩ | ⟨rfl, rfl⟩ | ⟨rfl, rfl⟩ | ⟨rfl, rfl⟩
  · exact ⟨'2', 'a', 2, 10, rfl, rfl, rfl, rfl, by decide⟩
  · exact ⟨'2', '8', 2, 8, rfl, rfl, rfl, rfl, by decide⟩
  · exact ⟨'2', '9', 2, 9, rfl, rfl, rfl, rfl, by decide⟩
  · exact ⟨'5', 'c', 5, 12, rfl, rfl, rfl, rfl, by decide⟩
  · exact ⟨'0', '0', 0, 0, rfl, rfl, rfl, rfl, by decide⟩

/-- Unescaping gives back the first character that was escaped. -/
theorem unescapeChars_escapeChar_append (c : Char) (cs : List Char) :
    unescapeChars (escapeChar c ++ cs) = c :: unescapeChars cs := by
  rcases escapeChar_cases c with ⟨high, low, m, n, hescape, hm, hn, hc, -⟩ | ⟨hescape, hne⟩
  · rw [hescape, hc]
    simp [unescapeChars, hm, hn]
  · have hplain : ∀ high low ds, c = '\\' → cs = high :: low :: ds → False :=
      fun _ _ _ e _ => hne '\\' (by decide) e
    rw [hescape]
    exact unescapeChars.eq_3 c cs hplain

/-- Unescaping undoes escaping. -/
theorem unescape_escape (value : String) : unescape (escape value) = value := by
  have hchars : ∀ cs : List Char, unescapeChars (cs.flatMap escapeChar) = cs := by
    intro cs
    induction cs with
    | nil => simp [unescapeChars]
    | cons c cs ih => rw [List.flatMap_cons, unescapeChars_escapeChar_append, ih]
  rw [unescape, escape, String.toList_ofList, hchars, String.ofList_toList]

/-- A value without special characters is its own escape. -/
theorem escape_eq_self_of_not_mem {value : String}
    (h : ∀ c ∈ value.toList, c ∉ codes.map Prod.fst) : escape value = value := by
  apply escape_eq_self
  rw [escape?_eq_none_iff]
  intro c hc
  rw [← Bool.not_eq_true, isSpecial_iff]
  exact h c hc

/-! ### Escaped texts -/

/-- A text with none of the characters that have a meaning in a filter, but for backslashes before
the digits of a code. -/
structure IsEscaped (text : String) : Prop where
  not_mem : ∀ c ∈ ['*', '(', ')', '\x00'], c ∉ text.toList
  digits : ∀ rest, '\\' :: rest <:+ text.toList → ∃ digits ∈ codes.map Prod.snd, digits <+: rest

/-- The digits of a code are plain characters. -/
theorem not_mem_digits {c : Char} {digits : List Char} (hdigits : digits ∈ codes.map Prod.snd)
    (hc : c ∈ codes.map Prod.fst) : c ∉ digits := by
  have hplain : (codes.map Prod.snd).all
      (fun digits => (codes.map Prod.fst).all (· ∉ digits)) = true := by
    decide
  simp only [List.all_eq_true, decide_eq_true_eq] at hplain
  exact hplain digits hdigits c hc

theorem not_mem_escapeChar {c d : Char} (hd : d ∈ codes.map Prod.fst) (hne : d ≠ '\\') :
    d ∉ escapeChar c := by
  rcases escapeChar_eq_or c with ⟨digits, hcode, hescape⟩ | ⟨hescape, hplain⟩
  · rw [hescape, List.mem_cons, not_or]
    exact ⟨hne, not_mem_digits (List.mem_map_of_mem hcode) hd⟩
  · rw [hescape, List.mem_singleton]
    exact (hplain d hd).symm

/-- A word that starts with a character, and ends a text, ends what is left of the text when a part
without this character is taken off its front. -/
theorem suffix_of_suffix_append {c : Char} {word front back : List Char} (hc : c ∉ front)
    (h : c :: word <:+ front ++ back) : c :: word <:+ back := by
  induction front with
  | nil => exact h
  | cons d front ih =>
    rw [List.mem_cons, not_or] at hc
    rcases List.suffix_cons_iff.1 h with heq | hsuffix
    · exact absurd (List.cons.inj heq).1 hc.1
    · exact ih hc.2 hsuffix

theorem prefix_of_suffix_escape {cs rest : List Char} (h : '\\' :: rest <:+ cs.flatMap escapeChar) :
    ∃ digits ∈ codes.map Prod.snd, digits <+: rest := by
  induction cs with
  | nil => simp at h
  | cons c cs ih =>
    rw [List.flatMap_cons] at h
    rcases escapeChar_eq_or c with ⟨digits, hcode, hescape⟩ | ⟨hescape, hplain⟩
    · have hdigits := List.mem_map_of_mem (f := Prod.snd) hcode
      rw [hescape, List.cons_append, List.suffix_cons_iff] at h
      rcases h with heq | hsuffix
      · rw [(List.cons.inj heq).2]
        exact ⟨digits, hdigits, List.prefix_append ..⟩
      · exact ih (suffix_of_suffix_append (not_mem_digits hdigits (by decide)) hsuffix)
    · have hc : '\\' ∉ [c] := by
        rw [List.mem_singleton]
        exact (hplain '\\' (by decide)).symm
      rw [hescape] at h
      exact ih (suffix_of_suffix_append hc h)

/-- Escaping leaves no character with a meaning, and every backslash in it is that of an escape. -/
theorem isEscaped_escape (value : String) : IsEscaped (escape value) := by
  constructor
  · intro c hc
    have hspecial : c ∈ codes.map Prod.fst ∧ c ≠ '\\' := by
      simp only [List.mem_cons, List.not_mem_nil, or_false] at hc
      rcases hc with rfl | rfl | rfl | rfl <;> decide
    rw [escape, String.toList_ofList, List.mem_flatMap]
    rintro ⟨d, -, hmem⟩
    exact not_mem_escapeChar hspecial.1 hspecial.2 hmem
  · intro rest h
    rw [escape, String.toList_ofList] at h
    exact prefix_of_suffix_escape h

/-! ### Sizes -/

/-- A special character is one byte, and is written as a backslash and two digits. -/
theorem utf8ByteSize_escapeChar (c : Char) :
    (String.ofList (escapeChar c)).utf8ByteSize =
      c.utf8Size + 2 * if c ∈ codes.map Prod.fst then 1 else 0 := by
  have hcodes : ∀ p ∈ codes, (String.ofList ('\\' :: p.2)).utf8ByteSize = p.1.utf8Size + 2 := by
    decide
  rcases escapeChar_eq_or c with ⟨digits, hcode, hescape⟩ | ⟨hescape, hplain⟩
  · rw [hescape, if_pos (List.mem_map_of_mem (f := Prod.fst) hcode)]
    exact hcodes _ hcode
  · rw [hescape, if_neg fun hc => hplain c hc rfl]
    exact String.utf8ByteSize_singleton

theorem utf8ByteSize_escape (value : String) :
    (escape value).utf8ByteSize =
      value.utf8ByteSize + 2 * value.toList.countP (· ∈ codes.map Prod.fst) := by
  have hchars : ∀ cs : List Char, (String.ofList (cs.flatMap escapeChar)).utf8ByteSize =
      (String.ofList cs).utf8ByteSize + 2 * cs.countP (· ∈ codes.map Prod.fst) := by
    intro cs
    induction cs with
    | nil => rfl
    | cons c cs ih =>
      rw [List.flatMap_cons, String.ofList_append, String.utf8ByteSize_append,
        utf8ByteSize_escapeChar, ih, String.ofList_cons, String.utf8ByteSize_append,
        String.utf8ByteSize_singleton, List.countP_cons]
      simp only [decide_eq_true_eq]
      omega
  rw [escape, hchars, String.ofList_toList]

/-! ### Escaped values -/

/-- An escaped value is inert, is read back as the value, so that no other value has the same
escape, differs from the value only when this has a special character, and is two bytes longer for
each of them. -/
theorem isInert_escape_and_unescape_escape (value : String) :
    (∀ c ∈ ['*', '(', ')', '\x00'], c ∉ (escape value).toList) ∧
    (∀ rest, '\\' :: rest <:+ (escape value).toList →
      ∃ digits ∈ [['2', 'a'], ['2', '8'], ['2', '9'], ['5', 'c'], ['0', '0']], digits <+: rest) ∧
    unescape (escape value) = value ∧
    (∀ other, escape other = escape value ↔ other = value) ∧
    (escape? value = none ↔ ∀ c ∈ ['*', '(', ')', '\\', '\x00'], c ∉ value.toList) ∧
    (escape? value).getD value = escape value ∧
    (escape value).utf8ByteSize = value.utf8ByteSize +
      2 * value.toList.countP (· ∈ ['*', '(', ')', '\\', '\x00']) := by
  refine ⟨(isEscaped_escape value).not_mem, (isEscaped_escape value).digits, unescape_escape value,
    fun other => ⟨fun h => ?_, congrArg escape⟩, ?_, ?_, utf8ByteSize_escape value⟩
  · rw [← unescape_escape other, h, unescape_escape]
  · simp only [escape?_eq_none_iff, ← Bool.not_eq_true, isSpecial_iff]
    exact ⟨fun h c hc hmem => h c hmem hc, fun h c hmem hc => h c hc hmem⟩
  · cases h : escape? value with
    | none => rw [escape_eq_self h, Option.getD_none]
    | some text =>
      rw [escape?] at h
      split at h
      · exact (Option.some.inj h).symm
      · cases h

/-- A value that looks escaped already is told from the value that it looks like an escape of. -/
theorem isInert_escape_of_escaped_asterisk :
    escape "\\2a*" = "\\5c2a\\2a" ∧
    '*' ∉ (escape "\\2a*").toList ∧
    (∃ digits ∈ [['2', 'a'], ['2', '8'], ['2', '9'], ['5', 'c'], ['0', '0']],
      digits <+: ['5', 'c', '2', 'a', '\\', '2', 'a']) ∧
    unescape (escape "\\2a*") = "\\2a*" ∧ unescape "\\2a*" = "**" ∧
    (escape "\\2a*").utf8ByteSize = 8 := by
  obtain ⟨hinert, hdigits, hunescape, -, -, -, hsize⟩ := isInert_escape_and_unescape_escape "\\2a*"
  exact ⟨by decide, hinert '*' (by decide), hdigits _ (by decide), hunescape, by decide, hsize⟩

end LdapFilter.AssertionValue
