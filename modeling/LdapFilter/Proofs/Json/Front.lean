import LdapFilter.Proofs.Json.Text

/-!
# The value at the start of a text

Reading takes a part off the front of a text. This part alone settles what is read: whatever else
follows it, the same is read, but for the one character that may run on a number. So a value at the
start of a text is the value of some text of its own, and is read alike whatever follows that text
(`takesFront_read?`).
-/

namespace LdapFilter.Json

open Text

/-- Reading takes a part off the front of a text, and takes it off as well when something else that
is all right follows it. -/
def TakesFront {α : Type} (ok : List Char → Prop) (read : List Char → Option (α × List Char))
    (x : α) (cs rest : List Char) : Prop :=
  ∃ front, cs = front ++ rest ∧ ∀ other, ok other → read (front ++ other) = some (x, other)

variable {cs rest other : List Char}

namespace TakesFront

variable {α β : Type} {ok ok' : List Char → Prop} {x : α} {y : β}
  {read : List Char → Option (α × List Char)} {read' : List Char → Option (β × List Char)}

/-- A reader takes off what another one takes off that it goes by. -/
theorem imp (h : TakesFront ok read x cs rest)
    (himp : ∀ cs rest, read cs = some (x, rest) → read' cs = some (y, rest)) :
    TakesFront ok read' y cs rest := by
  obtain ⟨front, rfl, hfront⟩ := h
  exact ⟨front, rfl, fun other hother => himp _ _ (hfront other hother)⟩

theorem mono (h : TakesFront ok read x cs rest) (hok : ∀ other, ok' other → ok other) :
    TakesFront ok' read x cs rest := by
  obtain ⟨front, rfl, hfront⟩ := h
  exact ⟨front, rfl, fun other hother => hfront other (hok other hother)⟩

/-- A first character is taken off together with what is read after it. -/
theorem cons (c : Char) (h : TakesFront ok read x cs rest)
    (himp : ∀ cs rest, read cs = some (x, rest) → read' (c :: cs) = some (y, rest)) :
    TakesFront ok read' y (c :: cs) rest := by
  obtain ⟨front, rfl, hfront⟩ := h
  exact ⟨c :: front, rfl, fun other hother => himp _ _ (hfront other hother)⟩

/-- Nothing is taken off, whatever follows. -/
theorem nil (h : ∀ other, ok other → read other = some (x, other)) : TakesFront ok read x cs cs :=
  ⟨[], rfl, h⟩

/-- What is taken off has a first character when nothing is read of the empty text. -/
theorem exists_cons (h : TakesFront ok read x cs rest) (hnil : read [] = none) (hok : ok []) :
    ∃ c front, cs = c :: front ++ rest ∧
      ∀ other, ok other → read (c :: front ++ other) = some (x, other) := by
  obtain ⟨front, rfl, hfront⟩ := h
  cases front with
  | nil =>
    have hread := hfront [] hok
    rw [List.nil_append, hnil] at hread
    cases hread
  | cons c front => exact ⟨c, front, rfl, hfront⟩

end TakesFront

/-! ### Numbers -/

namespace Token

/-- Nothing more is read of a number when a text follows in place of another one: it starts with the
same character, or with none that a number may go on with. -/
def MayReplace (rest other : List Char) : Prop :=
  other.head? = rest.head? ∨ IsApart other

theorem MayReplace.append (h : MayReplace rest other) (front : List Char) :
    MayReplace (front ++ rest) (front ++ other) := by
  cases front with
  | nil => exact h
  | cons c front => exact Or.inl rfl

/-- A character that a number may go on with does not come up. -/
theorem MayReplace.ne_cons {c : Char} (h : MayReplace rest other) (hc : goesOn c = true)
    (hrest : ∀ ds, rest ≠ c :: ds) (ds : List Char) : other ≠ c :: ds := by
  rintro rfl
  rcases h with h | h
  · obtain ⟨ds', hcons⟩ := List.head?_eq_some_iff.1 h.symm
    exact hrest ds' hcons
  · exact Bool.eq_false_iff.1 (isApart_cons.1 h) hc

section

variable {ds : List Char}

theorem takesFront_digits? (h : digits? cs = some (ds, rest)) :
    TakesFront (MayReplace rest) digits? ds cs rest := by
  obtain ⟨rfl, hds, hrest⟩ := digits?_eq_some_iff.1 h
  refine ⟨ds, rfl, fun other hother => digits?_eq_some_iff.2 ⟨rfl, hds, fun c hc => ?_⟩⟩
  obtain ⟨es, rfl⟩ := List.head?_eq_some_iff.1 hc
  rw [Bool.eq_false_iff]
  intro hdigit
  refine hother.ne_cons (c := c) (by simp [goesOn, hdigit]) ?_ es rfl
  rintro ds' rfl
  exact Bool.eq_false_iff.1 (hrest c rfl) hdigit

theorem ne_cons_of_digits? {c : Char} (h : digits? cs = some (ds, rest)) (hc : c.isDigit = false)
    (es : List Char) : cs ≠ c :: es := by
  obtain ⟨rfl, hds, -⟩ := digits?_eq_some_iff.1 h
  cases ds with
  | nil => exact absurd rfl hds.ne_nil
  | cons d ds =>
    intro hcons
    rw [(List.cons.inj hcons).1] at hds
    exact Decimal.IsDigits.not_cons hc hds

theorem takesFront_whole? (h : whole? cs = some (ds, rest)) :
    TakesFront (MayReplace rest) whole? ds cs rest := by
  obtain ⟨hdigits, hzero⟩ := Option.filter_eq_some_iff.1 h
  exact (takesFront_digits? hdigits).imp fun _ _ hread => Option.filter_eq_some_iff.2 ⟨hread, hzero⟩

theorem takesFront_fraction? (h : fraction? cs = some (ds, rest)) :
    TakesFront (MayReplace rest) fraction? ds cs rest := by
  unfold fraction? at h
  split at h
  · exact (takesFront_digits? h).cons '.' fun _ _ hread => hread
  · next hpoint =>
    cases h
    exact .nil fun other hother => fraction?.eq_2 other (hother.ne_cons rfl hpoint)

end

/-- The digits of a power of ten may have a sign. -/
theorem takesFront_power? {n : Int} (h : power? cs = some (n, rest)) :
    TakesFront (MayReplace rest) power? n cs rest := by
  unfold power? at h
  split at h <;> obtain ⟨⟨ds, after⟩, hds, hn⟩ := Option.map_eq_some_iff.1 h <;> cases hn
  · exact (takesFront_digits? hds).cons '-' fun _ _ hread => by rw [power?, hread]; rfl
  · exact (takesFront_digits? hds).cons '+' fun _ _ hread => by rw [power?, hread]; rfl
  · refine (takesFront_digits? hds).imp fun _ _ hread => ?_
    rw [power?.eq_3 _ (ne_cons_of_digits? hread rfl) (ne_cons_of_digits? hread rfl), hread]
    rfl

theorem takesFront_exponent? {e : Option Int} (h : exponent? cs = some (e, rest)) :
    TakesFront (MayReplace rest) exponent? e cs rest := by
  unfold exponent? at h
  split at h
  · obtain ⟨⟨n, after⟩, hn, he⟩ := Option.map_eq_some_iff.1 h
    cases he
    exact (takesFront_power? hn).cons 'e' fun _ _ hread => by rw [exponent?, hread]; rfl
  · obtain ⟨⟨n, after⟩, hn, he⟩ := Option.map_eq_some_iff.1 h
    cases he
    exact (takesFront_power? hn).cons 'E' fun _ _ hread => by rw [exponent?, hread]; rfl
  · next hlower hupper =>
    cases h
    exact .nil fun other hother =>
      exponent?.eq_3 other (hother.ne_cons rfl hlower) (hother.ne_cons rfl hupper)

/-- A number after its sign. -/
def unsigned? (negative : Bool) (cs : List Char) : Option (Number × List Char) := do
  let (whole, cs) ← whole? cs
  let (fraction, cs) ← fraction? cs
  let (exponent, cs) ← exponent? cs
  let n ← Number.ofLiteral? ⟨negative, whole, fraction, exponent⟩
  return (n, cs)

theorem number?_eq (cs : List Char) : number? cs = unsigned? (sign cs).1 (sign cs).2 :=
  rfl

variable {n : Number} {negative : Bool}

theorem takesFront_unsigned? (h : unsigned? negative cs = some (n, rest)) :
    TakesFront (MayReplace rest) (unsigned? negative) n cs rest := by
  simp only [unsigned?, Option.bind_eq_bind, Option.bind_eq_some_iff] at h
  obtain ⟨⟨whole, afterWhole⟩, hwhole, ⟨fraction, afterFraction⟩, hfraction,
    ⟨exponent, afterExponent⟩, hexponent, m, hm, h⟩ := h
  cases h
  obtain ⟨first, rfl, hfirst⟩ := takesFront_whole? hwhole
  obtain ⟨second, rfl, hsecond⟩ := takesFront_fraction? hfraction
  obtain ⟨third, rfl, hthird⟩ := takesFront_exponent? hexponent
  refine ⟨first ++ (second ++ third), by simp, fun other hother => ?_⟩
  have hrest := hother.append third
  simp only [unsigned?, List.append_assoc, hfirst _ (hrest.append second), hsecond _ hrest,
    hthird _ hother, hm, Option.bind_eq_bind, Option.bind_some]
  rfl

/-- A number without its sign starts with a digit. -/
theorem ne_cons_of_unsigned? {c : Char} (h : unsigned? negative cs = some (n, rest))
    (hc : c.isDigit = false) : ∀ es, cs ≠ c :: es := by
  simp only [unsigned?, Option.bind_eq_bind, Option.bind_eq_some_iff] at h
  obtain ⟨_, hwhole, -⟩ := h
  exact ne_cons_of_digits? (Option.filter_eq_some_iff.1 hwhole).1 hc

theorem takesFront_number? (h : number? cs = some (n, rest)) :
    TakesFront (MayReplace rest) number? n cs rest := by
  by_cases hminus : ∃ ds, cs = '-' :: ds
  · obtain ⟨ds, rfl⟩ := hminus
    have hafter : unsigned? true ds = some (n, rest) := h
    exact (takesFront_unsigned? hafter).cons '-' fun _ _ hread => hread
  · rw [not_exists] at hminus
    rw [number?_eq, sign.eq_2 cs hminus] at h
    refine (takesFront_unsigned? h).imp fun cs' rest' hread => ?_
    rw [number?_eq, sign.eq_2 cs' (ne_cons_of_unsigned? hread rfl)]
    exact hread

end Token

/-! ### Quoted text -/

namespace Quoted

variable {unit : Nat} {c : Char}

theorem takesFront_codeUnit? (h : codeUnit? cs = some (unit, rest)) :
    TakesFront (fun _ => True) codeUnit? unit cs rest := by
  unfold codeUnit? at h
  split at h
  · next a b c d after =>
    simp only [Option.bind_eq_bind, Option.bind_eq_some_iff] at h
    obtain ⟨_, ha, _, hb, _, hc, _, hd, h⟩ := h
    cases h
    exact ⟨[a, b, c, d], rfl, fun other _ => by simp [codeUnit?, ha, hb, hc, hd]⟩
  · cases h

theorem takesFront_lowSurrogate? (h : lowSurrogate? cs = some (unit, rest)) :
    TakesFront (fun _ => True) lowSurrogate? unit cs rest := by
  unfold lowSurrogate? at h
  split at h
  · obtain ⟨hunit, hlow⟩ := Option.filter_eq_some_iff.1 h
    obtain ⟨front, rfl, hfront⟩ := takesFront_codeUnit? hunit
    exact ⟨'\\' :: 'u' :: front, rfl, fun other hother =>
      Option.filter_eq_some_iff.2 ⟨hfront other hother, hlow⟩⟩
  · cases h

theorem takesFront_numbered? (h : numbered? cs = some (c, rest)) :
    TakesFront (fun _ => True) numbered? c cs rest := by
  simp only [numbered?, Option.bind_eq_bind, Option.bind_eq_some_iff] at h
  obtain ⟨⟨unit, after⟩, hunit, h⟩ := h
  obtain ⟨first, rfl, hfirst⟩ := takesFront_codeUnit? hunit
  split at h
  · next hhigh =>
    obtain ⟨⟨low, last⟩, hlow, h⟩ := Option.bind_eq_some_iff.1 h
    obtain ⟨rfl, rfl⟩ := Prod.mk.inj (Option.some.inj h)
    obtain ⟨second, rfl, hsecond⟩ := takesFront_lowSurrogate? hlow
    refine ⟨first ++ second, by simp, fun other hother => ?_⟩
    simp [numbered?, hfirst _ trivial, hhigh, hsecond other hother]
  · next hhigh =>
    split at h
    · cases h
    · next hlow =>
      cases h
      refine ⟨first, rfl, fun other hother => ?_⟩
      simp [numbered?, hfirst other hother, hhigh, hlow]

theorem takesFront_escaped? (h : escaped? cs = some (c, rest)) :
    TakesFront (fun _ => True) escaped? c cs rest := by
  cases cs with
  | nil => cases h
  | cons letter cs =>
    rw [escaped?] at h
    split at h
    · next hletter =>
      refine (takesFront_numbered? h).cons letter fun _ _ hread => ?_
      rw [escaped?, if_pos hletter, hread]
    · next hletter =>
      obtain ⟨d, hd, h⟩ := Option.map_eq_some_iff.1 h
      cases h
      refine ⟨[letter], rfl, fun other _ => ?_⟩
      rw [List.singleton_append, escaped?, if_neg hletter, hd]
      rfl

/-- The closing quote ends the text, whatever stands after it. -/
theorem takesFront_read? {done text : List Char} (h : read? done cs = some (text, rest)) :
    TakesFront (fun _ => True) (read? done) text cs rest := by
  fun_induction read? done cs with
  | case1 => cases h
  | case2 =>
    cases h
    exact ⟨['"'], rfl, fun other _ => by rw [List.singleton_append, read?, if_pos rfl]⟩
  | case3 done letters d after hescaped _ ih =>
    obtain ⟨first, rfl, hfirst⟩ := takesFront_escaped? hescaped
    obtain ⟨second, rfl, hsecond⟩ := ih h
    refine ⟨'\\' :: (first ++ second), by simp, fun other hother => ?_⟩
    rw [List.cons_append, List.append_assoc, read?_backslash done (hfirst _ trivial)]
    exact hsecond other hother
  | case4 => cases h
  | case5 => cases h
  | case6 done c cs hquote hslash hcontrol ih =>
    refine (ih h).cons c fun _ _ hread => ?_
    rw [read?, if_neg hquote, if_neg hslash, if_neg hcontrol, hread]

end Quoted

/-! ### Tokens -/

namespace Token

variable {t : Token}

/-- A number starts with a digit or with a sign. -/
theorem isDigit_or_eq_of_number? {c : Char} {n : Number}
    (h : number? (c :: cs) = some (n, rest)) : c.isDigit = true ∨ c = '-' := by
  by_cases hminus : c = '-'
  · exact Or.inr hminus
  · rw [number?_eq, sign.eq_2 _ fun ds hcons => hminus (List.cons.inj hcons).1] at h
    refine Or.inl (Bool.not_eq_false _ ▸ fun hc => ?_)
    exact ne_cons_of_unsigned? h hc cs rfl

/-- What follows a token has no part in it, unless it is a number that is run on. -/
theorem takesFront_lexeme? (h : lexeme? cs = some (t, rest)) :
    TakesFront (fun other => t.isNumber = true → MayReplace rest other) lexeme? t cs rest := by
  unfold lexeme? at h
  split at h
  case h_1 => cases h
  case h_8 =>
    obtain ⟨⟨s, after⟩, hs, h⟩ := Option.map_eq_some_iff.1 h
    cases h
    refine ((Quoted.takesFront_read? hs).mono fun _ _ => trivial).cons '"' fun _ _ hread => ?_
    rw [lexeme?, hread]
    rfl
  case h_12 =>
    obtain ⟨⟨n, after⟩, hn, h⟩ := Option.map_eq_some_iff.1 h
    cases h
    obtain ⟨c, front, rfl, hfront⟩ := (takesFront_number? hn).exists_cons rfl (Or.inr isApart_nil)
    refine ⟨c :: front, rfl, fun other hother => ?_⟩
    have hread := hfront other (hother rfl)
    rw [List.cons_append] at hread ⊢
    rw [lexeme?_eq_number? (isDigit_or_eq_of_number? hread), hread]
    rfl
  all_goals
    refine ⟨t.spell, ?_⟩
    cases h
    exact ⟨rfl, fun _ _ => rfl⟩

theorem takesFront_read? (h : read? cs = some (t, rest)) :
    TakesFront (fun other => t.isNumber = true → MayReplace rest other) read? t cs rest := by
  obtain ⟨c, front, hcs, hfront⟩ :=
    (takesFront_lexeme? h).exists_cons rfl fun _ => Or.inr isApart_nil
  obtain ⟨hc, hcs⟩ := eq_append_of_dropWhile hcs
  have hspaces : ∀ d ∈ cs.takeWhile isSpace, isSpace d = true :=
    List.all_eq_true.1 List.all_takeWhile
  refine ⟨cs.takeWhile isSpace ++ c :: front, ?_, fun other hother => ?_⟩
  · rw [List.append_assoc]
    exact hcs
  · rw [read?, List.append_assoc, List.dropWhile_append_of_pos hspaces, List.cons_append,
      List.dropWhile_cons_of_neg (by simp [hc])]
    exact hfront other hother

end Token

/-! ### Values -/

/-- Only a number ends in a number. -/
theorem eq_number_of_step {state : State} {frames : List Frame} {t : Token} {value : Json}
    (h : Progress.step frames state t = some (.done value)) (ht : t.isNumber = true) :
    ∃ n, value = .number n := by
  match t with
  | .number n =>
    cases state with
    | value =>
      match frames with
      | [] =>
        cases h
        exact ⟨n, rfl⟩
      | .item _ :: _ | .member _ _ :: _ => cases h
    | _ => cases h

/-- What follows a value has no part in it, unless it is a number that is run on. -/
theorem takesFront_readFrom {state : State} {frames : List Frame} {value : Json}
    (h : readFrom state frames cs = some (value, rest)) :
    TakesFront (fun other => (∃ n, value = .number n) → Token.MayReplace rest other)
      (readFrom state frames) value cs rest := by
  fun_induction readFrom state frames cs with
  | case1 => cases h
  | case2 => cases h
  | case3 state frames cs t after ht value hstep =>
    cases h
    refine ((Token.takesFront_read? ht).mono fun other hother hnumber => ?_).imp
      fun _ _ hread => ?_
    · exact hother (eq_number_of_step hstep hnumber)
    · rw [readFrom_eq state frames hread, hstep]
  | case4 state frames cs t after ht state' frames' hstep ih =>
    obtain ⟨first, rfl, hfirst⟩ := Token.takesFront_read? ht
    have hnil : readFrom state' frames' [] = none := by
      rw [readFrom]
      rfl
    obtain ⟨c, second, rfl, hsecond⟩ :=
      (ih h).exists_cons hnil fun _ => Or.inr Token.isApart_nil
    refine ⟨first ++ c :: second, by simp, fun other hother => ?_⟩
    have hread := hfirst (c :: second ++ other) fun _ => Or.inl rfl
    rw [List.append_assoc, readFrom_eq state frames hread, hstep]
    exact hsecond other hother

/-- A value at the start of a text is the value of a text of its own, and is read whatever follows
this text, unless it is a number that is run on. -/
theorem takesFront_read? {value : Json} (h : Json.read? cs = some (value, rest)) :
    TakesFront (fun other => (∃ n, value = .number n) → Token.MayReplace rest other) Json.read?
      value cs rest := by
  obtain ⟨⟨verbatim, after⟩, hverbatim, h⟩ := Option.map_eq_some_iff.1 h
  cases h
  refine ((takesFront_readFrom hverbatim).mono fun other hother hnumber => ?_).imp
    fun cs rest hread => ?_
  · obtain ⟨n, rfl⟩ := hnumber
    exact hother ⟨n, rfl⟩
  · have hread : readVerbatim? cs = some (verbatim, rest) := hread
    rw [Json.read?, hread]
    rfl

end LdapFilter.Json
