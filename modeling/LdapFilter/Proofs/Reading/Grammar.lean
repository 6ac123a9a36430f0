import LdapFilter.Proofs.Basic
import LdapFilter.Proofs.Reading.Basic
import Mathlib.Data.Option.Basic

/-!
# The grammar of filters

The texts that spell a filter, by the grammar of the string representation (RFC 4515, with the
empty groups of RFC 4526). The grammar allows two texts in two ways, and says here which one is
meant: a lone asterisk asks for presence, and the part `dn` after an attribute is not a rule.

Main statements: values and items are read exactly as the grammar spells them
(`value?_eq_some_iff`, `item?_eq_some_iff`).
-/

namespace LdapFilter.Reading

/-! ### Spelling -/

/-- A text spells the octets of a value. -/
inductive SpellsValue : List UInt8 → List Char → Prop
  | nil : SpellsValue [] []
  | plain {c : Char} {cs : List Char} {value : List UInt8} (hc : isPlain c = true)
      (h : SpellsValue value cs) : SpellsValue (String.utf8EncodeChar c ++ value) (c :: cs)
  | escaped {high low : Char} {m n : Nat} {cs : List Char} {value : List UInt8}
      (hhigh : Text.Hexadecimal.value? high = some m) (hlow : Text.Hexadecimal.value? low = some n)
      (h : SpellsValue value cs) :
      SpellsValue (UInt8.ofNat (16 * m + n) :: value) ('\\' :: high :: low :: cs)

def isRule (rule : String) : Bool :=
  Attribute.isDescriptor rule.toList || Attribute.isNumericOid rule.toList

/-- The parts between the colons in front of the value of an extensible match. -/
inductive SpellsTarget : Option String → Bool → Option String → List (List Char) → Prop
  | attr {attr : String} (hattr : Attribute.isDescription attr = true) :
      SpellsTarget (some attr) false none [attr.toList]
  | attrDn {attr : String} {dn : List Char} (hattr : Attribute.isDescription attr = true)
      (hdn : isDn dn = true) : SpellsTarget (some attr) true none [attr.toList, dn]
  | attrRule {attr rule : String} (hattr : Attribute.isDescription attr = true)
      (hdn : isDn rule.toList = false) (hrule : isRule rule = true) :
      SpellsTarget (some attr) false (some rule) [attr.toList, rule.toList]
  | attrDnRule {attr rule : String} {dn : List Char} (hattr : Attribute.isDescription attr = true)
      (hdn : isDn dn = true) (hrule : isRule rule = true) :
      SpellsTarget (some attr) true (some rule) [attr.toList, dn, rule.toList]
  | rule {rule : String} (hrule : isRule rule = true) :
      SpellsTarget none false (some rule) [[], rule.toList]
  | dnRule {rule : String} {dn : List Char} (hdn : isDn dn = true) (hrule : isRule rule = true) :
      SpellsTarget none true (some rule) [[], dn, rule.toList]

/-- What stands in front of the equals sign of a comparison. -/
def sign : Comparison → List Char
  | .equal => []
  | .approximate => ['~']
  | .greaterOrEqual => ['>']
  | .lessOrEqual => ['<']

inductive SpellsItem : Reading → List Char → Prop
  | compare (comparison : Comparison) {attr : String} {text : List Char} {value : List UInt8}
      (hattr : Attribute.isDescription attr = true) (hvalue : SpellsValue value text) :
      SpellsItem (.compare comparison attr value) (attr.toList ++ sign comparison ++ '=' :: text)
  | present {attr : String} (hattr : Attribute.isDescription attr = true) :
      SpellsItem (.present attr) (attr.toList ++ ['=', '*'])
  | substrings {attr : String} {texts : List (List Char)} {runs : List (List UInt8)}
      (hattr : Attribute.isDescription attr = true) (hlength : 2 ≤ texts.length)
      (hne : texts ≠ [[], []]) (hruns : List.Forall₂ SpellsValue runs texts) :
      SpellsItem (.substrings attr runs) (attr.toList ++ '=' :: ['*'].intercalate texts)
  | extensible {attr rule : Option String} {dn : Bool} {parts : List (List Char)}
      {text : List Char} {value : List UInt8} (htarget : SpellsTarget attr dn rule parts)
      (hvalue : SpellsValue value text) :
      SpellsItem (.extensible attr dn rule value) ([':'].intercalate parts ++ ':' :: '=' :: text)

mutual
inductive Spells : Reading → List Char → Prop
  | item {r : Reading} {cs : List Char} (h : SpellsItem r cs) : Spells r ('(' :: (cs ++ [')']))
  | and {parts : List Reading} {cs : List Char} (h : SpellsAll parts cs) :
      Spells (.and parts) ('(' :: '&' :: (cs ++ [')']))
  | or {parts : List Reading} {cs : List Char} (h : SpellsAll parts cs) :
      Spells (.or parts) ('(' :: '|' :: (cs ++ [')']))
  | not {part : Reading} {cs : List Char} (h : Spells part cs) :
      Spells (.not part) ('(' :: '!' :: (cs ++ [')']))

inductive SpellsAll : List Reading → List Char → Prop
  | nil : SpellsAll [] []
  | cons {part : Reading} {parts : List Reading} {cs ds : List Char} (h : Spells part cs)
      (hs : SpellsAll parts ds) : SpellsAll (part :: parts) (cs ++ ds)
end

/-! ### Values -/

/-- A value is read exactly as it is spelled. -/
theorem value?_eq_some_iff {cs : List Char} {value : List UInt8} :
    value? cs = some value ↔ SpellsValue value cs := by
  constructor
  · intro h
    induction cs using value?.induct generalizing value with
    | case1 =>
      cases h
      exact .nil
    | case2 high low cs ih =>
      simp only [value?, Option.bind_eq_bind, Option.bind_eq_some_iff] at h
      obtain ⟨m, hm, n, hn, rest, hrest, hvalue⟩ := h
      cases hvalue
      exact .escaped hm hn (ih hrest)
    | case3 c cs hesc hc ih =>
      rw [value?.eq_3 c cs hesc, if_pos hc] at h
      obtain ⟨rest, hrest, rfl⟩ := Option.map_eq_some_iff.1 h
      exact .plain hc (ih hrest)
    | case4 c cs hesc hc =>
      rw [value?.eq_3 c cs hesc, if_neg hc] at h
      simp at h
  · intro h
    induction h with
    | nil => rfl
    | @plain c cs value hc _ ih =>
      have hesc : ∀ high low ds, c = '\\' → cs = high :: low :: ds → False := fun _ _ _ e _ => by
        subst e
        exact absurd hc (by decide)
      rw [value?.eq_3 c cs hesc, if_pos hc, ih]
      rfl
    | escaped hm hn _ ih =>
      rw [value?, hm, hn, ih]
      rfl

theorem ne_of_passes {p : Char → Bool} {c d : Char} (hc : p c = true) (hd : p d = false) :
    c ≠ d := by
  rintro rfl
  rw [hc] at hd
  cases hd

theorem isPlain_iff {c : Char} :
    isPlain c = true ↔ c ≠ '\x00' ∧ c ≠ '(' ∧ c ≠ ')' ∧ c ≠ '*' ∧ c ≠ '\\' := by
  simp [isPlain]

/-- Characters that pass a test which the special ones do not pass are plain. -/
theorem isPlain_of_passes {p : Char → Bool} {c : Char} (hc : p c = true)
    (h : ['\x00', '(', ')', '*', '\\'].all (fun d => !p d) = true) : isPlain c = true := by
  simp only [List.all_cons, List.all_nil, Bool.and_true, Bool.and_eq_true, Bool.not_eq_true'] at h
  rw [isPlain_iff]
  exact ⟨ne_of_passes hc h.1, ne_of_passes hc h.2.1, ne_of_passes hc h.2.2.1,
    ne_of_passes hc h.2.2.2.1, ne_of_passes hc h.2.2.2.2⟩

theorem isPlain_of_hexadecimal {c : Char} {n : Nat} (h : Text.Hexadecimal.value? c = some n) :
    isPlain c = true := by
  have hsome : (Text.Hexadecimal.value? c).isSome = true := by rw [h]; rfl
  exact isPlain_of_passes (p := fun c => (Text.Hexadecimal.value? c).isSome) hsome (by decide)

/-- The characters of a value are plain ones and backslashes. -/
theorem SpellsValue.isPlain {value : List UInt8} {cs : List Char} (h : SpellsValue value cs) :
    ∀ c ∈ cs, isPlain c = true ∨ c = '\\' := by
  induction h with
  | nil => simp
  | plain hc _ ih =>
    rintro c (_ | ⟨_, hmem⟩)
    · exact Or.inl hc
    · exact ih c hmem
  | escaped hm hn _ ih =>
    intro c hmem
    simp only [List.mem_cons] at hmem
    rcases hmem with rfl | rfl | rfl | hmem
    · exact Or.inr rfl
    · exact Or.inl (isPlain_of_hexadecimal hm)
    · exact Or.inl (isPlain_of_hexadecimal hn)
    · exact ih c hmem

theorem SpellsValue.not_mem {value : List UInt8} {cs : List Char} {c : Char}
    (h : SpellsValue value cs) (hc : Reading.isPlain c = false) (hne : c ≠ '\\') : c ∉ cs := by
  intro hmem
  rcases h.isPlain c hmem with hplain | rfl
  · simp [hc] at hplain
  · exact hne rfl

/-! ### Attributes -/

theorem mem_intercalate {sep c : Char} {parts : List (List Char)}
    (h : c ∈ [sep].intercalate parts) : c = sep ∨ ∃ part ∈ parts, c ∈ part := by
  induction parts with
  | nil => simp [List.intercalate_nil] at h
  | cons part parts ih =>
    cases parts with
    | nil =>
      rw [List.intercalate_singleton] at h
      exact Or.inr ⟨part, List.mem_singleton.2 rfl, h⟩
    | cons next parts =>
      rw [List.intercalate_cons_cons, List.mem_append, List.mem_append, List.mem_singleton] at h
      rcases h with (h | h) | h
      · exact Or.inr ⟨part, List.mem_cons_self, h⟩
      · exact Or.inl h
      · rcases ih h with h | ⟨other, hother, h⟩
        · exact Or.inl h
        · exact Or.inr ⟨other, List.mem_cons_of_mem _ hother, h⟩

def isAttributeChar (c : Char) : Bool :=
  Attribute.isKeyChar c || c = '.' || c = ';'

theorem isAttributeChar_of_descriptor {cs : List Char} (h : Attribute.isDescriptor cs = true) :
    ∀ c ∈ cs, isAttributeChar c = true := by
  cases cs with
  | nil => simp
  | cons d ds =>
    simp only [Attribute.isDescriptor, Bool.and_eq_true, List.all_eq_true] at h
    intro c hmem
    rcases List.mem_cons.1 hmem with rfl | hmem
    · simp [isAttributeChar, Attribute.isKeyChar, Char.isAlphanum, h.1]
    · simp [isAttributeChar, h.2 c hmem]

theorem isDigit_of_arc {cs : List Char} (h : Attribute.isArc cs = true) :
    ∀ c ∈ cs, c.isDigit = true := by
  unfold Attribute.isArc at h
  split at h
  · simp at h
  · simp
  · simp at h
  · exact List.all_eq_true.1 h

theorem isAttributeChar_of_numericOid {cs : List Char} (h : Attribute.isNumericOid cs = true) :
    ∀ c ∈ cs, isAttributeChar c = true := by
  simp only [Attribute.isNumericOid, Bool.and_eq_true, List.all_eq_true] at h
  intro c hmem
  have hjoin : ['.'].intercalate (cs.splitOn '.') = cs := List.intercalate_splitOn '.'
  rw [← hjoin] at hmem
  rcases mem_intercalate hmem with rfl | ⟨arc, harc, hmem⟩
  · rfl
  · simp [isAttributeChar, Attribute.isKeyChar, Char.isAlphanum,
      isDigit_of_arc (h.2 arc harc) c hmem]

/-- The characters of an attribute description. -/
theorem isAttributeChar_of_description {attr : String}
    (h : Attribute.isDescription attr = true) : ∀ c ∈ attr.toList, isAttributeChar c = true := by
  unfold Attribute.isDescription at h
  split at h
  · simp at h
  · next base options hsplit =>
    simp only [Bool.and_eq_true, Bool.or_eq_true, List.all_eq_true] at h
    intro c hmem
    have hjoin : [';'].intercalate (attr.toList.splitOn ';') = attr.toList :=
      List.intercalate_splitOn ';'
    rw [← hjoin, hsplit] at hmem
    rcases mem_intercalate hmem with rfl | ⟨part, hpart, hchar⟩
    · rfl
    rcases List.mem_cons.1 hpart with rfl | hpart
    · rcases h.1 with hbase | hbase
      · exact isAttributeChar_of_descriptor hbase c hchar
      · exact isAttributeChar_of_numericOid hbase c hchar
    · have hoption := h.2 part hpart
      simp only [Attribute.isOption, Bool.and_eq_true, List.all_eq_true] at hoption
      simp [isAttributeChar, hoption.2 c hchar]

theorem isAttributeChar_of_rule {rule : String} (h : isRule rule = true) :
    ∀ c ∈ rule.toList, isAttributeChar c = true := by
  rcases Bool.or_eq_true_iff.1 h with h | h
  · exact isAttributeChar_of_descriptor h
  · exact isAttributeChar_of_numericOid h

theorem isAttributeChar_of_isDn {dn : List Char} (h : isDn dn = true) :
    ∀ c ∈ dn, isAttributeChar c = true := by
  simp only [isDn, List.contains_iff_mem] at h
  have hall : ∀ dn ∈ [['d', 'n'], ['d', 'N'], ['D', 'n'], ['D', 'N']],
      dn.all isAttributeChar = true := by decide
  exact List.all_eq_true.1 (hall dn h)

/-- A description is not empty. -/
theorem toList_ne_nil_of_description {attr : String} (h : Attribute.isDescription attr = true) :
    attr.toList ≠ [] := by
  intro hnil
  simp [Attribute.isDescription, hnil, Attribute.isDescriptor, Attribute.isNumericOid] at h

/-! ### Items -/

theorem attribute?_eq_some_iff {cs : List Char} {attr : String} :
    attribute? cs = some attr ↔ cs = attr.toList ∧ Attribute.isDescription attr = true := by
  unfold attribute?
  split
  · next h =>
    rw [Option.some.injEq]
    constructor
    · rintro rfl
      exact ⟨String.toList_ofList.symm, h⟩
    · rintro ⟨rfl, -⟩
      exact String.ofList_toList
  · next h =>
    constructor
    · simp
    · rintro ⟨rfl, hattr⟩
      rw [String.ofList_toList] at h
      exact absurd hattr h

theorem rule?_eq_some_iff {cs : List Char} {rule : String} :
    rule? cs = some rule ↔ cs = rule.toList ∧ isRule rule = true := by
  unfold rule?
  split
  · next h =>
    rw [Option.some.injEq]
    constructor
    · rintro rfl
      exact ⟨String.toList_ofList.symm, by rw [isRule, String.toList_ofList]; exact h⟩
    · rintro ⟨rfl, -⟩
      exact String.ofList_toList
  · next h =>
    constructor
    · simp
    · rintro ⟨rfl, hrule⟩
      exact absurd hrule h

theorem spellsTarget_of_extensible? {value : List UInt8} {parts : List (List Char)} {r : Reading}
    (h : extensible? value parts = some r) :
    ∃ attr dn rule, SpellsTarget attr dn rule parts ∧ r = .extensible attr dn rule value := by
  unfold extensible? at h
  split at h
  · simp only [Option.map_eq_some_iff, attribute?_eq_some_iff] at h
    obtain ⟨attr, ⟨rfl, hattr⟩, rfl⟩ := h
    exact ⟨_, _, _, .attr hattr, rfl⟩
  · simp only [Option.map_eq_some_iff, rule?_eq_some_iff] at h
    obtain ⟨rule, ⟨rfl, hrule⟩, rfl⟩ := h
    exact ⟨_, _, _, .rule hrule, rfl⟩
  · next part _ =>
    simp only [Option.bind_eq_bind, Option.bind_eq_some_iff, attribute?_eq_some_iff] at h
    obtain ⟨attr, ⟨rfl, hattr⟩, h⟩ := h
    by_cases hdn : isDn part = true
    · rw [if_pos hdn] at h
      cases h
      exact ⟨_, _, _, .attrDn hattr hdn, rfl⟩
    · rw [if_neg hdn] at h
      simp only [Option.bind_eq_some_iff, rule?_eq_some_iff] at h
      obtain ⟨rule, ⟨rfl, hrule⟩, h⟩ := h
      cases h
      exact ⟨_, _, _, .attrRule hattr ((Bool.not_eq_true _).mp hdn) hrule, rfl⟩
  · simp only [Option.bind_eq_bind, Option.bind_eq_some_iff, rule?_eq_some_iff,
      Option.guard_eq_some'] at h
    obtain ⟨_, hdn, rule, ⟨rfl, hrule⟩, h⟩ := h
    cases h
    exact ⟨_, _, _, .dnRule hdn hrule, rfl⟩
  · simp only [Option.bind_eq_bind, Option.bind_eq_some_iff, rule?_eq_some_iff,
      attribute?_eq_some_iff, Option.guard_eq_some'] at h
    obtain ⟨_, hdn, attr, ⟨rfl, hattr⟩, rule, ⟨rfl, hrule⟩, h⟩ := h
    cases h
    exact ⟨_, _, _, .attrDnRule hattr hdn hrule, rfl⟩
  · simp at h

theorem extensible?_of_spellsTarget {value : List UInt8} {parts : List (List Char)}
    {attr rule : Option String} {dn : Bool} (h : SpellsTarget attr dn rule parts) :
    extensible? value parts = some (.extensible attr dn rule value) := by
  have hattribute : ∀ {attr : String}, Attribute.isDescription attr = true →
      attribute? attr.toList = some attr := fun h => attribute?_eq_some_iff.2 ⟨rfl, h⟩
  have hident : ∀ {rule : String}, isRule rule = true → rule? rule.toList = some rule :=
    fun h => rule?_eq_some_iff.2 ⟨rfl, h⟩
  cases h with
  | attr hattr => simp [extensible?, hattribute hattr]
  | rule hrule => simp [extensible?, hident hrule]
  | attrDn hattr hdn =>
    rw [extensible?.eq_3 _ _ _ (toList_ne_nil_of_description hattr), hattribute hattr]
    simp [hdn]
  | attrRule hattr hdn hrule =>
    rw [extensible?.eq_3 _ _ _ (toList_ne_nil_of_description hattr), hattribute hattr]
    simp [hdn, hident hrule]
  | attrDnRule hattr hdn hrule =>
    rw [extensible?.eq_5 _ _ _ _ (toList_ne_nil_of_description hattr), hattribute hattr]
    simp [hdn, hident hrule]
  | dnRule hdn hrule => simp [extensible?, hdn, hident hrule]

/-- The parts in front of a value are read exactly as they are spelled. -/
theorem extensible?_eq_some_iff {value : List UInt8} {parts : List (List Char)} {r : Reading} :
    extensible? value parts = some r ↔
      ∃ attr dn rule, SpellsTarget attr dn rule parts ∧ r = .extensible attr dn rule value := by
  constructor
  · exact spellsTarget_of_extensible?
  · rintro ⟨attr, dn, rule, h, rfl⟩
    exact extensible?_of_spellsTarget h

/-- A comparison is read exactly as its two sides are spelled. -/
theorem compare?_eq_some_iff {comparison : Comparison} {left text : List Char} {r : Reading} :
    compare? comparison left text = some r ↔ ∃ attr value, left = attr.toList ∧
      Attribute.isDescription attr = true ∧ SpellsValue value text ∧
      r = .compare comparison attr value := by
  unfold compare?
  simp only [Option.bind_eq_bind, Option.bind_eq_some_iff, attribute?_eq_some_iff,
    value?_eq_some_iff]
  constructor
  · rintro ⟨attr, ⟨rfl, hattr⟩, value, hvalue, h⟩
    cases h
    exact ⟨attr, value, rfl, hattr, hvalue, rfl⟩
  · rintro ⟨attr, value, rfl, hattr, hvalue, rfl⟩
    exact ⟨attr, ⟨rfl, hattr⟩, value, hvalue, rfl⟩

/-- The runs between asterisks are read exactly as they are spelled. -/
theorem mapM_value?_eq_some_iff {texts : List (List Char)} {runs : List (List UInt8)} :
    texts.mapM value? = some runs ↔ List.Forall₂ SpellsValue runs texts := by
  induction texts generalizing runs with
  | nil => simp [eq_comm]
  | cons text texts ih =>
    simp only [List.mapM_cons, Option.bind_eq_bind, Option.bind_eq_some_iff, value?_eq_some_iff, ih]
    constructor
    · rintro ⟨run, hrun, runs, hruns, h⟩
      cases h
      exact .cons hrun hruns
    · rintro (_ | ⟨hrun, hruns⟩)
      exact ⟨_, hrun, _, hruns, rfl⟩

theorem exists_spellsValue_of_mem {texts : List (List Char)} {runs : List (List UInt8)}
    (h : List.Forall₂ SpellsValue runs texts) : ∀ text ∈ texts, ∃ run, SpellsValue run text := by
  induction h with
  | nil => simp
  | cons hrun _ ih =>
    rw [List.forall_mem_cons]
    exact ⟨⟨_, hrun⟩, ih⟩

theorem simple?_eq_compare? {left text : List Char} (h : '*' ∉ text) :
    simple? left text = compare? .equal left text := by
  have hne : text ≠ ['*'] := fun e => h (e ▸ List.mem_singleton.2 rfl)
  rw [simple?, if_neg hne, List.splitOn_eq_singleton h]

theorem spellsItem_of_simple? {left text : List Char} {r : Reading}
    (h : simple? left text = some r) : SpellsItem r (left ++ '=' :: text) := by
  have hsplit : ['*'].intercalate (text.splitOn '*') = text := List.intercalate_splitOn '*'
  unfold simple? at h
  by_cases hstar : text = ['*']
  · rw [if_pos hstar] at h
    simp only [Option.bind_eq_bind, Option.bind_eq_some_iff, attribute?_eq_some_iff] at h
    obtain ⟨attr, ⟨rfl, hattr⟩, h⟩ := h
    cases h
    rw [hstar]
    exact .present hattr
  rw [if_neg hstar] at h
  split at h
  · next part hpart =>
    rw [hpart, List.intercalate_singleton] at hsplit
    subst hsplit
    obtain ⟨attr, value, rfl, hattr, hvalue, rfl⟩ := compare?_eq_some_iff.1 h
    simpa [sign] using SpellsItem.compare .equal hattr hvalue
  · next hmany =>
    simp only [Option.bind_eq_bind, Option.bind_eq_some_iff, attribute?_eq_some_iff,
      mapM_value?_eq_some_iff] at h
    obtain ⟨attr, ⟨rfl, hattr⟩, runs, hruns, h⟩ := h
    cases h
    have hlength : 2 ≤ (text.splitOn '*').length := by
      match hparts : text.splitOn '*' with
      | [] => exact absurd hparts (List.splitOn_ne_nil _ _)
      | [part] => exact absurd hparts (hmany part)
      | _ :: _ :: _ => simp
    have hne : text.splitOn '*' ≠ [[], []] := by
      intro hempty
      rw [hempty] at hsplit
      exact hstar hsplit.symm
    rw [← hsplit]
    exact .substrings hattr hlength hne hruns

/-- What the sides of an equals sign are read as is spelled by them. -/
theorem spellsItem_of_sides? {left text : List Char} {r : Reading}
    (h : sides? left text = some r) : SpellsItem r (left ++ '=' :: text) := by
  have hcompare : ∀ (comparison : Comparison) {c : Char}, sign comparison = [c] →
      left.getLast? = some c → compare? comparison left.dropLast text = some r →
      SpellsItem r (left ++ '=' :: text) := by
    intro comparison c hsign hlast h
    obtain ⟨attr, value, hleft, hattr, hvalue, rfl⟩ := compare?_eq_some_iff.1 h
    rw [← List.dropLast_append_getLast? c hlast, hleft, ← hsign]
    exact .compare comparison hattr hvalue
  unfold sides? at h
  split at h
  · next hlast => exact hcompare .approximate rfl hlast h
  · next hlast => exact hcompare .greaterOrEqual rfl hlast h
  · next hlast => exact hcompare .lessOrEqual rfl hlast h
  · next hlast =>
    simp only [Option.bind_eq_bind, Option.bind_eq_some_iff, value?_eq_some_iff,
      extensible?_eq_some_iff] at h
    obtain ⟨value, hvalue, attr, dn, rule, htarget, rfl⟩ := h
    have hitem := SpellsItem.extensible htarget hvalue
    rw [List.intercalate_splitOn] at hitem
    rw [← List.dropLast_append_getLast? ':' hlast]
    simpa using hitem
  · exact spellsItem_of_simple? h

/-- The equals sign of an item is the first one. -/
theorem item?_append {left text : List Char} (h : '=' ∉ left) :
    item? (left ++ '=' :: text) = sides? left text := by
  have hleft : ∀ c ∈ left, decide (c ≠ '=') = true := by
    intro c hc
    simp only [decide_eq_true_eq]
    rintro rfl
    exact h hc
  rw [item?, List.dropWhile_append_of_pos hleft, List.takeWhile_append_of_pos hleft]
  simp

theorem spellsItem_of_item? {cs : List Char} {r : Reading} (h : item? cs = some r) :
    SpellsItem r cs := by
  unfold item? at h
  split at h
  · simp at h
  · next c text hdrop =>
    obtain ⟨hc, hcs⟩ := eq_append_of_dropWhile hdrop
    have hc : c = '=' := by simpa using hc
    rw [hcs, hc]
    exact spellsItem_of_sides? h

theorem not_mem_of_isAttributeChar {cs : List Char} {c : Char}
    (h : ∀ d ∈ cs, isAttributeChar d = true) (hc : isAttributeChar c = false) : c ∉ cs := by
  intro hmem
  rw [h c hmem] at hc
  cases hc

theorem not_mem_description {attr : String} {c : Char} (h : Attribute.isDescription attr = true)
    (hc : isAttributeChar c = false) : c ∉ attr.toList :=
  not_mem_of_isAttributeChar (isAttributeChar_of_description h) hc

/-- The last character of a description tells of no other kind of test. -/
theorem sides?_description {attr : String} {text : List Char}
    (h : Attribute.isDescription attr = true) :
    sides? attr.toList text = simple? attr.toList text := by
  have hlast : ∀ {c : Char}, isAttributeChar c = false → attr.toList.getLast? = some c → False := by
    intro c hc hlast
    exact not_mem_description h hc (List.mem_of_getLast? hlast)
  unfold sides?
  split
  · next h => exact (hlast (by decide) h).elim
  · next h => exact (hlast (by decide) h).elim
  · next h => exact (hlast (by decide) h).elim
  · next h => exact (hlast (by decide) h).elim
  · rfl

/-- The parts in front of a value have the characters of attributes only. -/
theorem SpellsTarget.isAttributeChar {attr rule : Option String} {dn : Bool}
    {parts : List (List Char)} (h : SpellsTarget attr dn rule parts) :
    ∀ part ∈ parts, ∀ c ∈ part, isAttributeChar c = true := by
  have hnil : ∀ part ∈ ([] : List (List Char)), ∀ c ∈ part, Reading.isAttributeChar c = true := by
    simp
  have hempty : ∀ c ∈ ([] : List Char), Reading.isAttributeChar c = true := by simp
  cases h with
  | attr hattr =>
    rw [List.forall_mem_cons]
    exact ⟨isAttributeChar_of_description hattr, hnil⟩
  | attrDn hattr hdn =>
    rw [List.forall_mem_cons, List.forall_mem_cons]
    exact ⟨isAttributeChar_of_description hattr, isAttributeChar_of_isDn hdn, hnil⟩
  | attrRule hattr _ hrule =>
    rw [List.forall_mem_cons, List.forall_mem_cons]
    exact ⟨isAttributeChar_of_description hattr, isAttributeChar_of_rule hrule, hnil⟩
  | attrDnRule hattr hdn hrule =>
    rw [List.forall_mem_cons, List.forall_mem_cons, List.forall_mem_cons]
    exact ⟨isAttributeChar_of_description hattr, isAttributeChar_of_isDn hdn,
      isAttributeChar_of_rule hrule, hnil⟩
  | rule hrule =>
    rw [List.forall_mem_cons, List.forall_mem_cons]
    exact ⟨hempty, isAttributeChar_of_rule hrule, hnil⟩
  | dnRule hdn hrule =>
    rw [List.forall_mem_cons, List.forall_mem_cons, List.forall_mem_cons]
    exact ⟨hempty, isAttributeChar_of_isDn hdn, isAttributeChar_of_rule hrule, hnil⟩

theorem SpellsTarget.ne_nil {attr rule : Option String} {dn : Bool} {parts : List (List Char)}
    (h : SpellsTarget attr dn rule parts) : parts ≠ [] := by
  cases h <;> simp

theorem item?_compare (comparison : Comparison) {attr : String} {text : List Char}
    {value : List UInt8} (hattr : Attribute.isDescription attr = true)
    (hvalue : SpellsValue value text) :
    item? (attr.toList ++ sign comparison ++ '=' :: text) =
      some (.compare comparison attr value) := by
  have hleft : '=' ∉ attr.toList ++ sign comparison := by
    rw [List.mem_append, not_or]
    refine ⟨not_mem_description hattr (by decide), ?_⟩
    cases comparison <;> decide
  have hread : compare? comparison attr.toList text = some (.compare comparison attr value) :=
    compare?_eq_some_iff.2 ⟨attr, value, rfl, hattr, hvalue, rfl⟩
  rw [item?_append hleft]
  cases comparison with
  | equal =>
    rw [sign, List.append_nil, sides?_description hattr,
      simple?_eq_compare? (hvalue.not_mem (by decide) (by decide)), hread]
  | _ => simpa [sides?, sign] using hread

theorem item?_substrings {attr : String} {texts : List (List Char)} {runs : List (List UInt8)}
    (hattr : Attribute.isDescription attr = true) (hlength : 2 ≤ texts.length)
    (hne : texts ≠ [[], []]) (hruns : List.Forall₂ SpellsValue runs texts) :
    item? (attr.toList ++ '=' :: ['*'].intercalate texts) = some (.substrings attr runs) := by
  have hstar : ∀ text ∈ texts, '*' ∉ text := by
    intro text htext
    obtain ⟨run, hrun⟩ := exists_spellsValue_of_mem hruns text htext
    exact hrun.not_mem (by decide) (by decide)
  have hnil : texts ≠ [] := List.ne_nil_of_length_pos (by omega)
  have hsplit := List.splitOn_intercalate '*' hstar hnil
  have htext : ['*'].intercalate texts ≠ ['*'] := by
    intro h
    rw [h] at hsplit
    exact hne (hsplit.symm.trans rfl)
  rw [item?_append (not_mem_description hattr (by decide)), sides?_description hattr, simple?,
    if_neg htext, hsplit]
  match texts, hlength with
  | first :: second :: rest, _ =>
    simp [attribute?_eq_some_iff.2 ⟨rfl, hattr⟩, mapM_value?_eq_some_iff.2 hruns]

theorem item?_extensible {attr rule : Option String} {dn : Bool} {parts : List (List Char)}
    {text : List Char} {value : List UInt8} (htarget : SpellsTarget attr dn rule parts)
    (hvalue : SpellsValue value text) :
    item? ([':'].intercalate parts ++ ':' :: '=' :: text) =
      some (.extensible attr dn rule value) := by
  have hchars := htarget.isAttributeChar
  have hleft : '=' ∉ [':'].intercalate parts ++ [':'] := by
    rw [List.mem_append, not_or]
    refine ⟨fun hmem => ?_, by decide⟩
    rcases mem_intercalate hmem with h | ⟨part, hpart, hmem⟩
    · exact absurd h (by decide)
    · exact not_mem_of_isAttributeChar (hchars part hpart) (by decide) hmem
  have hcolon : ∀ part ∈ parts, ':' ∉ part := by
    intro part hpart
    exact not_mem_of_isAttributeChar (hchars part hpart) (by decide)
  rw [List.append_cons, item?_append hleft]
  simp [sides?, List.splitOn_intercalate ':' hcolon htarget.ne_nil,
    value?_eq_some_iff.2 hvalue, extensible?_of_spellsTarget htarget]

theorem item?_of_spellsItem {cs : List Char} {r : Reading} (h : SpellsItem r cs) :
    item? cs = some r := by
  cases h with
  | compare comparison hattr hvalue => exact item?_compare comparison hattr hvalue
  | present hattr =>
    rw [item?_append (not_mem_description hattr (by decide)), sides?_description hattr, simple?,
      if_pos rfl, attribute?_eq_some_iff.2 ⟨rfl, hattr⟩]
    rfl
  | substrings hattr hlength hne hruns => exact item?_substrings hattr hlength hne hruns
  | extensible htarget hvalue => exact item?_extensible htarget hvalue

/-- A single test is read exactly as it is spelled. -/
theorem item?_eq_some_iff {cs : List Char} {r : Reading} :
    item? cs = some r ↔ SpellsItem r cs :=
  ⟨spellsItem_of_item?, item?_of_spellsItem⟩

end LdapFilter.Reading
