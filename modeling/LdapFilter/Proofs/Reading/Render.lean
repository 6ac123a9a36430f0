import LdapFilter.Filter.Render
import LdapFilter.Proofs.AssertionValue
import LdapFilter.Proofs.Query.Acceptance
import LdapFilter.Proofs.Reading.Exact

/-!
# Reading rendered filters

What the text of a filter is read as, when its attributes are descriptions and its values are
escaped: the filter itself, with an absence as a negated presence and a nor group as the group of
all its members (`read?_render_and_isInert`). Nothing in an attribute or a value can end the test
that it stands in, or start another one.
-/

namespace LdapFilter

open Reading

/-! ### Readings of filters -/

namespace Test

/-- The text that a test compares with, or that names the entry at the end of a chain. -/
def operand? : Test → Option String
  | .equal _ text | .inChain _ text => some text
  | .absent _ | .bitwise _ _ _ => none

/-- Whether the attribute of a test is a description, and its value an escaped one. -/
def IsInert : Test → Prop
  | .equal attr value => Attribute.isDescription attr = true ∧ ∃ v, value = AssertionValue.escape v
  | .absent attr | .bitwise _ attr _ => Attribute.isDescription attr = true
  | .inChain attr entry =>
    Attribute.isDescription attr = true ∧ ∃ v, entry = AssertionValue.escape v

def reading : Test → Reading
  | .equal attr value => .compare .equal attr (octets (AssertionValue.unescape value).toList)
  | .absent attr => .not (.present attr)
  | .bitwise rule attr mask => .extensible (some attr) false (some rule.matchingRule.oid)
      (octets (Text.Decimal.ofInt mask.toInt))
  | .inChain attr entry => .extensible (some attr) false (some MatchingRule.inChain.oid)
      (octets (AssertionValue.unescape entry).toList)

/-- What a member of a nor group is read as. -/
def memberReading (t : Test) : Reading :=
  if t.isLiteral then .not t.reading else t.reading

end Test

namespace Filter

mutual
def reading : Filter → Reading
  | .test t => t.reading
  | .not t => .not t.reading
  | .and children _ => .and (readings children)
  | .or children _ => .or (readings children)
  | .nor members _ => .and (members.map Test.memberReading)

def readings : List Filter → List Reading
  | [] => []
  | f :: fs => f.reading :: readings fs
end

theorem readings_eq_map (fs : List Filter) : readings fs = fs.map reading := by
  induction fs with
  | nil => rfl
  | cons f fs ih => rw [readings, ih, List.map_cons]

/-- Whether all tests of a filter are inert. -/
def IsInert (f : Filter) : Prop :=
  ∀ t ∈ f.tests, t.IsInert

end Filter

/-! ### Spelled values -/

namespace Reading

theorem octets_cons (c : Char) (cs : List Char) :
    octets (c :: cs) = String.utf8EncodeChar c ++ octets cs := by
  rw [octets, List.flatMap_cons]
  rfl

/-- A character with a code less than 128 is a single octet. -/
theorem utf8EncodeChar_ofNat {n : Nat} (h : n < 128) :
    String.utf8EncodeChar (Char.ofNat n) = [UInt8.ofNat n] := by
  revert n
  decide

/-- An escaped value spells the octets of the value. -/
theorem spellsValue_escape (value : String) :
    SpellsValue (octets value.toList) (AssertionValue.escape value).toList := by
  rw [AssertionValue.escape, String.toList_ofList]
  induction value.toList with
  | nil => exact .nil
  | cons c cs ih =>
    rw [List.flatMap_cons, octets_cons]
    rcases AssertionValue.escapeChar_cases c with
      ⟨high, low, m, n, hescape, hm, hn, hc, hlt⟩ | ⟨hescape, hne⟩
    · have hoctet : String.utf8EncodeChar c = [UInt8.ofNat (16 * m + n)] := by
        rw [hc]
        exact utf8EncodeChar_ofNat hlt
      rw [hescape, hoctet]
      exact .escaped hm hn ih
    · have hplain : isPlain c = true := isPlain_iff.2 ⟨hne _ (by decide), hne _ (by decide),
        hne _ (by decide), hne _ (by decide), hne _ (by decide)⟩
      rw [hescape]
      exact .plain hplain ih

/-- Plain characters spell their own octets. -/
theorem spellsValue_octets {cs : List Char} (h : ∀ c ∈ cs, isPlain c = true) :
    SpellsValue (octets cs) cs := by
  induction cs with
  | nil => exact .nil
  | cons c cs ih =>
    rw [octets_cons]
    exact .plain (h c List.mem_cons_self) (ih fun d hd => h d (List.mem_cons_of_mem c hd))

/-- The digits of a number are plain characters. -/
theorem isPlain_of_mem_decimal {n : Int} {c : Char} (h : c ∈ Text.Decimal.ofInt n) :
    isPlain c = true := by
  have hdigit : ∀ {m : Nat}, c ∈ Text.Decimal.ofNat m → isPlain c = true := fun hc =>
    isPlain_of_passes (Nat.isDigit_of_mem_toDigits (by decide) (by decide) hc) (by decide)
  cases n with
  | ofNat m => exact hdigit h
  | negSucc m =>
    rcases List.mem_cons.1 h with rfl | hc
    · decide
    · exact hdigit hc

/-- A test by a matching rule is spelled by the attribute, the rule and the value. -/
theorem spells_property {attr text : String} {value : List UInt8} (rule : MatchingRule)
    (hattr : Attribute.isDescription attr = true) (hvalue : SpellsValue value text.toList) :
    Spells (.extensible (some attr) false (some rule.oid) value)
      ("(" ++ rule.property attr ++ "=" ++ text ++ ")").toList := by
  have hrule : isRule rule.oid = true ∧ isDn rule.oid.toList = false := by
    cases rule <;> decide
  have hitem := SpellsItem.extensible (.attrRule hattr hrule.2 hrule.1) hvalue
  have hspells := Spells.item hitem
  simpa [MatchingRule.property, List.intercalate_cons_cons] using hspells

end Reading

/-! ### Spelled filters -/

/-- The text of a test spells what it is read as. -/
theorem Test.spells_render {t : Test} (h : t.IsInert) : Spells t.reading t.render.toList := by
  cases t with
  | equal attr value =>
    obtain ⟨hattr, v, rfl⟩ := h
    have hitem := SpellsItem.compare .equal hattr (spellsValue_escape v)
    have hspells := Spells.item hitem
    simpa [reading, render, property, sign, AssertionValue.unescape_escape] using hspells
  | absent attr =>
    have hspells := Spells.not (.item (.present h))
    simpa [reading, render, property] using hspells
  | bitwise rule attr mask =>
    have hvalue := spellsValue_octets fun c hc => isPlain_of_mem_decimal (n := mask.toInt) hc
    rw [← String.toList_ofList (l := Text.Decimal.ofInt mask.toInt)] at hvalue
    simpa [reading, render, property, Text.Decimal.text] using
      spells_property rule.matchingRule h hvalue
  | inChain attr entry =>
    obtain ⟨hattr, v, rfl⟩ := h
    rw [reading, AssertionValue.unescape_escape]
    exact spells_property .inChain hattr (spellsValue_escape v)

theorem Test.spells_renderNegated {t : Test} (h : t.IsInert) :
    Spells (.not t.reading) t.renderNegated.toList := by
  have hspells := Spells.not (Test.spells_render h)
  simpa [renderNegated] using hspells

theorem Test.spells_renderMember {t : Test} (h : t.IsInert) :
    Spells t.memberReading t.renderMember.toList := by
  unfold memberReading renderMember
  split
  · exact Test.spells_renderNegated h
  · exact Test.spells_render h

theorem Test.spellsAll_renderMembers {ts : List Test} (h : ∀ t ∈ ts, t.IsInert) :
    SpellsAll (ts.map memberReading) (renderMembers ts).toList := by
  induction ts with
  | nil => simpa [renderMembers] using SpellsAll.nil
  | cons t ts ih =>
    rw [List.forall_mem_cons] at h
    rw [List.map_cons, renderMembers, String.toList_append]
    exact .cons (Test.spells_renderMember h.1) (ih h.2)

namespace Filter

mutual
/-- The text of an inert filter spells what the filter is read as. -/
theorem spells_render {f : Filter} (h : f.IsInert) : Spells f.reading f.render.toList := by
  match f with
  | .test t =>
    rw [reading, render]
    exact Test.spells_render (h t (List.mem_singleton.2 rfl))
  | .not t =>
    rw [reading, render]
    exact Test.spells_renderNegated (h t (List.mem_singleton.2 rfl))
  | .and children _ =>
    have hspells := Spells.and (spellsAll_renderAll h)
    simpa [reading, render] using hspells
  | .or children _ =>
    have hspells := Spells.or (spellsAll_renderAll h)
    simpa [reading, render] using hspells
  | .nor members _ =>
    have hmembers : ∀ t ∈ members, t.IsInert := h
    have hspells := Spells.and (Test.spellsAll_renderMembers hmembers)
    simpa [reading, render] using hspells

/-- The texts of inert filters spell what the filters are read as. -/
theorem spellsAll_renderAll {fs : List Filter} (h : ∀ t ∈ allTests fs, t.IsInert) :
    SpellsAll (readings fs) (renderAll fs).toList := by
  match fs with
  | [] => simpa [readings, renderAll] using SpellsAll.nil
  | f :: fs =>
    rw [allTests, List.forall_mem_append] at h
    rw [readings, renderAll, String.toList_append]
    exact .cons (spells_render h.1) (spellsAll_renderAll h.2)
end

end Filter

/-! ### Compiled filters -/

namespace Query

variable {o : Options} {key : String} {value : Json} {t : Test}

/-- The text of a number is its own escape. -/
theorem escape_decimal (n : Int) :
    AssertionValue.escape (Text.Decimal.text n) = Text.Decimal.text n := by
  apply AssertionValue.escape_eq_self_of_not_mem
  intro c hc hcode
  rw [Text.Decimal.text, String.toList_ofList] at hc
  obtain ⟨hzero, hopen, hclose, hstar, hbackslash⟩ := isPlain_iff.1 (isPlain_of_mem_decimal hc)
  simp only [AssertionValue.codes, List.map_cons, List.map_nil, List.mem_cons, List.not_mem_nil,
    or_false] at hcode
  rcases hcode with h | h | h | h | h
  · exact hstar h
  · exact hopen h
  · exact hclose h
  · exact hbackslash h
  · exact hzero h

/-- With escaping, a scalar is compared as the escape of what it is compared as without. -/
theorem ComparesAs.exists_escape {text : String} (hvalue : o.escapeValues = true)
    (h : ComparesAs o value text) :
    ∃ original, ComparesAs {} value original ∧ text = AssertionValue.escape original := by
  cases h with
  | null => exact ⟨_, .null, rfl⟩
  | string s => exact ⟨_, .string s, by rw [Options.operandText, if_pos hvalue]; rfl⟩
  | bool b => exact ⟨_, .bool b, by cases b <;> rfl⟩
  | number h => exact ⟨_, .number h, (escape_decimal _).symm⟩

/-- With escaping, the text that a test compares with is an escaped one. -/
theorem DenotesTest.exists_escape {text : String} (hvalue : o.escapeValues = true)
    (h : DenotesTest o key value t) (htext : t.operand? = some text) :
    ∃ v, text = AssertionValue.escape v := by
  cases h with
  | absent | bits => cases htext
  | equal _ _ hliteral =>
    cases htext
    obtain ⟨v, -, rfl⟩ := hliteral.exists_escape hvalue
    exact ⟨v, rfl⟩
  | chain entry =>
    cases htext
    exact ⟨entry, by simp [Options.operandText, hvalue]⟩

/-- With checked attributes and escaped values, what a pair stands for is inert. -/
theorem DenotesTest.isInert (hattr : o.validateAttributes = true) (hvalue : o.escapeValues = true)
    (h : DenotesTest o key value t) : t.IsInert := by
  have hdescription : Attribute.isDescription t.attr = true :=
    (Options.checkAttribute_eq_ok_iff.1 h.isAttribute.check).1 hattr
  cases t with
  | equal attr text => exact ⟨hdescription, h.exists_escape hvalue rfl⟩
  | absent | bitwise => exact hdescription
  | inChain attr entry => exact ⟨hdescription, h.exists_escape hvalue rfl⟩

theorem isInert_of_compile {d : Json} {f : Filter} (hattr : o.validateAttributes = true)
    (hvalue : o.escapeValues = true) (h : compile o d = .ok f) : f.IsInert := by
  intro t ht
  obtain ⟨p, hp⟩ := exists_denotesTest_of_compile h t ht
  exact hp.isInert hattr hvalue

end Query

/-! ### Rendering -/

theorem Filter.IsInert.andWith {f g : Filter} (hf : f.IsInert) (hg : g.IsInert) :
    (f.andWith g).IsInert := by
  intro t ht
  simp only [Filter.andWith, Filter.andOf, Filter.tests, Filter.allTests, List.append_nil,
    List.mem_append] at ht
  rcases ht with ht | ht
  · exact hf t ht
  · exact hg t ht

/-- The text of an inert filter is read to its end as this filter, and the grammar spells nothing
else by it. Compiled with checked attributes and escaped values, every filter is inert, and so are
combinations of such filters. -/
theorem read?_render_and_isInert :
    (∀ f : Filter, f.IsInert → read? f.render = some f.reading ∧
      ∀ r, Spells r f.render.toList ↔ r = f.reading) ∧
    (∀ (o : Options) (d : Json) (f : Filter), o.validateAttributes = true →
      o.escapeValues = true → Query.compile o d = .ok f → f.IsInert) ∧
    ∀ f g : Filter, f.IsInert → g.IsInert → (f.andWith g).IsInert := by
  refine ⟨fun f hf => ?_, fun o d f => Query.isInert_of_compile, fun f g => .andWith⟩
  have hspells := Filter.spells_render hf
  refine ⟨read?_eq_some_iff.2 hspells, fun r => ⟨fun hr => hr.unique hspells, ?_⟩⟩
  rintro rfl
  exact hspells

theorem read?_render_of_special_characters :
    (Filter.noneOf
        [.equal "cn" (AssertionValue.escape "*)(uid=*"), .bitwise .all "flags" 2]).IsInert ∧
    read? (Filter.noneOf
        [.equal "cn" (AssertionValue.escape "*)(uid=*"), .bitwise .all "flags" 2]).render =
      some (.and [.not (.compare .equal "cn" (octets "*)(uid=*".toList)),
        .extensible (some "flags") false (some "1.2.840.113556.1.4.803") (octets ['2'])]) := by
  have hinert : (Filter.noneOf
      [.equal "cn" (AssertionValue.escape "*)(uid=*"), .bitwise .all "flags" 2]).IsInert := by
    rintro t (_ | ⟨_, _ | ⟨_, _ | _⟩⟩)
    · exact ⟨by decide, _, rfl⟩
    · show Attribute.isDescription "flags" = true
      decide
  refine ⟨hinert, (read?_render_and_isInert.1 _ hinert).1.trans ?_⟩
  simp only [Filter.noneOf, Filter.reading, List.map, Test.memberReading, Test.isLiteral,
    Test.reading, AssertionValue.unescape_escape]
  rfl

end LdapFilter
