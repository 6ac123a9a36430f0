import LdapFilter.Proofs.Query.Guards

/-!
# The attributes that a text tests

The list of allowed attributes is checked against the keys of a document, but the directory sees
the text of the filter only. What it is asked to test there is the attribute of some pair, unless
values are embedded as they are and one of them has an opening parenthesis right before the name
that is read (`allowed_or_embedded_of_read?`).

A single test starts at an opening parenthesis, with a word of attribute characters and one of the
operator characters (`Spells.names`). So it is enough to know what stands after the opening
parentheses of a rendered text (`Opens`): they are those of the groups, of the tests, and of the
values.
-/

namespace LdapFilter

open Text

namespace Reading

variable {r : Reading} {cs ds : List Char} {c : Char}

/-! ### What is tested -/

mutual
/-- The attributes that the single tests of a reading are about. A test by a matching rule alone
names no attribute. -/
def targets : Reading → List (Option String)
  | .and parts | .or parts => allTargets parts
  | .not part => targets part
  | .compare _ attr _ | .present attr | .substrings attr _ => [some attr]
  | .extensible attr _ _ _ => [attr]

def allTargets : List Reading → List (Option String)
  | [] => []
  | part :: parts => targets part ++ allTargets parts
end

/-- The name of the attribute that a test is about; it is empty when no attribute is named. -/
def targetName (target : Option String) : List Char :=
  (target.getD "").toList

/-- The characters that may follow the name of the attribute in a test. -/
def operatorChars : List Char :=
  ['=', ':', '~', '<', '>']

/-- A text starts with the name of an attribute and an operator character. -/
structure Heads (name : List Char) (cs : List Char) : Prop where
  isAttributeChar : ∀ c ∈ name, isAttributeChar c = true
  exists_start : ∃ c ∈ operatorChars, name ++ [c] <+: cs

theorem heads_description {attr : String} (hattr : Attribute.isDescription attr = true)
    (hc : c ∈ operatorChars) : Heads (targetName (some attr)) (attr.toList ++ c :: cs) :=
  ⟨isAttributeChar_of_description hattr, c, hc, cs, by simp [targetName]⟩

theorem SpellsTarget.heads {attr rule : Option String} {dn : Bool} {parts : List (List Char)}
    (h : SpellsTarget attr dn rule parts) :
    Heads (targetName attr) ([':'].intercalate parts ++ ':' :: cs) := by
  have hcolon : ':' ∈ operatorChars := by decide
  cases h with
  | attr hattr =>
    rw [List.intercalate_singleton]
    exact heads_description hattr hcolon
  | attrDn hattr | attrRule hattr | attrDnRule hattr =>
    rw [List.intercalate_cons_cons, List.append_assoc, List.append_assoc]
    exact heads_description hattr hcolon
  | rule | dnRule =>
    rw [List.intercalate_cons_cons]
    exact ⟨by simp [targetName], ':', hcolon, _, rfl⟩

/-- A single test starts with the attribute that it is about. -/
theorem SpellsItem.exists_target (h : SpellsItem r cs) :
    ∃ target, r.targets = [target] ∧ Heads (targetName target) cs := by
  cases h with
  | @compare comparison attr text value hattr =>
    refine ⟨some attr, by rw [targets], ?_⟩
    rw [List.append_assoc]
    cases comparison with
    | equal | approximate | greaterOrEqual | lessOrEqual =>
      exact heads_description hattr (by decide)
  | @present attr hattr => exact ⟨some attr, by rw [targets], heads_description hattr (by decide)⟩
  | @substrings attr texts runs hattr =>
    exact ⟨some attr, by rw [targets], heads_description hattr (by decide)⟩
  | @extensible attr => exact ⟨attr, by rw [targets], SpellsTarget.heads ‹_›⟩

/-- An opening parenthesis stands in a text, with the name of an attribute and an operator character
right after it. -/
def Names (cs : List Char) (target : Option String) : Prop :=
  ∃ rest, '(' :: rest <:+: cs ∧ Heads (targetName target) rest

theorem Names.mono {target : Option String} (h : Names cs target) (hpart : cs <:+: ds) :
    Names ds target := by
  obtain ⟨rest, hrest, hheads⟩ := h
  exact ⟨rest, hrest.trans hpart, hheads⟩

mutual
/-- Whatever is tested in a text is named there after an opening parenthesis. -/
theorem Spells.names {r : Reading} {cs : List Char} (h : Spells r cs) :
    ∀ target ∈ r.targets, Names cs target := by
  match h with
  | .item h =>
    obtain ⟨target, htargets, hname, c, hc, hstart⟩ := h.exists_target
    rw [htargets, List.forall_mem_singleton]
    exact ⟨_, List.infix_rfl, hname, c, hc, hstart.trans (List.prefix_append ..)⟩
  | .and h | .or h =>
    rw [targets]
    intro target htarget
    exact (h.names target htarget).mono ⟨['(', _], [')'], rfl⟩
  | .not h =>
    rw [targets]
    intro target htarget
    exact (h.names target htarget).mono ⟨['(', '!'], [')'], rfl⟩

theorem SpellsAll.names {parts : List Reading} {cs : List Char} (h : SpellsAll parts cs) :
    ∀ target ∈ allTargets parts, Names cs target := by
  match h with
  | .nil => simp [allTargets]
  | .cons h hs =>
    rw [allTargets, List.forall_mem_append]
    constructor
    · intro target htarget
      exact (h.names target htarget).mono (List.prefix_append ..).isInfix
    · intro target htarget
      exact (hs.names target htarget).mono (List.suffix_append ..).isInfix
end

/-! ### What stands after opening parentheses -/

/-- A property of what stands after every opening parenthesis in a text, whatever follows the
text. -/
def AfterOpenings (P : List Char → Prop) (cs : List Char) : Prop :=
  ∀ rest more, '(' :: rest <:+ cs → P (rest ++ more)

section

variable {P : List Char → Prop}

theorem AfterOpenings.of_not_mem (h : '(' ∉ cs) : AfterOpenings P cs := by
  intro rest more hsuffix
  exact absurd (hsuffix.mem List.mem_cons_self) h

theorem AfterOpenings.opening (hP : ∀ more, P (cs ++ more)) (h : AfterOpenings P cs) :
    AfterOpenings P ('(' :: cs) := by
  intro rest more hsuffix
  rcases List.suffix_cons_iff.1 hsuffix with heq | hsuffix
  · rw [(List.cons.inj heq).2]
    exact hP more
  · exact h rest more hsuffix

theorem AfterOpenings.append (hcs : AfterOpenings P cs) (hds : AfterOpenings P ds) :
    AfterOpenings P (cs ++ ds) := by
  rintro rest more ⟨before, hbefore⟩
  rcases List.append_eq_append_iff.1 hbefore with ⟨middle, rfl, hmiddle⟩ | ⟨middle, rfl, hmiddle⟩
  · cases middle with
    | nil => exact hds rest more ⟨[], hmiddle⟩
    | cons c middle =>
      obtain ⟨rfl, rfl⟩ := List.cons.inj hmiddle
      have hP := hcs middle (ds ++ more) ⟨before, rfl⟩
      rwa [← List.append_assoc] at hP
  · exact hds rest more ⟨middle, hmiddle.symm⟩

end

/-! ### Names -/

/-- Letters that have a lower-case partner may stand in an attribute, and so may the partners. -/
theorem isAttributeChar_of_upper {c : Char} (h : 'A'.val ≤ c.val ∧ c.val ≤ 'Z'.val) :
    isAttributeChar c = true ∧ isAttributeChar c.toLower = true := by
  have hletters : ∀ n < 128, 'A'.val ≤ (Char.ofNat n).val ∧ (Char.ofNat n).val ≤ 'Z'.val →
      isAttributeChar (Char.ofNat n) = true ∧ isAttributeChar (Char.ofNat n).toLower = true := by
    decide
  have hlt : c.toNat < 128 := Nat.lt_of_le_of_lt (UInt32.le_iff_toNat_le.1 h.2) (by decide)
  have hletter := hletters c.toNat hlt
  rw [Char.ofNat_toNat] at hletter
  exact hletter h

/-- Letter case makes no difference to whether a character may stand in an attribute. -/
theorem isAttributeChar_of_toLower_eq {c d : Char} (hd : isAttributeChar d = true)
    (h : c.toLower = d.toLower) : isAttributeChar c = true := by
  by_cases hc : 'A'.val ≤ c.val ∧ c.val ≤ 'Z'.val
  · exact (isAttributeChar_of_upper hc).1
  · have hself : c.toLower = c := dif_neg hc
    rw [← hself, h]
    by_cases hupper : 'A'.val ≤ d.val ∧ d.val ≤ 'Z'.val
    · exact (isAttributeChar_of_upper hupper).2
    · have hself : d.toLower = d := dif_neg hupper
      rwa [hself]

/-- The characters of a text that differs from a description in letter case alone. -/
theorem isAttributeChar_of_fold_eq {attr description : String}
    (hdescription : Attribute.isDescription description = true)
    (h : fold description = fold attr) : ∀ c ∈ attr.toList, isAttributeChar c = true := by
  intro c hc
  have hmem : c.toLower ∈ fold description := by
    rw [h]
    exact List.mem_map_of_mem hc
  obtain ⟨d, hd, hlower⟩ := List.mem_map.1 hmem
  exact isAttributeChar_of_toLower_eq (isAttributeChar_of_description hdescription d hd) hlower.symm

theorem isAttributeChar_eq_false_of_mem (h : cs.all (fun c => !isAttributeChar c) = true)
    (hc : c ∈ cs) : isAttributeChar c = false := by
  simpa using List.all_eq_true.1 h c hc

/-- A name is not read across a character that may not stand in a test. -/
theorem Heads.start_of_append {name more : List Char} (h : Heads name (cs ++ ')' :: more)) :
    name <+: cs := by
  obtain ⟨hname, d, hd, hstart⟩ := h
  have hclose : cs ++ [')'] <+: cs ++ ')' :: more := ⟨more, by simp⟩
  have hmem : ')' ∉ name ++ [d] := by
    rw [List.mem_append, List.mem_singleton, not_or]
    constructor
    · intro hmem
      exact absurd (hname _ hmem) (by decide)
    · rintro rfl
      exact absurd hd (by decide)
  rcases List.prefix_or_prefix_of_prefix hstart hclose with hle | hle
  · rcases List.prefix_concat_iff.1 hle with heq | hle
    · exact absurd (heq ▸ List.mem_append_right cs (List.mem_singleton.2 rfl)) hmem
    · exact (List.prefix_append ..).trans hle
  · exact absurd (hle.mem (List.mem_append_right cs (List.mem_singleton.2 rfl))) hmem

/-- No name starts with a character that may not stand in one. -/
theorem not_heads_cons {name : List Char} (hc : isAttributeChar c = false)
    (hop : c ∉ operatorChars) : ¬ Heads name (c :: cs) := by
  rintro ⟨hname, d, hd, hstart⟩
  cases name with
  | nil =>
    obtain ⟨rfl, -⟩ := List.cons_prefix_cons.1 hstart
    exact hop hd
  | cons e name =>
    obtain ⟨rfl, -⟩ := List.cons_prefix_cons.1 hstart
    simp [hc] at hname

/-- A text starts with one name only. -/
theorem Heads.eq_of_append {name attr : List Char}
    (hattr : ∀ c ∈ attr, Reading.isAttributeChar c = true)
    (hc : Reading.isAttributeChar c = false) (h : Heads name (attr ++ c :: cs)) : name = attr := by
  obtain ⟨hname, d, hd, rest, hrest⟩ := h
  have hd := isAttributeChar_eq_false_of_mem (by decide) hd
  have htake := congrArg (List.takeWhile Reading.isAttributeChar) hrest
  rwa [List.append_assoc, List.singleton_append, List.takeWhile_append_of_pos hname,
    List.takeWhile_append_of_pos hattr, List.takeWhile_cons_of_neg (by simp [hd]),
    List.takeWhile_cons_of_neg (by simp [hc]), List.append_nil, List.append_nil] at htake

end Reading

/-! ### Rendered filters -/

section

open Reading

variable {P : List Char → Prop}

/-- What stands after the opening parentheses of a group or a negation. -/
theorem afterOpenings_group {c : Char} {cs : List Char} (hc : c ≠ '(')
    (hP : ∀ more, P (c :: more)) (h : AfterOpenings P cs) :
    AfterOpenings P ('(' :: c :: (cs ++ [')'])) := by
  have hclose : AfterOpenings P [')'] := .of_not_mem (by decide)
  have hinner : AfterOpenings P ([c] ++ (cs ++ [')'])) :=
    .append (.of_not_mem (by simpa using hc.symm)) (.append h hclose)
  exact .opening (fun more => hP _) hinner

/-- What stands after the opening parentheses of a test: those in its operand come after its own. -/
theorem afterOpenings_item {attr operator operand : List Char} (hattr : '(' ∉ attr)
    (hoperator : '(' ∉ operator) (hP : ∀ more, P (attr ++ (operator ++ more)))
    (hoperand : AfterOpenings P (operand ++ [')'])) :
    AfterOpenings P ('(' :: (attr ++ (operator ++ (operand ++ [')'])))) := by
  refine .opening (fun more => ?_) ?_
  · simp only [List.append_assoc]
    exact hP _
  · exact .append (.of_not_mem hattr) (.append (.of_not_mem hoperator) hoperand)

namespace Test

variable {t : Test}

/-- What holds after the openings of a test and of its operand holds after all openings in the text
of the test. -/
theorem afterOpenings_render (hgroup : ∀ c ∈ ['&', '|', '!'], ∀ more, P (c :: more))
    (hattr : '(' ∉ t.attr.toList)
    (hP : ∀ c ∈ ['=', ':'], ∀ more, P (t.attr.toList ++ c :: more))
    (hoperand : ∀ text, t.operand? = some text → AfterOpenings P (text.toList ++ [')'])) :
    AfterOpenings P t.render.toList := by
  have hequal : ∀ {operand : List Char}, AfterOpenings P (operand ++ [')']) →
      AfterOpenings P ('(' :: (t.attr.toList ++ (['='] ++ (operand ++ [')'])))) :=
    afterOpenings_item hattr (by decide) (hP '=' (by decide))
  have hrule : ∀ (rule : MatchingRule) {operand : List Char},
      AfterOpenings P (operand ++ [')']) →
      AfterOpenings P ('(' :: (t.attr.toList ++
        (':' :: (rule.oid.toList ++ [':', '=']) ++ (operand ++ [')'])))) := fun rule =>
    afterOpenings_item hattr (by cases rule <;> decide) fun _ => hP ':' (by decide) _
  cases t with
  | equal attr value =>
    have h := hequal (hoperand value rfl)
    simpa [render, property, Test.attr] using h
  | absent attr =>
    have h := afterOpenings_group (by decide) (hgroup '!' (by decide))
      (hequal (.of_not_mem (by decide : '(' ∉ ['*'] ++ [')'])))
    simpa [render, property, Test.attr] using h
  | bitwise rule attr mask =>
    have hdigits : '(' ∉ Decimal.ofInt mask.toInt ++ [')'] := by
      rw [List.mem_append, not_or]
      exact ⟨fun hmem => (isPlain_iff.1 (isPlain_of_mem_decimal hmem)).2.1 rfl, by decide⟩
    have h := hrule rule.matchingRule (.of_not_mem hdigits)
    simpa [render, property, MatchingRule.property, Decimal.text, Test.attr] using h
  | inChain attr entry =>
    have h := hrule .inChain (hoperand entry rfl)
    simpa [render, property, MatchingRule.property, Test.attr] using h

theorem afterOpenings_renderNegated (hgroup : ∀ c ∈ ['&', '|', '!'], ∀ more, P (c :: more))
    (h : AfterOpenings P t.render.toList) : AfterOpenings P t.renderNegated.toList := by
  have hnegated := afterOpenings_group (by decide) (hgroup '!' (by decide)) h
  simpa [renderNegated] using hnegated

theorem afterOpenings_renderMembers {ts : List Test}
    (hgroup : ∀ c ∈ ['&', '|', '!'], ∀ more, P (c :: more))
    (h : ∀ t ∈ ts, AfterOpenings P t.render.toList) :
    AfterOpenings P (renderMembers ts).toList := by
  induction ts with
  | nil => exact .of_not_mem (by simp [renderMembers])
  | cons t ts ih =>
    rw [List.forall_mem_cons] at h
    have hmember : AfterOpenings P t.renderMember.toList := by
      unfold renderMember
      split
      · exact afterOpenings_renderNegated hgroup h.1
      · exact h.1
    rw [renderMembers, String.toList_append]
    exact hmember.append (ih h.2)

end Test

namespace Filter

mutual
/-- What holds after the openings of groups, and in the texts of the tests of a filter, holds after
all openings in the text of the filter. -/
theorem afterOpenings_render (hgroup : ∀ c ∈ ['&', '|', '!'], ∀ more, P (c :: more)) (f : Filter)
    (h : ∀ t ∈ f.tests, AfterOpenings P t.render.toList) : AfterOpenings P f.render.toList := by
  match f with
  | .test t => exact h t List.mem_cons_self
  | .not t => exact Test.afterOpenings_renderNegated hgroup (h t List.mem_cons_self)
  | .and children size =>
    have hchildren := afterOpenings_group (by decide) (hgroup '&' (by decide))
      (afterOpenings_renderAll hgroup children h)
    simpa [render] using hchildren
  | .or children size =>
    have hchildren := afterOpenings_group (by decide) (hgroup '|' (by decide))
      (afterOpenings_renderAll hgroup children h)
    simpa [render] using hchildren
  | .nor members size =>
    have hmembers : AfterOpenings P (Test.renderMembers members).toList :=
      Test.afterOpenings_renderMembers hgroup h
    have hnor := afterOpenings_group (by decide) (hgroup '&' (by decide)) hmembers
    simpa [render] using hnor

theorem afterOpenings_renderAll (hgroup : ∀ c ∈ ['&', '|', '!'], ∀ more, P (c :: more))
    (fs : List Filter) (h : ∀ t ∈ allTests fs, AfterOpenings P t.render.toList) :
    AfterOpenings P (renderAll fs).toList := by
  match fs with
  | [] => exact .of_not_mem (by simp [renderAll])
  | f :: fs =>
    rw [allTests, List.forall_mem_append] at h
    rw [renderAll, String.toList_append]
    exact (afterOpenings_render hgroup f h.1).append (afterOpenings_renderAll hgroup fs h.2)
end

end Filter

end

/-! ### Compiled filters -/

namespace Query

open Reading

variable {o : Options} {d : Json} {f : Filter} {r : Reading}

/-- A text has an opening parenthesis with a name right after it. -/
def Embeds (text : String) (name : List Char) : Prop :=
  '(' :: name <:+: text.toList

/-- A name is the attribute of a test of a filter, or stands in the operand of one. -/
def IsNamedIn (f : Filter) (name : List Char) : Prop :=
  (∃ t ∈ f.tests, name = t.attr.toList) ∨
    ∃ t ∈ f.tests, ∃ text, t.operand? = some text ∧ Embeds text name

/-- A name after an opening parenthesis in an operand stands in it as a whole. -/
theorem afterOpenings_embeds (text : String) :
    AfterOpenings (fun rest => ∀ name, Heads name rest → Embeds text name)
      (text.toList ++ [')']) := by
  intro rest more hsuffix name hname
  rcases List.suffix_concat_iff.1 hsuffix with hnil | ⟨front, hfront, hinner⟩
  · cases hnil
  · obtain ⟨rfl, -⟩ | ⟨inner, rfl, rfl⟩ := List.cons_eq_append_iff.1 hfront
    · cases hfront
    · rw [List.append_assoc] at hname
      have hstart : '(' :: name <+: '(' :: inner :=
        List.cons_prefix_cons.2 ⟨rfl, hname.start_of_append⟩
      exact hstart.isInfix.trans hinner.isInfix

/-- A name after an opening parenthesis in the text of a filter is the attribute of a test, or it
stands in an operand. -/
theorem afterOpenings_isNamedIn
    (hattr : ∀ t ∈ f.tests, ∀ c ∈ t.attr.toList, isAttributeChar c = true) :
    AfterOpenings (fun rest => ∀ name, Heads name rest → IsNamedIn f name) f.render.toList := by
  have hgroup : ∀ c ∈ ['&', '|', '!'], ∀ more name, Heads name (c :: more) → IsNamedIn f name := by
    intro c hc more name hname
    simp only [List.mem_cons, List.not_mem_nil, or_false] at hc
    rcases hc with rfl | rfl | rfl <;>
      exact absurd hname (not_heads_cons (by decide) (by decide))
  refine Filter.afterOpenings_render hgroup f fun t ht => Test.afterOpenings_render hgroup ?_ ?_ ?_
  · exact not_mem_of_isAttributeChar (hattr t ht) (by decide)
  · intro c hc more name hname
    have hc := isAttributeChar_eq_false_of_mem (by decide) hc
    exact Or.inl ⟨t, ht, hname.eq_of_append (hattr t ht) hc⟩
  · intro text htext rest more hsuffix name hname
    exact Or.inr ⟨t, ht, text, htext, afterOpenings_embeds text rest more hsuffix name hname⟩

/-- Whatever the text of a filter tests is the attribute of a test, or it stands in an operand. -/
theorem isNamedIn_of_read?
    (hattr : ∀ t ∈ f.tests, ∀ c ∈ t.attr.toList, isAttributeChar c = true)
    (hr : read? f.render = some r) : ∀ target ∈ r.targets, IsNamedIn f (targetName target) := by
  intro target htarget
  obtain ⟨rest, ⟨before, more, htext⟩, hname, c, hc, hstart⟩ :=
    (read?_eq_some_iff.1 hr).names target htarget
  have hsuffix : '(' :: (rest ++ more) <:+ f.render.toList := ⟨before, by simpa using htext⟩
  have hheads : Heads (targetName target) (rest ++ more ++ []) :=
    ⟨hname, c, hc, by simpa using hstart.trans (List.prefix_append rest more)⟩
  exact afterOpenings_isNamedIn hattr (rest ++ more) [] hsuffix _ hheads

/-- The attribute that a text tests is one of the allowed attributes, if these are descriptions and
there are any; or else values are not escaped, and an operand of a test has an opening parenthesis
with the name of the attribute right after it. -/
theorem allowed_or_embedded_of_read? (hne : o.allowedAttributes ≠ [])
    (hdescription : ∀ a ∈ o.allowedAttributes, Attribute.isDescription a = true)
    (h : compile o d = .ok f) (hr : read? f.render = some r) : ∀ target ∈ r.targets,
      (∃ attr, target = some attr ∧ ∃ a ∈ o.allowedAttributes, fold a = fold attr) ∨
      (o.escapeValues = false ∧
        ∃ t ∈ f.tests, ∃ text, t.operand? = some text ∧ Embeds text (targetName target)) := by
  have hpasses : ∀ t ∈ f.tests, t.attr ≠ "" ∧ t.Passes o := by
    intro t ht
    obtain ⟨p, hp⟩ := exists_denotesTest_of_compile h t ht
    exact ⟨hp.isAttribute.ne_empty, hp.passes⟩
  have hattr : ∀ t ∈ f.tests, ∀ c ∈ t.attr.toList, isAttributeChar c = true := by
    intro t ht
    obtain ⟨a, ha, hfold⟩ := (hpasses t ht).2.allowed hne
    exact isAttributeChar_of_fold_eq (hdescription a ha) hfold
  intro target htarget
  rcases isNamedIn_of_read? hattr hr target htarget with
    ⟨t, ht, hname⟩ | ⟨t, ht, text, htext, hembeds⟩
  · obtain ⟨hattr_ne, hpass⟩ := hpasses t ht
    have hattr : target.getD "" = t.attr := String.toList_inj.1 hname
    cases target with
    | none => exact absurd hattr.symm hattr_ne
    | some attr =>
      rw [Option.getD_some] at hattr
      exact Or.inl ⟨attr, rfl, hattr ▸ hpass.allowed hne⟩
  · refine Or.inr ⟨Bool.eq_false_iff.2 fun hescape => ?_, t, ht, text, htext, hembeds⟩
    have hescaped := (hpasses t ht).2.escaped hescape text htext
    exact hescaped.not_mem '(' (by decide) (hembeds.mem List.mem_cons_self)

/-- A value that closes its own test and opens another one. -/
theorem read?_render_of_closing_value :
    read? (Filter.andOf [.test (.equal "cn" "a)(userPassword=x")]).render =
      some (.and [.compare .equal "cn" (octets ['a']),
        .compare .equal "userPassword" (octets ['x'])]) := by
  have hinert : (Filter.andOf
      [.test (.equal "cn" "a"), .test (.equal "userPassword" "x")]).IsInert := by
    rintro t (_ | ⟨_, _ | ⟨_, _ | _⟩⟩)
    · exact ⟨by decide, "a", by decide⟩
    · exact ⟨by decide, "x", by decide⟩
  exact read?_eq_some_iff.2 (Filter.spells_render hinert)

theorem allowed_or_embedded_of_closing_value :
    ({ allowedAttributes := ["cn"] } : Options).escapeValues = false ∧
      ∃ t ∈ (Filter.andOf [.test (.equal "cn" "a)(userPassword=x")]).tests,
        ∃ text, t.operand? = some text ∧ Embeds text (targetName (some "userPassword")) := by
  have hcases := allowed_or_embedded_of_read? (o := { allowedAttributes := ["cn"] })
    (d := Json.single "cn" (.string "a)(userPassword=x")) (by decide) (by decide) (by rfl)
    read?_render_of_closing_value (some "userPassword") (by decide)
  refine hcases.resolve_left ?_
  rintro ⟨_, ⟨⟩, hallowed⟩
  revert hallowed
  decide

/-- Without escaping, a value of an allowed attribute can name one that is not allowed. -/
theorem userPassword_mem_targets_of_closing_value :
    (∀ a ∈ ["cn"], Attribute.isDescription a = true) ∧
    compile { allowedAttributes := ["cn"] } (Json.single "cn" (.string "a)(userPassword=x")) =
      .ok (.andOf [.test (.equal "cn" "a)(userPassword=x")]) ∧
    ∃ r, read? (Filter.andOf [.test (.equal "cn" "a)(userPassword=x")]).render = some r ∧
      some "userPassword" ∈ r.targets ∧ ∀ a ∈ ["cn"], fold a ≠ fold "userPassword" :=
  ⟨by decide, by rfl, _, read?_render_of_closing_value, by decide, by decide⟩

end Query

end LdapFilter
