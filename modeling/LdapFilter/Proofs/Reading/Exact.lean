import LdapFilter.Proofs.Reading.Grammar

/-!
# The reader is exact

The reader takes exactly the texts that the grammar spells, and reads in them what is spelled
(`read?_eq_some_iff`). So no text spells two filters (`Spells.unique`).

What is read so far always spells the frames that are still open (`SpellsFrames`); each step
preserves this, and so does a run. The other way round, a text that spells a filter is read to its
end and no further, whatever follows it and whatever frames are open.
-/

namespace LdapFilter.Reading

variable {r : Reading} {frames : List Frame} {cs rest : List Char}

/-! ### Characters of items -/

/-- The characters in front of the equals sign of an item. -/
def isLeftChar (c : Char) : Bool :=
  isAttributeChar c || c = ':' || c = '~' || c = '<' || c = '>'

theorem isLeftChar_of_isAttributeChar {c : Char} (h : isAttributeChar c = true) :
    isLeftChar c = true := by
  simp [isLeftChar, h]

theorem isItemChar_iff {c : Char} : isItemChar c = true ↔ c ≠ '(' ∧ c ≠ ')' := by
  simp [isItemChar]

theorem isItemChar_of_isLeftChar {c : Char} (h : isLeftChar c = true) : isItemChar c = true :=
  isItemChar_iff.2 ⟨ne_of_passes h (by decide), ne_of_passes h (by decide)⟩

theorem SpellsValue.isItemChar {value : List UInt8} (h : SpellsValue value cs) :
    ∀ c ∈ cs, isItemChar c = true := by
  intro c hc
  rcases h.isPlain c hc with hplain | rfl
  · obtain ⟨-, hopen, hclose, -⟩ := isPlain_iff.1 hplain
    exact isItemChar_iff.2 ⟨hopen, hclose⟩
  · decide

/-- The two sides of the equals sign of an item. -/
theorem SpellsItem.exists_sides (h : SpellsItem r cs) :
    ∃ left text, cs = left ++ '=' :: text ∧ left ≠ [] ∧ (∀ c ∈ left, isLeftChar c = true) ∧
      ∀ c ∈ text, isItemChar c = true := by
  have hdescription : ∀ {attr : String}, Attribute.isDescription attr = true →
      ∀ c ∈ attr.toList, isLeftChar c = true := fun hattr c hc =>
    isLeftChar_of_isAttributeChar (isAttributeChar_of_description hattr c hc)
  cases h with
  | compare comparison hattr hvalue =>
    refine ⟨_, _, rfl, ?_, ?_, hvalue.isItemChar⟩
    · simp [toList_ne_nil_of_description hattr]
    · intro c hc
      rcases List.mem_append.1 hc with hc | hc
      · exact hdescription hattr c hc
      · have hsign : (sign comparison).all isLeftChar = true := by
          cases comparison <;> decide
        exact List.all_eq_true.1 hsign c hc
  | present hattr =>
    exact ⟨_, _, rfl, toList_ne_nil_of_description hattr, hdescription hattr, by simp [isItemChar]⟩
  | @substrings attr texts runs hattr hlength hne hruns =>
    refine ⟨_, _, rfl, toList_ne_nil_of_description hattr, hdescription hattr, ?_⟩
    intro c hc
    rcases mem_intercalate hc with rfl | ⟨text, htext, hc⟩
    · decide
    · obtain ⟨run, hrun⟩ := exists_spellsValue_of_mem hruns text htext
      exact hrun.isItemChar c hc
  | @extensible attr rule dn parts text value htarget hvalue =>
    refine ⟨[':'].intercalate parts ++ [':'], text, by simp, by simp, ?_, hvalue.isItemChar⟩
    intro c hc
    rcases List.mem_append.1 hc with hc | hc
    · rcases mem_intercalate hc with rfl | ⟨part, hpart, hc⟩
      · decide
      · exact isLeftChar_of_isAttributeChar (htarget.isAttributeChar part hpart c hc)
    · rw [List.mem_singleton.1 hc]
      decide

/-! ### Reading what is spelled -/

/-- Go on after a piece of a text. -/
def Progress.resume (rest : List Char) : Progress → Option (Reading × List Char)
  | .done r => some (r, rest)
  | .more frames => readFrom frames rest

theorem readFrom_eq {p : Progress} (h : step frames cs = some (p, rest)) :
    readFrom frames cs = p.resume rest := by
  rw [readFrom]
  split
  · next h' => simp [h] at h'
  · next h' =>
    rw [h] at h'
    cases h'
    rfl
  · next h' =>
    rw [h] at h'
    cases h'
    rfl

/-- An item is one piece of a text. -/
theorem step_item (h : SpellsItem r cs) :
    step frames ('(' :: (cs ++ ')' :: rest)) = some (complete r frames, rest) := by
  obtain ⟨left, text, hcs, hne, hleft, htext⟩ := h.exists_sides
  have hitem : ∀ c ∈ cs, isItemChar c = true := by
    intro c hc
    rw [hcs, List.mem_append, List.mem_cons] at hc
    rcases hc with hc | rfl | hc
    · exact isItemChar_of_isLeftChar (hleft c hc)
    · decide
    · exact htext c hc
  obtain ⟨c, ds, hcons, hc⟩ : ∃ c ds, cs = c :: ds ∧ isLeftChar c = true := by
    match left, hne with
    | c :: ds, _ => exact ⟨c, ds ++ '=' :: text, hcs, hleft c List.mem_cons_self⟩
  have hfirst : ∀ d : Char, isLeftChar d = false → ∀ ds', cs ++ ')' :: rest = d :: ds' → False := by
    intro d hd ds' e
    rw [hcons, List.cons_append] at e
    exact ne_of_passes hc hd (List.cons.inj e).1
  rw [step.eq_4 _ _ (hfirst _ (by decide)) (hfirst _ (by decide)) (hfirst _ (by decide)),
    List.dropWhile_append_of_pos hitem, List.takeWhile_append_of_pos hitem]
  simp [isItemChar, item?_eq_some_iff.2 h]

mutual
/-- A text that spells a filter is read to its end, whatever follows it. -/
theorem Spells.readFrom_append {r : Reading} {cs : List Char} (h : Spells r cs)
    (frames : List Frame) (rest : List Char) :
    readFrom frames (cs ++ rest) = (complete r frames).resume rest := by
  match h with
  | .item h =>
    rw [List.cons_append, List.append_assoc]
    exact readFrom_eq (step_item h)
  | .and h =>
    simp only [List.cons_append, List.append_assoc, List.nil_append]
    rw [readFrom_eq rfl]
    show readFrom _ _ = _
    rw [h.readFrom_append ⟨.and, []⟩ frames]
    exact readFrom_eq rfl
  | .or h =>
    simp only [List.cons_append, List.append_assoc, List.nil_append]
    rw [readFrom_eq rfl]
    show readFrom _ _ = _
    rw [h.readFrom_append ⟨.or, []⟩ frames]
    exact readFrom_eq rfl
  | .not h =>
    simp only [List.cons_append, List.append_assoc, List.nil_append]
    rw [readFrom_eq rfl]
    show readFrom _ _ = _
    rw [h.readFrom_append]
    exact readFrom_eq rfl

/-- Filters that are spelled one after the other all go to the innermost frame. -/
theorem SpellsAll.readFrom_append {parts : List Reading} {cs : List Char}
    (h : SpellsAll parts cs) (frame : Frame) (frames : List Frame) (rest : List Char) :
    readFrom (frame :: frames) (cs ++ rest) =
      readFrom (⟨frame.operator, frame.parts ++ parts⟩ :: frames) rest := by
  match h with
  | .nil => simp
  | .cons h hs =>
    rw [List.append_assoc, h.readFrom_append]
    show readFrom _ _ = _
    rw [hs.readFrom_append]
    simp
end

/-! ### What is read is spelled -/

def Operator.sign : Operator → Char
  | .and => '&'
  | .or => '|'
  | .not => '!'

/-- A text spells frames that are still open. -/
inductive SpellsFrames : List Frame → List Char → Prop
  | nil : SpellsFrames [] []
  | cons {frame : Frame} {frames : List Frame} {cs ds : List Char} (h : SpellsFrames frames cs)
      (hparts : SpellsAll frame.parts ds) :
      SpellsFrames (frame :: frames) (cs ++ '(' :: frame.operator.sign :: ds)

/-- What the text that led somewhere has to spell. -/
def Progress.SpelledBy (cs : List Char) : Progress → Prop
  | .done r => Spells r cs
  | .more frames => SpellsFrames frames cs

theorem SpellsAll.concat {parts : List Reading} {cs ds : List Char} (h : SpellsAll parts cs)
    (hr : Spells r ds) : SpellsAll (parts ++ [r]) (cs ++ ds) := by
  match h with
  | .nil => simpa using SpellsAll.cons hr .nil
  | .cons hpart hparts =>
    rw [List.append_assoc]
    exact .cons hpart (hparts.concat hr)

/-- A frame is closed to the filter that its text spells. -/
theorem spells_of_close? {frame : Frame} (h : frame.close? = some r)
    (hparts : SpellsAll frame.parts cs) :
    Spells r ('(' :: frame.operator.sign :: (cs ++ [')'])) := by
  unfold Frame.close? at h
  split at h
  · cases h
    exact .and hparts
  · cases h
    exact .or hparts
  · cases h
    match hparts with
    | .cons hpart .nil =>
      rw [List.append_nil]
      exact .not hpart
  · simp at h

/-- A filter that is complete is spelled at the end of its innermost frame. -/
theorem SpellsFrames.spelledBy_complete {ds : List Char} (h : SpellsFrames frames cs)
    (hr : Spells r ds) : (complete r frames).SpelledBy (cs ++ ds) := by
  cases h with
  | nil => exact hr
  | cons h hparts =>
    rw [List.append_assoc]
    exact .cons h (hparts.concat hr)

/-- A step reads a piece of a text, and what was read with this piece spells where it leads. -/
theorem SpellsFrames.exists_piece_of_step {before : List Char} {p : Progress}
    (h : SpellsFrames frames before) (hstep : step frames cs = some (p, rest)) :
    ∃ piece, cs = piece ++ rest ∧ p.SpelledBy (before ++ piece) := by
  unfold step at hstep
  split at hstep
  · cases hstep
    exact ⟨['(', '&'], rfl, .cons h .nil⟩
  · cases hstep
    exact ⟨['(', '|'], rfl, .cons h .nil⟩
  · cases hstep
    exact ⟨['(', '!'], rfl, .cons h .nil⟩
  · next ds _ _ _ =>
    split at hstep
    · next hdrop =>
      obtain ⟨r, hr, hp⟩ := Option.map_eq_some_iff.1 hstep
      cases hp
      obtain ⟨-, hds⟩ := eq_append_of_dropWhile hdrop
      refine ⟨'(' :: (ds.takeWhile isItemChar ++ [')']), ?_, ?_⟩
      · rw [List.cons_append, List.append_assoc]
        exact congrArg ('(' :: ·) hds
      · exact h.spelledBy_complete (.item (item?_eq_some_iff.1 hr))
    · simp at hstep
  · split at hstep
    · simp at hstep
    · next frame frames =>
      obtain ⟨r, hr, hp⟩ := Option.map_eq_some_iff.1 hstep
      cases hp
      refine ⟨[')'], rfl, ?_⟩
      cases h with
      | cons h hparts =>
        rw [List.append_assoc]
        exact h.spelledBy_complete (spells_of_close? hr hparts)
  · simp at hstep

/-- What is read in a text is spelled by the part of the text that is read. -/
theorem SpellsFrames.exists_piece_of_readFrom {before : List Char}
    (h : SpellsFrames frames before) (hread : readFrom frames cs = some (r, rest)) :
    ∃ piece, cs = piece ++ rest ∧ Spells r (before ++ piece) := by
  induction frames, cs using readFrom.induct generalizing before with
  | case1 frames cs hstep =>
    unfold readFrom at hread
    split at hread
    · simp at hread
    · next h' => simp [hstep] at h'
    · next h' => simp [hstep] at h'
  | case2 frames cs r' rest' hstep =>
    rw [readFrom_eq hstep] at hread
    cases hread
    exact h.exists_piece_of_step hstep
  | case3 frames cs frames' rest' hstep ih =>
    rw [readFrom_eq hstep] at hread
    obtain ⟨piece, rfl, hpiece⟩ := h.exists_piece_of_step hstep
    obtain ⟨piece', rfl, hr⟩ := ih hpiece hread
    refine ⟨piece ++ piece', by rw [List.append_assoc], ?_⟩
    rwa [← List.append_assoc]

/-! ### Whole texts -/

/-- A text is read as a filter exactly when it spells the filter. -/
theorem read?_eq_some_iff {text : String} : read? text = some r ↔ Spells r text.toList := by
  unfold read?
  constructor
  · intro h
    split at h
    · next hread =>
      cases h
      obtain ⟨piece, htext, hr⟩ := SpellsFrames.nil.exists_piece_of_readFrom hread
      rw [htext, List.append_nil]
      exact hr
    · simp at h
  · intro h
    have hread := h.readFrom_append [] []
    rw [List.append_nil] at hread
    rw [hread]
    rfl

/-- A text spells at most one filter. -/
theorem Spells.unique {s : Reading} (hr : Spells r cs) (hs : Spells s cs) : r = s := by
  rw [← String.toList_ofList (l := cs), ← read?_eq_some_iff] at hr hs
  exact Option.some.inj (hr.symm.trans hs)

end LdapFilter.Reading
