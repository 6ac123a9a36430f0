import LdapFilter.CommandLine.Arguments
import LdapFilter.Proofs.Basic

/-!
# The switch for documents

Whether the document is written back is settled by one switch, which nothing else that is read from
the arguments depends on (`leavesJson_readAll`). So this switch may be added wherever an option may
stand, and it changes the request in nothing else (`parse_insert_json`).
-/

namespace LdapFilter.CommandLine.Request

/-- What is read on from a request without turning the switch on is read in the same way when the
switch is on already. -/
def LeavesJson (f : Request → Except Stop Request) : Prop :=
  ∀ r r', f r = .ok r' → r'.json = false →
    r.json = false ∧ f { r with json := true } = .ok { r' with json := true }

namespace LeavesJson

variable {f g : Request → Except Stop Request}

theorem ok : LeavesJson .ok := by
  rintro r _ ⟨⟩ hjson
  exact ⟨hjson, rfl⟩

theorem error (stop : Stop) : LeavesJson fun _ => .error stop := by
  intro r r' h
  cases h

theorem bind (hf : LeavesJson f) (hg : LeavesJson g) : LeavesJson fun r => f r >>= g := by
  intro r r' h hjson
  obtain ⟨r₁, hr₁, h⟩ := Except.bind_eq_ok_iff.1 h
  obtain ⟨hjson₁, hg⟩ := hg r₁ r' h hjson
  obtain ⟨hjson, hf⟩ := hf r r₁ hr₁ hjson₁
  exact ⟨hjson, Except.bind_eq_ok_iff.2 ⟨_, hf, hg⟩⟩

end LeavesJson

/-! ### Single options -/

theorem leavesJson_turnOn (s : Switch) : LeavesJson fun r => r.turnOn s := by
  intro r r' h hjson
  cases s with
  | escapeValues | validateAttributes =>
    simp only [turnOn] at h ⊢
    split at h
    · cases h
    · next hoff =>
      cases h
      exact ⟨hjson, by rw [if_neg hoff]⟩
  | json =>
    simp only [turnOn] at h
    split at h
    · cases h
    · cases h
      cases hjson
  | verbose =>
    cases h
    exact ⟨hjson, rfl⟩
  | help | version => cases h

theorem leavesJson_assign (p : Parameter) (value : String) :
    LeavesJson fun r => r.assign p value := by
  intro r r' h hjson
  cases p with
  | config | maxDepth | maxNodes =>
    obtain ⟨given, hgiven, h⟩ := Except.bind_eq_ok_iff.1 h
    cases h
    exact ⟨hjson, Except.bind_eq_ok_iff.2 ⟨given, hgiven, rfl⟩⟩
  | allow =>
    cases h
    exact ⟨hjson, rfl⟩

theorem leavesJson_place (value : String) : LeavesJson fun r => r.place value := by
  intro r r' h hjson
  obtain ⟨given, hgiven, h⟩ := Except.bind_eq_ok_iff.1 h
  cases h
  exact ⟨hjson, Except.bind_eq_ok_iff.2 ⟨given, hgiven, rfl⟩⟩

theorem leavesJson_foldlM_place (values : List String) :
    LeavesJson fun r => values.foldlM place r := by
  induction values with
  | nil => exact .ok
  | cons value values ih => exact (leavesJson_place value).bind ih

/-! ### Arguments -/

section

variable {readOn : Option Parameter → Request → Except Stop Request}
  (hreadOn : ∀ waiting, LeavesJson (readOn waiting))
include hreadOn

theorem leavesJson_long (cs : List Char) :
    LeavesJson fun r => r.long cs >>= fun x => readOn x.2 x.1 := by
  simp only [long]
  split
  · next s _ _ =>
    simp only [bind_assoc, pure_bind]
    exact (leavesJson_turnOn s).bind (hreadOn none)
  · next p _ _ _ => exact hreadOn (some p)
  · next p _ value _ _ _ =>
    simp only [bind_assoc, pure_bind]
    exact (leavesJson_assign p _).bind (hreadOn none)
  · exact .error .usage

theorem leavesJson_letters (cs : List Char) :
    LeavesJson fun r => r.letters cs >>= fun x => readOn x.2 x.1 := by
  induction cs with
  | nil => exact hreadOn none
  | cons c cs ih =>
    simp only [letters]
    split
    · next s _ =>
      simp only [bind_assoc]
      exact (leavesJson_turnOn s).bind ih
    · next p _ _ =>
      split
      · exact hreadOn (some p)
      · simp only [bind_assoc, pure_bind]
        exact (leavesJson_assign p _).bind (hreadOn none)
    · exact .error .usage

theorem leavesJson_options (cs : List Char) :
    LeavesJson fun r => r.options cs >>= fun x => readOn x.2 x.1 := by
  unfold options
  split
  · exact leavesJson_long hreadOn _
  · exact leavesJson_letters hreadOn _

end

/-- Arguments are read in the same way when the document is asked for already. -/
theorem leavesJson_readAll (waiting : Option Parameter) (args : List String) :
    LeavesJson fun r => readAll r waiting args := by
  induction args generalizing waiting with
  | nil =>
    cases waiting with
    | none => exact .ok
    | some p => exact .error .usage
  | cons arg rest ih =>
    cases waiting with
    | some p =>
      simp only [readAll]
      split
      · exact .error .usage
      · exact (leavesJson_assign p arg).bind (ih none)
    | none =>
      simp only [readAll]
      split
      · exact leavesJson_foldlM_place rest
      · split
        · exact leavesJson_options ih _
        · exact (leavesJson_place arg).bind (ih none)

theorem leavesJson_withConfig (config : Option String) :
    LeavesJson fun r => r.withConfig config := by
  intro r r' h hjson
  simp only [withConfig] at h ⊢
  split at h
  · obtain ⟨given, hgiven, h⟩ := Except.bind_eq_ok_iff.1 h
    cases h
    exact ⟨hjson, Except.bind_eq_ok_iff.2 ⟨given, hgiven, rfl⟩⟩
  · cases h
    exact ⟨hjson, rfl⟩

/-! ### Adding the switch -/

variable {r r₀ : Request} {pre post : List String}

/-- Arguments that come after others are read on from the request of these, unless these end the
options. -/
theorem readAll_append {waiting : Option Parameter} (post : List String) (hpre : "--" ∉ pre)
    (h : readAll r waiting pre = .ok r₀) :
    readAll r waiting (pre ++ post) = readAll r₀ none post := by
  induction pre generalizing r waiting with
  | nil =>
    cases waiting with
    | none =>
      cases h
      rfl
    | some p => cases h
  | cons arg pre ih =>
    rw [List.mem_cons, not_or] at hpre
    cases waiting with
    | some p =>
      rw [readAll] at h
      split at h
      · cases h
      · next hvalue =>
        obtain ⟨r₁, hassign, h⟩ := Except.bind_eq_ok_iff.1 h
        rw [List.cons_append, readAll, if_neg hvalue, hassign]
        exact ih hpre.2 h
    | none =>
      rw [readAll, if_neg (Ne.symm hpre.1)] at h
      rw [List.cons_append, readAll, if_neg (Ne.symm hpre.1)]
      split at h
      · next hoption =>
        obtain ⟨⟨r₁, waiting⟩, hoptions, h⟩ := Except.bind_eq_ok_iff.1 h
        rw [if_pos hoption, hoptions]
        exact ih hpre.2 h
      · next hoption =>
        obtain ⟨r₁, hplace, h⟩ := Except.bind_eq_ok_iff.1 h
        rw [if_neg hoption, hplace]
        exact ih hpre.2 h

theorem readAll_json_cons (hjson : r.json = false) (post : List String) :
    readAll r none ("--json" :: post) = readAll { r with json := true } none post := by
  have hoptions : r.options ("--json".toList.drop 1) = .ok ({ r with json := true }, none) := by
    have hlong : r.options ("--json".toList.drop 1) = (do return (← r.turnOn .json, none)) := rfl
    rw [hlong, turnOn, if_neg (by rw [hjson]; decide)]
    rfl
  rw [readAll, if_neg (by decide), if_pos (by decide), hoptions]
  rfl

/-- Where an option may stand, the switch for documents may be added to a command line that does not
have it. It asks for the document, and changes nothing else. -/
theorem parse_insert_json {config : Option String} (hpre : "--" ∉ pre)
    (hread : readAll {} none pre = .ok r₀) (h : parse (pre ++ post) config = .ok r)
    (hjson : r.json = false) :
    parse (pre ++ "--json" :: post) config = .ok { r with json := true } := by
  have hrest : (do (← readAll r₀ none post).withConfig config) = .ok r := by
    rw [← h, parse, readAll_append post hpre hread]
  have hleaves := (leavesJson_readAll none post).bind (leavesJson_withConfig config)
  obtain ⟨hjson₀, hpost⟩ := hleaves r₀ r hrest hjson
  rw [parse, readAll_append _ hpre hread, readAll_json_cons hjson₀]
  exact hpost

end LdapFilter.CommandLine.Request
