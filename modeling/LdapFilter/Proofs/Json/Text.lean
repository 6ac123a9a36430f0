import LdapFilter.Proofs.Basic
import LdapFilter.Proofs.Json
import LdapFilter.Proofs.Json.Token

/-!
# Documents read back

A document that nests no more lists and objects than may be open at the same time, and whose numbers
are integers, is read back off its text, compact or laid out in lines (`parse?_compact`,
`parse?_pretty`). Reading goes by tokens: the tokens of a document lead, inside any frames, to the
point where this document is complete (`feed_tokens`).
-/

namespace LdapFilter.Json

/-! ### Nesting -/

mutual
/-- How many lists and objects of a document stand one inside the other. -/
def depth : Json → Nat
  | .null | .bool _ | .number _ | .string _ => 0
  | .array items => 1 + itemsDepth items
  | .object members => 1 + membersDepth members

def itemsDepth : List Json → Nat
  | [] => 0
  | item :: items => max item.depth (itemsDepth items)

def membersDepth : List (String × Json) → Nat
  | [] => 0
  | (_, value) :: members => max value.depth (membersDepth members)
end

theorem itemsDepth_le_iff {items : List Json} {n : Nat} :
    itemsDepth items ≤ n ↔ ∀ item ∈ items, item.depth ≤ n := by
  induction items with
  | nil => simp [itemsDepth]
  | cons item items ih => rw [itemsDepth, Nat.max_le, ih, List.forall_mem_cons]

theorem membersDepth_le_iff {members : List (String × Json)} {n : Nat} :
    membersDepth members ≤ n ↔ ∀ member ∈ members, member.2.depth ≤ n := by
  induction members with
  | nil => simp [membersDepth]
  | cons member members ih => rw [membersDepth, Nat.max_le, ih, List.forall_mem_cons]

/-! ### Tokens -/

/-- Every number of the document is an integer of 64 bits. -/
inductive IsIntegral : Json → Prop
  | null : IsIntegral .null
  | bool (b : Bool) : IsIntegral (.bool b)
  | number {n : Number} (h : n.IsInteger) : IsIntegral (.number n)
  | string (s : String) : IsIntegral (.string s)
  | array {items : List Json} (h : ∀ item ∈ items, IsIntegral item) : IsIntegral (.array items)
  | object {members : List (String × Json)} (h : ∀ member ∈ members, IsIntegral member.2) :
      IsIntegral (.object members)

namespace Legible

variable {t : Token} {ts ts' : List Token} {tss : List (List Token)}

theorem nil : Legible [] :=
  ⟨by simp, .nil⟩

theorem singleton (ht : t.IsExact) : Legible [t] :=
  ⟨by simpa using ht, .singleton t⟩

theorem append (h : Legible ts) (h' : Legible ts')
    (hhead : ∀ t ∈ ts'.head?, t.isNumber = false) : Legible (ts ++ ts') :=
  ⟨List.forall_mem_append.2 ⟨h.exact, h'.exact⟩,
    List.isChain_append.2 ⟨h.chain, h'.chain, fun _ _ t ht _ => hhead t ht⟩⟩

theorem cons (ht : t.IsExact) (hnumber : t.isNumber = false) (h : Legible ts) :
    Legible (t :: ts) :=
  ⟨List.forall_mem_cons.2 ⟨ht, h.exact⟩, List.isChain_cons.2 ⟨by simp [hnumber], h.chain⟩⟩

theorem isNumber_of_head?_flatMap_comma :
    ∀ t ∈ (tss.flatMap ([Token.comma] ++ ·)).head?, t.isNumber = false := by
  cases tss with
  | nil => simp
  | cons ts tss => simp [Token.isNumber]

theorem flatMap_comma (h : ∀ ts ∈ tss, Legible ts) :
    Legible (tss.flatMap ([Token.comma] ++ ·)) := by
  induction tss with
  | nil => exact nil
  | cons ts tss ih =>
    rw [List.forall_mem_cons] at h
    have hfirst : Legible ([Token.comma] ++ ts) := cons trivial rfl h.1
    rw [List.flatMap_cons]
    exact hfirst.append (ih h.2) isNumber_of_head?_flatMap_comma

/-- Tokens stay legible with commas in between. -/
theorem intercalate (h : ∀ ts ∈ tss, Legible ts) : Legible ([Token.comma].intercalate tss) := by
  cases tss with
  | nil => exact nil
  | cons ts tss =>
    rw [List.forall_mem_cons] at h
    rw [intercalate_cons]
    exact h.1.append (flatMap_comma h.2) isNumber_of_head?_flatMap_comma

/-- Tokens stay legible between brackets. -/
theorem enclose {opening closing : Token} (h : ∀ ts ∈ tss, Legible ts) (hopening : opening.IsExact)
    (hfirst : opening.isNumber = false) (hclosing : closing.IsExact)
    (hlast : closing.isNumber = false) :
    Legible (opening :: [Token.comma].intercalate tss ++ [closing]) :=
  (cons hopening hfirst (intercalate h)).append (singleton hclosing) (by simpa using hlast)

end Legible

mutual
/-- The tokens of a document can be told apart when its numbers are integers. -/
theorem IsIntegral.legible {j : Json} (h : j.IsIntegral) : Legible j.tokens := by
  match j, h with
  | .null, _ | .bool _, _ | .string _, _ => exact .singleton trivial
  | .number n, .number hn => exact .singleton hn
  | .array items, .array hitems =>
    rw [tokens]
    exact .enclose (legible_itemTokens hitems) trivial rfl trivial rfl
  | .object members, .object hmembers =>
    rw [tokens]
    exact .enclose (legible_memberTokens hmembers) trivial rfl trivial rfl

theorem legible_itemTokens {items : List Json} (h : ∀ item ∈ items, item.IsIntegral) :
    ∀ ts ∈ itemTokens items, Legible ts := by
  match items with
  | [] => simp [itemTokens]
  | item :: items =>
    rw [List.forall_mem_cons] at h
    rw [itemTokens, List.forall_mem_cons]
    exact ⟨h.1.legible, legible_itemTokens h.2⟩

theorem legible_memberTokens {members : List (String × Json)}
    (h : ∀ member ∈ members, member.2.IsIntegral) :
    ∀ ts ∈ memberTokens members, Legible ts := by
  match members with
  | [] => simp [memberTokens]
  | (key, value) :: members =>
    rw [List.forall_mem_cons] at h
    rw [memberTokens, List.forall_mem_cons]
    exact ⟨.cons trivial rfl (.cons trivial rfl h.1.legible), legible_memberTokens h.2⟩
end

/-! ### Reading by tokens -/

namespace Progress

/-- Where tokens lead, one after the other. After the outermost value there are no more. -/
def feed : Progress → List Token → Option Progress
  | p, [] => some p
  | .done _, _ :: _ => none
  | .more state frames, t :: ts => (step frames state t).bind fun p => p.feed ts

theorem feed_append (p : Progress) (ts ts' : List Token) :
    p.feed (ts ++ ts') = (p.feed ts).bind fun p => p.feed ts' := by
  induction ts generalizing p with
  | nil => rfl
  | cons t ts ih =>
    cases p with
    | done value => rfl
    | more state frames =>
      rw [List.cons_append, feed, feed, Option.bind_assoc]
      exact Option.bind_congr fun p _ => ih p

end Progress

theorem readFrom_eq {t : Token} {cs after : List Char} (state : State) (frames : List Frame)
    (h : Token.read? cs = some (t, after)) :
    readFrom state frames cs =
      match Progress.step frames state t with
      | none => none
      | some (.done value) => some (value, after)
      | some (.more state frames) => readFrom state frames after := by
  rw [readFrom]
  split
  · next hnone => cases h.symm.trans hnone
  · next hsome =>
    cases h.symm.trans hsome
    rfl

/-- What is read of a text is what its tokens lead to. -/
theorem readFrom_of_reads {ts : List Token} {state : State} {frames : List Frame}
    {cs rest : List Char} {j : Json} (h : Reads ts cs rest)
    (hfeed : (Progress.more state frames).feed ts = some (.done j)) :
    readFrom state frames cs = some (j, rest) := by
  induction h generalizing state frames with
  | nil => cases hfeed
  | @cons t ts cs after rest ht hts ih =>
    obtain ⟨p, hstep, hfeed⟩ := Option.bind_eq_some_iff.1 hfeed
    rw [readFrom_eq state frames ht, hstep]
    cases p with
    | more state frames => exact ih hfeed
    | done value =>
      cases ts with
      | nil =>
        cases hfeed
        cases hts
        rfl
      | cons t ts => cases hfeed

/-- The first item of a list starts like any other value. -/
theorem feed_firstItem (item : Json) (frames : List Frame) :
    (Progress.more .firstItem frames).feed item.tokens =
      (Progress.more .value (.item [] :: frames)).feed item.tokens := by
  cases item with
  | null | bool _ | number _ | string _ | array _ | object _ => rfl

theorem feed_openArray {frames : List Frame} (ts : List Token)
    (h : frames.length < maxNesting) :
    (Progress.more .value frames).feed (.openArray :: ts) =
      (Progress.more .firstItem frames).feed ts := by
  simp [Progress.feed, Progress.step, Progress.start, h]

theorem feed_openObject {frames : List Frame} (ts : List Token)
    (h : frames.length < maxNesting) :
    (Progress.more .value frames).feed (.openObject :: ts) =
      (Progress.more .firstKey frames).feed ts := by
  simp [Progress.feed, Progress.step, Progress.start, h]

mutual
/-- The tokens of a document complete this document, if there is room for its nesting inside the
frames that are open. -/
theorem feed_tokens (j : Json) (frames : List Frame) (h : frames.length + j.depth ≤ maxNesting) :
    (Progress.more .value frames).feed j.tokens = some (.complete j frames) := by
  match j with
  | .null | .bool _ | .number _ | .string _ => rfl
  | .array items =>
    rw [depth] at h
    rw [tokens, List.cons_append, feed_openArray _ (by omega)]
    match items with
    | [] => rfl
    | item :: items =>
      rw [itemsDepth] at h
      have hitem := feed_tokens item (.item [] :: frames) (by simp only [List.length_cons]; omega)
      have hitems := feed_items items [item] frames (by omega)
      rw [itemTokens, intercalate_cons, List.append_assoc, Progress.feed_append,
        feed_firstItem, hitem, Option.bind_some, Progress.complete, Progress.feed_append,
        hitems, Option.bind_some]
      simp [Progress.feed, Progress.step]
  | .object members =>
    rw [depth] at h
    rw [tokens, List.cons_append, feed_openObject _ (by omega)]
    match members with
    | [] => rfl
    | (key, value) :: members =>
      rw [membersDepth] at h
      have hvalue := feed_tokens value (.member [] key :: frames)
        (by simp only [List.length_cons]; omega)
      have hmembers := feed_members members [(key, value)] frames (by omega)
      have hkey : (Progress.more .firstKey frames).feed (.string key :: .colon :: value.tokens) =
          (Progress.more .value (.member [] key :: frames)).feed value.tokens := rfl
      rw [memberTokens, intercalate_cons, List.append_assoc, Progress.feed_append, hkey, hvalue,
        Option.bind_some, Progress.complete, Progress.feed_append, hmembers, Option.bind_some]
      simp [Progress.feed, Progress.step]

theorem feed_items (items before : List Json) (frames : List Frame)
    (h : frames.length + 1 + itemsDepth items ≤ maxNesting) :
    (Progress.more (.afterItem before) frames).feed
        ((itemTokens items).flatMap ([Token.comma] ++ ·)) =
      some (.more (.afterItem (items.reverse ++ before)) frames) := by
  match items with
  | [] => rfl
  | item :: items =>
    rw [itemsDepth] at h
    have hitem := feed_tokens item (.item before :: frames) (by simp only [List.length_cons]; omega)
    have hitems := feed_items items (item :: before) frames (by omega)
    have hcomma : (Progress.more (.afterItem before) frames).feed ([.comma] ++ item.tokens) =
        (Progress.more .value (.item before :: frames)).feed item.tokens := rfl
    rw [itemTokens, List.flatMap_cons, Progress.feed_append, hcomma, hitem, Option.bind_some,
      Progress.complete, hitems]
    simp

theorem feed_members (members before : List (String × Json)) (frames : List Frame)
    (h : frames.length + 1 + membersDepth members ≤ maxNesting) :
    (Progress.more (.afterMember before) frames).feed
        ((memberTokens members).flatMap ([Token.comma] ++ ·)) =
      some (.more (.afterMember (members.reverse ++ before)) frames) := by
  match members with
  | [] => rfl
  | (key, value) :: members =>
    rw [membersDepth] at h
    have hvalue := feed_tokens value (.member before key :: frames)
      (by simp only [List.length_cons]; omega)
    have hmembers := feed_members members ((key, value) :: before) frames (by omega)
    have hcomma : (Progress.more (.afterMember before) frames).feed
          ([.comma] ++ .string key :: .colon :: value.tokens) =
        (Progress.more .value (.member before key :: frames)).feed value.tokens := rfl
    rw [memberTokens, List.flatMap_cons, Progress.feed_append, hcomma, hvalue, Option.bind_some,
      Progress.complete, hmembers]
    simp
end

/-! ### Laid-out text -/

theorem isSpace_of_mem_newline (level : Nat) : ∀ c ∈ newline level, Token.isSpace c = true := by
  intro c h
  rcases List.mem_cons.1 h with rfl | h
  · rfl
  · rw [List.eq_of_mem_replicate h]
    rfl

theorem displays_flatMap_comma {tss : List (List Token)} {lines : List (List Char)} (level : Nat)
    (h : List.Forall₂ (fun ts line => Displays ts line ∧ ts ≠ []) tss lines) :
    Displays (tss.flatMap ([Token.comma] ++ ·)) (lines.flatMap (',' :: newline level ++ ·)) := by
  induction h with
  | nil => exact .nil
  | cons hline _ ih =>
    have hspaced := hline.1.spaced (isSpace_of_mem_newline level) hline.2
    have hcomma := (Displays.token .comma).append hspaced
    exact hcomma.append ih

/-- Lines between brackets display what the lines do, between the brackets. -/
theorem displays_block {opening closing : Token} {first last : Char} {tss : List (List Token)}
    {lines : List (List Char)} (level : Nat) (hopening : opening.spell = [first])
    (hclosing : closing.spell = [last])
    (h : List.Forall₂ (fun ts line => Displays ts line ∧ ts ≠ []) tss lines) :
    Displays (opening :: [Token.comma].intercalate tss ++ [closing])
      (block level first last lines) := by
  have hfirst := hopening ▸ Displays.token opening
  have hlast := hclosing ▸ Displays.token closing
  cases h with
  | nil => exact hfirst.append hlast
  | @cons ts line tss lines hline hlines =>
    have hhead := hline.1.spaced (isSpace_of_mem_newline (level + 1)) hline.2
    have htail := displays_flatMap_comma (level + 1) hlines
    have hend := hlast.spaced (isSpace_of_mem_newline level) (by simp)
    have hall := (hfirst.append (hhead.append htail)).append hend
    rw [block, intercalate_cons, intercalate_cons]
    · simpa using hall
    · nofun

theorem tokens_ne_nil (j : Json) : j.tokens ≠ [] := by
  cases j <;> simp [tokens]

mutual
/-- The laid-out text of a document displays its tokens. -/
theorem displays_layout (level : Nat) (j : Json) : Displays j.tokens (j.layout level) := by
  match j with
  | .null | .bool _ | .number _ | .string _ => exact .token _
  | .array items => exact displays_block level rfl rfl (displays_itemLines (level + 1) items)
  | .object members =>
    exact displays_block level rfl rfl (displays_memberLines (level + 1) members)

theorem displays_itemLines (level : Nat) (items : List Json) :
    List.Forall₂ (fun ts line => Displays ts line ∧ ts ≠ []) (itemTokens items)
      (itemLines level items) := by
  match items with
  | [] => exact .nil
  | item :: items =>
    exact .cons ⟨displays_layout level item, tokens_ne_nil item⟩ (displays_itemLines level items)

theorem displays_memberLines (level : Nat) (members : List (String × Json)) :
    List.Forall₂ (fun ts line => Displays ts line ∧ ts ≠ []) (memberTokens members)
      (memberLines level members) := by
  match members with
  | [] => exact .nil
  | (key, value) :: members =>
    have hvalue : Displays value.tokens ([' '] ++ value.layout level) :=
      (displays_layout level value).spaced (List.forall_mem_singleton.2 rfl) (tokens_ne_nil value)
    have hkey := (Displays.token (.string key)).append (.token .colon)
    exact .cons ⟨hkey.append hvalue, by simp⟩ (displays_memberLines level members)
end

/-! ### Reading documents -/

/-- The conditions under which a document is read back off its texts: each object names its keys
once, all numbers are integers of 64 bits, and the nesting is what reading allows. -/
structure IsReadable (j : Json) : Prop where
  keys : j.KeysDistinct
  integral : j.IsIntegral
  depth : j.depth ≤ maxNesting

/-- A text that displays a document is read as this document, whatever follows it that goes on with
no number. -/
theorem IsReadable.read? {j : Json} {cs rest : List Char} (hj : j.IsReadable)
    (h : Displays j.tokens cs) (hrest : Token.IsApart rest) :
    Json.read? (cs ++ rest) = some (j, rest) := by
  have hfeed := feed_tokens j [] (by simpa using hj.depth)
  have hverbatim : readVerbatim? (cs ++ rest) = some (j, rest) :=
    readFrom_of_reads (h.reads hj.integral.legible hrest) hfeed
  rw [Json.read?, hverbatim, Option.map_some, hj.keys.settled_eq]

/-- A document is read back off its compact text. -/
theorem IsReadable.read?_compact {j : Json} (hj : j.IsReadable) :
    Json.read? j.compact.toList = some (j, []) := by
  have hread := hj.read? (.flatMap_spell j.tokens) Token.isApart_nil
  rwa [compact, String.toList_ofList, ← List.append_nil (j.tokens.flatMap Token.spell)]

theorem IsReadable.parse?_compact {j : Json} (hj : j.IsReadable) :
    parse? j.compact = some j := by
  rw [parse?, hj.read?_compact]
  rfl

/-- A document is read back off its laid-out text, with the end of a line after it. -/
theorem IsReadable.parse?_pretty {j : Json} (hj : j.IsReadable) :
    parse? (j.pretty ++ "\n") = some j := by
  have hread : Json.read? (j.layout 0 ++ ['\n']) = some (j, ['\n']) :=
    hj.read? (displays_layout 0 j) (Token.isApart_cons.2 (by decide))
  have htext : (j.pretty ++ "\n").toList = j.layout 0 ++ ['\n'] := by
    simp [pretty]
  rw [parse?, htext, hread]
  rfl

end LdapFilter.Json
