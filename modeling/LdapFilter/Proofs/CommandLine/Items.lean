import LdapFilter.CommandLine.Arguments
import LdapFilter.Proofs.Basic
import LdapFilter.Proofs.Numeral
import Mathlib.Data.List.Induction

/-!
# The items of a command line

A command line is a list of items: switches, parameters with their values, and arguments that belong
to no option. `Spells` is the grammar of command lines, which says how items are written, and
`Summarizes` says what a list of items asks for. A request is read from arguments by cutting them
into items (`exists_spells_of_readAll`) and taking these one by one (`readAll_of_spells`), and it
sums them up (`summarizes_of_foldlM`).
-/

namespace LdapFilter.CommandLine

open Text

/-! ### Names of options -/

def Switch.longName : Switch → String
  | escapeValues => "escape-values"
  | validateAttributes => "validate-attributes"
  | json => "json"
  | verbose => "verbose"
  | help => "help"
  | version => "version"

def Parameter.longName : Parameter → String
  | config => "config"
  | maxDepth => "max-depth"
  | maxNodes => "max-nodes"
  | allow => "allow"

theorem Switch.ofLong?_eq_some_iff {name : String} {s : Switch} :
    Switch.ofLong? name = some s ↔ name = s.longName := by
  constructor
  · intro h
    unfold Switch.ofLong? at h
    split at h <;> cases h <;> rfl
  · rintro rfl
    cases s <;> rfl

theorem Parameter.ofLong?_eq_some_iff {name : String} {p : Parameter} :
    Parameter.ofLong? name = some p ↔ name = p.longName := by
  constructor
  · intro h
    unfold Parameter.ofLong? at h
    split at h <;> cases h <;> rfl
  · rintro rfl
    cases p <;> rfl

/-- A letter stands for a switch or for a parameter. -/
theorem Parameter.switch_ofShort?_eq_none {c : Char} {p : Parameter}
    (h : Parameter.ofShort? c = some p) : Switch.ofShort? c = none := by
  unfold Parameter.ofShort? at h
  split at h
  · rfl
  · cases h

/-! ### Items -/

/-- What a command line is made of. -/
inductive Item where
  | switch (s : Switch)
  | parameter (p : Parameter) (value : String)
  | argument (value : String)
deriving DecidableEq, Repr

namespace Item

/-- The value that an item gives a parameter. -/
def value? (p : Parameter) : Item → Option String
  | parameter q value => if q = p then some value else none
  | switch _ | argument _ => none

def argument? : Item → Option String
  | argument value => some value
  | switch _ | parameter _ _ => none

/-- The values that items give a parameter, in order. -/
def values (p : Parameter) (items : List Item) : List String :=
  items.filterMap (value? p)

def arguments (items : List Item) : List String :=
  items.filterMap argument?

@[simp] theorem values_snoc (p : Parameter) (items : List Item) (item : Item) :
    values p (items ++ [item]) = values p items ++ (item.value? p).toList := by
  cases h : item.value? p <;> simp [values, h]

@[simp] theorem arguments_snoc (items : List Item) (item : Item) :
    arguments (items ++ [item]) = arguments items ++ item.argument?.toList := by
  cases h : item.argument? <;> simp [arguments, h]

/-- A request with one more item. -/
def applyTo (r : Request) : Item → Except Stop Request
  | switch s => r.turnOn s
  | parameter p value => r.assign p value
  | argument value => r.place value

end Item

/-! ### Grammar -/

/-- Letters that spell items, and the parameter that is left to wait for its value. -/
inductive SpellsLetters : List Char → List Item → Option Parameter → Prop
  | nil : SpellsLetters [] [] none
  | switch {c : Char} {cs : List Char} {items : List Item} {waiting : Option Parameter}
      {s : Switch} (hs : Switch.ofShort? c = some s) (h : SpellsLetters cs items waiting) :
      SpellsLetters (c :: cs) (.switch s :: items) waiting
  | attached {c : Char} {cs : List Char} {p : Parameter} (hp : Parameter.ofShort? c = some p)
      (hne : cs ≠ []) :
      SpellsLetters (c :: cs) [.parameter p (Request.attached cs)] none
  | waiting {c : Char} {p : Parameter} (hp : Parameter.ofShort? c = some p) :
      SpellsLetters [c] [] (some p)

/-- Options, without the hyphen in front, that spell items. -/
inductive SpellsOptions : List Char → List Item → Option Parameter → Prop
  | switch (s : Switch) : SpellsOptions ('-' :: s.longName.toList) [.switch s] none
  | value (p : Parameter) (value : List Char) :
      SpellsOptions ('-' :: (p.longName.toList ++ '=' :: value))
        [.parameter p (String.ofList value)] none
  | waiting (p : Parameter) : SpellsOptions ('-' :: p.longName.toList) [] (some p)
  | letters {cs : List Char} {items : List Item} {waiting : Option Parameter}
      (h : SpellsLetters cs items waiting) : SpellsOptions cs items waiting

/-- Arguments that spell items. After two hyphens alone there are no more options. -/
inductive Spells : List String → List Item → Prop
  | nil : Spells [] []
  | terminator (values : List String) : Spells ("--" :: values) (values.map .argument)
  | argument {value : String} {rest : List String} {items : List Item}
      (hvalue : Request.isOption value = false) (h : Spells rest items) :
      Spells (value :: rest) (.argument value :: items)
  | options {arg : String} {rest : List String} {first items : List Item} (hne : arg ≠ "--")
      (harg : Request.isOption arg = true)
      (hfirst : SpellsOptions (arg.toList.drop 1) first none) (h : Spells rest items) :
      Spells (arg :: rest) (first ++ items)
  | waiting {arg value : String} {rest : List String} {first items : List Item} {p : Parameter}
      (hne : arg ≠ "--") (harg : Request.isOption arg = true)
      (hfirst : SpellsOptions (arg.toList.drop 1) first (some p))
      (hvalue : Request.isOption value = false) (h : Spells rest items) :
      Spells (arg :: value :: rest) (first ++ .parameter p value :: items)

/-! ### Reading items -/

namespace Request

variable {r r' : Request} {cs : List Char} {items : List Item} {waiting : Option Parameter}
  {args : List String}

/-- Letters are read as the items that they spell. -/
theorem letters_of_spells (h : SpellsLetters cs items waiting) (r : Request) :
    r.letters cs = (fun r => (r, waiting)) <$> items.foldlM Item.applyTo r := by
  induction h generalizing r with
  | nil => rfl
  | @switch c cs items waiting s hs _ ih =>
    simp only [letters, hs, ih, List.foldlM_cons, map_bind]
    rfl
  | @attached c cs p hp hne =>
    simp only [letters, hp, Parameter.switch_ofShort?_eq_none hp, if_neg hne, List.foldlM_cons,
      List.foldlM_nil, bind_pure, map_eq_pure_bind]
    rfl
  | @waiting c p hp =>
    simp only [letters, hp, Parameter.switch_ofShort?_eq_none hp]
    rfl

/-- Letters that are read spell items. -/
theorem exists_spells_of_letters (h : r.letters cs = .ok (r', waiting)) :
    ∃ items, SpellsLetters cs items waiting := by
  induction cs generalizing r with
  | nil =>
    cases h
    exact ⟨[], .nil⟩
  | cons c cs ih =>
    rw [letters] at h
    split at h
    · next s hs =>
      obtain ⟨r₁, -, h⟩ := Except.bind_eq_ok_iff.1 h
      obtain ⟨items, hitems⟩ := ih h
      exact ⟨_, .switch hs hitems⟩
    · next p _ hp =>
      split at h
      · next hcs =>
        cases h
        subst hcs
        exact ⟨[], .waiting hp⟩
      · next hcs =>
        obtain ⟨r₁, -, h⟩ := Except.bind_eq_ok_iff.1 h
        cases h
        exact ⟨_, .attached hp hcs⟩
    · cases h

theorem long_switch (s : Switch) (r : Request) :
    r.long s.longName.toList = (fun r => (r, none)) <$> r.turnOn s := by
  cases s <;> rfl

theorem long_value (p : Parameter) (value : List Char) (r : Request) :
    r.long (p.longName.toList ++ '=' :: value) =
      (fun r => (r, none)) <$> r.assign p (String.ofList value) := by
  cases p <;> rfl

theorem long_waiting (p : Parameter) (r : Request) :
    r.long p.longName.toList = .ok (r, some p) := by
  cases p <;> rfl

theorem options_eq_letters {c : Char} (hc : c ≠ '-') (cs : List Char) (r : Request) :
    r.options (c :: cs) = r.letters (c :: cs) := by
  unfold options
  split
  · next h => exact absurd (List.cons.inj h).1 hc
  · rfl

/-- The hyphen is no letter of an option. -/
theorem options_of_spellsLetters (h : SpellsLetters cs items waiting) (r : Request) :
    r.options cs = r.letters cs := by
  cases h with
  | nil => rfl
  | switch hc | attached hc | waiting hc =>
    apply options_eq_letters
    rintro rfl
    cases hc

/-- Options are read as the items that they spell. -/
theorem options_of_spells (h : SpellsOptions cs items waiting) (r : Request) :
    r.options cs = (fun r => (r, waiting)) <$> items.foldlM Item.applyTo r := by
  cases h with
  | switch s =>
    simp only [List.foldlM_cons, List.foldlM_nil, bind_pure]
    exact long_switch s r
  | value p value =>
    simp only [List.foldlM_cons, List.foldlM_nil, bind_pure]
    exact long_value p value r
  | waiting p => exact long_waiting p r
  | letters h => rw [options_of_spellsLetters h, letters_of_spells h]

theorem exists_spells_of_long (h : r.long cs = .ok (r', waiting)) :
    ∃ items, SpellsOptions ('-' :: cs) items waiting := by
  have hname : (String.ofList (cs.takeWhile (· ≠ '='))).toList = cs.takeWhile (· ≠ '=') :=
    String.toList_ofList
  have hcs : cs.takeWhile (· ≠ '=') ++ cs.dropWhile (· ≠ '=') = cs :=
    List.takeWhile_append_dropWhile
  simp only [long] at h
  split at h
  · next s hs hdrop =>
    obtain ⟨r₁, -, h⟩ := Except.bind_eq_ok_iff.1 h
    cases h
    rw [Switch.ofLong?_eq_some_iff.1 hs] at hname
    rw [hdrop, List.append_nil, ← hname] at hcs
    rw [← hcs]
    exact ⟨_, .switch s⟩
  · next p _ hp hdrop =>
    cases h
    rw [Parameter.ofLong?_eq_some_iff.1 hp] at hname
    rw [hdrop, List.append_nil, ← hname] at hcs
    rw [← hcs]
    exact ⟨_, .waiting p⟩
  · next p c value _ hp hdrop =>
    obtain ⟨r₁, -, h⟩ := Except.bind_eq_ok_iff.1 h
    cases h
    obtain ⟨hc, hcs⟩ := eq_append_of_dropWhile hdrop
    rw [Parameter.ofLong?_eq_some_iff.1 hp] at hname
    have hc : c = '=' := by simpa using hc
    rw [hcs, ← hname, hc]
    exact ⟨_, .value p value⟩
  · cases h

/-- Options that are read spell items. -/
theorem exists_spells_of_options (h : r.options cs = .ok (r', waiting)) :
    ∃ items, SpellsOptions cs items waiting := by
  unfold options at h
  split at h
  · exact exists_spells_of_long h
  · obtain ⟨items, hitems⟩ := exists_spells_of_letters h
    exact ⟨items, .letters hitems⟩

/-- Arguments are read as the items that they spell. -/
theorem readAll_of_spells (h : Spells args items) (r : Request) :
    readAll r none args = items.foldlM Item.applyTo r := by
  induction h generalizing r with
  | nil => rfl
  | terminator values =>
    rw [readAll, if_pos rfl, List.foldlM_map]
    rfl
  | @argument value rest items hvalue _ ih =>
    have hne : value ≠ "--" := by
      rintro rfl
      revert hvalue
      decide
    rw [readAll, if_neg hne, if_neg (by simp [hvalue]), List.foldlM_cons]
    exact bind_congr fun r => ih r
  | options hne harg hfirst _ ih =>
    rw [readAll, if_neg hne, if_pos harg, options_of_spells hfirst, List.foldlM_append]
    simp only [map_eq_pure_bind, bind_assoc, pure_bind]
    exact bind_congr fun r => ih r
  | waiting hne harg hfirst hvalue _ ih =>
    rw [readAll, if_neg hne, if_pos harg, options_of_spells hfirst, List.foldlM_append]
    simp only [map_eq_pure_bind, bind_assoc, pure_bind, List.foldlM_cons]
    refine bind_congr fun r => ?_
    rw [readAll, if_neg (by simp [hvalue])]
    exact bind_congr fun r => ih r

/-- Arguments that are read spell items, after the value that a parameter is waiting for. -/
theorem exists_spells_of_readAll_waiting (h : readAll r waiting args = .ok r') :
    match waiting with
    | none => ∃ items, Spells args items
    | some _ => ∃ value rest items, args = value :: rest ∧ isOption value = false ∧
        Spells rest items := by
  induction args generalizing r waiting with
  | nil =>
    cases waiting with
    | none => exact ⟨[], .nil⟩
    | some p => cases h
  | cons arg rest ih =>
    cases waiting with
    | some p =>
      rw [readAll] at h
      split at h
      · cases h
      · next hvalue =>
        obtain ⟨r₁, -, h⟩ := Except.bind_eq_ok_iff.1 h
        obtain ⟨items, hitems⟩ := ih h
        exact ⟨arg, rest, items, rfl, by simpa using hvalue, hitems⟩
    | none =>
      rw [readAll] at h
      split at h
      · next hterminator =>
        subst hterminator
        exact ⟨_, .terminator rest⟩
      · next hne =>
        split at h
        · next harg =>
          obtain ⟨⟨r₁, waiting⟩, hoptions, h⟩ := Except.bind_eq_ok_iff.1 h
          obtain ⟨first, hfirst⟩ := exists_spells_of_options hoptions
          cases waiting with
          | none =>
            obtain ⟨items, hitems⟩ := ih h
            exact ⟨_, .options hne harg hfirst hitems⟩
          | some p =>
            obtain ⟨value, rest, items, rfl, hvalue, hitems⟩ := ih h
            exact ⟨_, .waiting hne harg hfirst hvalue hitems⟩
        · next harg =>
          obtain ⟨r₁, -, h⟩ := Except.bind_eq_ok_iff.1 h
          obtain ⟨items, hitems⟩ := ih h
          exact ⟨_, .argument (by simpa using harg) hitems⟩

/-- Arguments that are read spell items. -/
theorem exists_spells_of_readAll (h : readAll r none args = .ok r') : ∃ items, Spells args items :=
  exists_spells_of_readAll_waiting h

/-! ### Values -/

/-- A value names a path, any but the empty one. -/
def IsPath (value path : String) : Prop :=
  value ≠ "" ∧ path = value

/-- A value is a count: digits, with an optional plus sign, for a number of 64 bits. -/
def IsCount (value : String) (n : Nat) : Prop :=
  (∃ ds, (value.toList = ds ∨ value.toList = '+' :: ds) ∧ Decimal.IsDigits ds ∧
    Decimal.placeValue ds = n) ∧ n < 2 ^ 64

theorem path_eq_ok_iff {value p : String} : path value = .ok p ↔ IsPath value p := by
  unfold path
  split <;> simp_all [IsPath, eq_comm]

theorem count_eq_ok_iff {value : String} {n : Nat} : count value = .ok n ↔ IsCount value n := by
  have hlimit : Options.countLimit = 2 ^ 64 := rfl
  have hread : (Decimal.toNatPlus? value.toList).filter (· < Options.countLimit) = some n ↔
      IsCount value n := by
    rw [Option.filter_eq_some_iff, Decimal.toNatPlus?_eq_some_iff, decide_eq_true_iff, hlimit]
    rfl
  rw [← hread, count]
  cases (Decimal.toNatPlus? value.toList).filter (· < Options.countLimit) <;> simp

/-! ### What items ask for -/

/-- What may be given once, by the values that give it. -/
inductive Once {α : Type} (Gives : String → α → Prop) : List String → Option α → Prop
  | absent : Once Gives [] none
  | given {value : String} {a : α} (h : Gives value a) : Once Gives [value] (some a)

theorem Once.snoc {α : Type} {Gives : String → α → Prop} {values : List String} {value : String}
    {read : Except Stop α} {old new : Option α} (hread : ∀ {a}, read = .ok a → Gives value a)
    (hold : Once Gives values old) (h : once old read = .ok new) :
    Once Gives (values ++ [value]) new := by
  cases hold with
  | absent =>
    obtain ⟨a, ha, rfl⟩ := Except.map_eq_ok_iff.1 h
    exact .given (hread ha)
  | given => cases h

/-- A request asks for what items say, each of them but the allowed attributes at most once. -/
structure Summarizes (items : List Item) (r : Request) : Prop where
  file : Once IsPath (Item.arguments items) r.file
  config : Once IsPath (Item.values .config items) r.config
  maxDepth : Once IsCount (Item.values .maxDepth items) r.maxDepth
  maxNodes : Once IsCount (Item.values .maxNodes items) r.maxNodes
  allow : r.allow = Item.values .allow items
  escapeValues : r.escapeValues = true ↔ .switch .escapeValues ∈ items
  validateAttributes : r.validateAttributes = true ↔ .switch .validateAttributes ∈ items
  json : r.json = true ↔ .switch .json ∈ items

theorem summarizes_nil : Summarizes [] {} :=
  ⟨.absent, .absent, .absent, .absent, rfl, by simp, by simp, by simp⟩

/-- One more item is summed up by what it is applied to. -/
theorem Summarizes.snoc {item : Item} (h : Summarizes items r) (hitem : item.applyTo r = .ok r') :
    Summarizes (items ++ [item]) r' := by
  obtain ⟨hfile, hconfig, hdepth, hnodes, hallow, hescape, hvalidate, hjson⟩ := h
  cases item with
  | switch s =>
    cases s with
    | escapeValues | validateAttributes | json =>
      simp only [Item.applyTo, turnOn] at hitem
      split at hitem
      · cases hitem
      · cases hitem
        constructor <;> simp [Item.value?, Item.argument?, *]
    | verbose =>
      cases hitem
      constructor <;> simp [Item.value?, Item.argument?, *]
    | help | version => cases hitem
  | parameter p value =>
    cases p with
    | config =>
      obtain ⟨given, hgiven, ⟨⟩⟩ := Except.bind_eq_ok_iff.1 hitem
      have hsnoc := hconfig.snoc path_eq_ok_iff.1 hgiven
      constructor <;> simp [Item.value?, Item.argument?, *]
    | maxDepth =>
      obtain ⟨given, hgiven, ⟨⟩⟩ := Except.bind_eq_ok_iff.1 hitem
      have hsnoc := hdepth.snoc count_eq_ok_iff.1 hgiven
      constructor <;> simp [Item.value?, Item.argument?, *]
    | maxNodes =>
      obtain ⟨given, hgiven, ⟨⟩⟩ := Except.bind_eq_ok_iff.1 hitem
      have hsnoc := hnodes.snoc count_eq_ok_iff.1 hgiven
      constructor <;> simp [Item.value?, Item.argument?, *]
    | allow =>
      cases hitem
      constructor <;> simp [Item.value?, Item.argument?, *]
  | argument value =>
    obtain ⟨given, hgiven, ⟨⟩⟩ := Except.bind_eq_ok_iff.1 hitem
    have hsnoc := hfile.snoc path_eq_ok_iff.1 hgiven
    constructor <;> simp [Item.value?, Item.argument?, *]

/-- A request that items are applied to one by one sums them up. -/
theorem summarizes_of_foldlM (h : items.foldlM Item.applyTo {} = .ok r) : Summarizes items r := by
  induction items using List.reverseRecOn generalizing r with
  | nil =>
    cases h
    exact summarizes_nil
  | append_singleton items item ih =>
    rw [List.foldlM_append] at h
    obtain ⟨r₀, hitems, hitem⟩ := Except.bind_eq_ok_iff.1 h
    rw [List.foldlM_cons, Except.bind_eq_ok_iff] at hitem
    obtain ⟨_, hitem, ⟨⟩⟩ := hitem
    exact (ih hitems).snoc hitem

end Request

end LdapFilter.CommandLine
