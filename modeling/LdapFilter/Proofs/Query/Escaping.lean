import LdapFilter.Proofs.Query.Meaning
import LdapFilter.Proofs.Query.Run

/-!
# Escaping commutes with compiling

Escaping is a matter of single tests: a test under escaping is the test without it, with its operand
escaped (`testOf_escapeValues`). Runs only hand the tests on, so changing them one by one before a
run or after it is the same (`runPair_mapTests`). Hence the filter under escaping is the filter
without it, with the operands of its tests escaped, and errors are the same
(`compile_escapeValues`).
-/

namespace LdapFilter

/-! ### Changing tests -/

/-- A test with its operand escaped. Masks and absences have nothing to escape. -/
def Test.escaped : Test → Test
  | .equal attr value => .equal attr (AssertionValue.escape value)
  | .absent attr => .absent attr
  | .bitwise rule attr mask => .bitwise rule attr mask
  | .inChain attr entry => .inChain attr (AssertionValue.escape entry)

namespace Filter

variable (h : Test → Test)

mutual
/-- A filter with its tests changed one by one. -/
def mapTests : Filter → Filter
  | .test t => .test (h t)
  | .not t => .not (h t)
  | .and children _ => .andOf (mapAllTests children)
  | .or children _ => .orOf (mapAllTests children)
  | .nor members _ => .noneOf (members.map h)

def mapAllTests : List Filter → List Filter
  | [] => []
  | f :: fs => f.mapTests :: mapAllTests fs
end

theorem mapAllTests_eq_map (fs : List Filter) : mapAllTests h fs = fs.map (mapTests h) := by
  induction fs with
  | nil => rfl
  | cons f fs ih => rw [mapAllTests, List.map_cons, ih]

theorem mapTests_andOf (children : List Filter) :
    (andOf children).mapTests h = andOf (children.map (mapTests h)) := by
  rw [andOf, mapTests, mapAllTests_eq_map]

theorem mapTests_orOf (children : List Filter) :
    (orOf children).mapTests h = orOf (children.map (mapTests h)) := by
  rw [orOf, mapTests, mapAllTests_eq_map]

theorem mapTests_noneOf (members : List Test) :
    (noneOf members).mapTests h = noneOf (members.map h) := by
  rw [noneOf, mapTests]

theorem asTest_mapTests (parent : Kind) (f : Filter) :
    (f.mapTests h).asTest parent = h <$> f.asTest parent := by
  cases f <;> rfl

theorem norOf_map_mapTests (children : List Filter) :
    norOf (children.map (mapTests h)) = mapTests h <$> norOf children := by
  have hmembers : (children.map (mapTests h)).mapM (asTest .nor) =
      List.map h <$> children.mapM (asTest .nor) := by
    rw [List.mapM_map, ← mapM_map_eq_map_mapM]
    congr 1
    funext child
    exact asTest_mapTests h .nor child
  simp [norOf, hmembers, mapTests_noneOf]

end Filter

namespace Query

open LdapFilter.Filter (mapTests)

variable (h : Test → Test)

/-! ### Runs -/

theorem acceptBelow_mapTests (key : String) (value : Json) (child : Filter) :
    acceptBelow key value (child.mapTests h) = acceptBelow key value child := by
  have hnor : Group.nor.accept (child.mapTests h) = Group.nor.accept child := by
    cases child <;> rfl
  rcases acceptBelow_eq_or key value with haccept | haccept
  · rw [haccept, hnor]
  · rw [haccept]

theorem gather_map_mapTests (group : Group) (children : List Filter) :
    group.gather (children.map (mapTests h)) = mapTests h <$> group.gather children := by
  cases group with
  | and => exact congrArg Except.ok (Filter.mapTests_andOf h children).symm
  | or => exact congrArg Except.ok (Filter.mapTests_orOf h children).symm
  | nor => exact Filter.norOf_map_mapTests h children

theorem listGroup_map_mapTests (group : Group) (items : List Json) (children : List Filter) :
    listGroup group items (children.map (mapTests h)) =
      mapTests h <$> listGroup group items children := by
  unfold listGroup
  split
  · exact gather_map_mapTests h group children
  · rfl

theorem negation_map_mapTests (children : List Filter) :
    negation (children.map (mapTests h)) = mapTests h <$> negation children := by
  match children with
  | [] | _ :: _ :: _ => rfl
  | [child] => cases child <;> rfl

/-- What a pair comes to changes with its test or its children. -/
theorem assemble_map_mapTests (test : String → Json → Except FilterError Test) (key : String)
    (value : Json) (children : List Filter) :
    assemble (fun key value => h <$> test key value) key value (children.map (mapTests h)) =
      mapTests h <$> assemble test key value children := by
  have htest : Filter.test <$> h <$> test key value =
      mapTests h <$> Filter.test <$> test key value := by
    cases test key value <;> rfl
  unfold assemble
  split
  · split
    · exact gather_map_mapTests h .and children
    · rfl
  · split
    · exact listGroup_map_mapTests h .or _ children
    · rfl
  · split
    · exact listGroup_map_mapTests h .nor _ children
    · rfl
  · split
    · exact gather_map_mapTests h .nor children
    · exact negation_map_mapTests h children
    · rfl
  all_goals exact htest

theorem admitting_mapTests (key : String) (value : Json) (r : Run Filter) :
    (mapTests h <$> r).admitting (acceptBelow key value) =
      mapTests h <$> r.admitting (acceptBelow key value) := by
  simp [Run.admitting, acceptBelow_mapTests]

/-- A run over changed tests is the run over the tests, with the tests of its filter changed. -/
theorem runPair_mapTests (test : String → Json → Except FilterError Test) (depth : Nat)
    (key : String) (value : Json) :
    runPair (fun key value => h <$> test key value) depth key value =
      mapTests h <$> runPair test depth key value := by
  induction key, value using payload_induction generalizing depth with
  | h key value ih =>
  have hchildren : ((reached key value).mapM fun p : String × Json =>
      (runPair (fun key value => h <$> test key value) (depth + 1) p.1 p.2).admitting
        (acceptBelow key value)) =
      List.map (mapTests h) <$> (reached key value).mapM fun p : String × Json =>
        (runPair test (depth + 1) p.1 p.2).admitting (acceptBelow key value) := by
    rw [← mapM_map_eq_map_mapM]
    refine mapM_congr_of_mem fun p hp => ?_
    rw [ih p (mem_payload_of_mem_reached hp), admitting_mapTests]
  have hof : ∀ x : Except FilterError Filter,
      Run.of (mapTests h <$> x) = mapTests h <$> Run.of x := by
    rintro (e | f) <;> rfl
  rw [runPair_eq, runPair_eq, hchildren]
  simp [assemble_map_mapTests, hof]

/-- A filter stands alone as a document in the same way after its tests were changed, as long as
tests of equality and absence stay such tests. -/
theorem rooted_mapTests (hliteral : ∀ t, (h t).isLiteral = t.isLiteral) (f : Filter) :
    rooted (f.mapTests h) = (rooted f).mapTests h := by
  cases f with
  | test t =>
    rw [mapTests, rooted, rooted, hliteral]
    split <;> rfl
  | _ => rfl

/-! ### Tests -/

/-- A value is empty exactly when its escape is, so escaping makes no absence of an equality. -/
theorem ofValue_escape (attr : String) (value : Option String) :
    Test.ofValue attr (value.map AssertionValue.escape) =
      Test.escaped <$> Test.ofValue attr value := by
  have hvalue : (value.map AssertionValue.escape).filter (· ≠ "") =
      (value.filter (· ≠ "")).map AssertionValue.escape := by
    cases value with
    | none => rfl
    | some text => by_cases htext : text = "" <;> simp [Option.filter, escape_eq_empty_iff, htext]
  unfold Test.ofValue
  rw [hvalue]
  cases Test.nonEmpty .equal attr with
  | error e => rfl
  | ok attr => cases value.filter (· ≠ "") <;> rfl

theorem ofMask_escaped (rule : BitRule) (attr : String) (mask : Int64) :
    Test.escaped <$> Test.ofMask rule attr mask = Test.ofMask rule attr mask := by
  unfold Test.ofMask
  cases Test.nonEmpty rule.kind attr <;> rfl

theorem ofEntry_escape (attr entry : String) :
    Test.ofEntry attr (AssertionValue.escape entry) = Test.escaped <$> Test.ofEntry attr entry := by
  unfold Test.ofEntry
  cases Test.nonEmpty .inChain attr <;> rfl

variable (o : Options)

/-- With escaping, the text of a scalar is the escape of its text without. -/
theorem literalText?_escaped {value : Json} (h : o.escapeValues = true) :
    literalText? o value = (literalText? {} value).map (Option.map AssertionValue.escape) := by
  cases value with
  | bool b => cases b <;> rfl
  | string s => simp [literalText?, Options.operandText, h]
  | number n =>
    rw [literalText?, literalText?]
    cases Integer64.ofNumber? n with
    | none => rfl
    | some m => simp [escape_decimal]
  | _ => rfl

theorem literal_escapeValues (attr : String) (value : Json) :
    literal { o with escapeValues := true } attr value =
      Test.escaped <$> literal { o with escapeValues := false } attr value := by
  have hplain : literalText? { o with escapeValues := false } value = literalText? {} value := by
    cases value with
    | bool b => cases b <;> rfl
    | _ => rfl
  have hcheck : ({ o with escapeValues := true } : Options).checkAttribute attr =
      ({ o with escapeValues := false } : Options).checkAttribute attr := rfl
  unfold literal
  rw [literalText?_escaped { o with escapeValues := true } rfl, hplain, hcheck]
  cases ({ o with escapeValues := false } : Options).checkAttribute attr with
  | error e => rfl
  | ok _ =>
    cases literalText? {} value with
    | none => rfl
    | some text => exact ofValue_escape attr text

theorem bitwise_escapeValues (rule : BitRule) (payload : Json) :
    bitwise { o with escapeValues := true } rule payload =
      Test.escaped <$> bitwise { o with escapeValues := false } rule payload := by
  unfold bitwise
  simp only [map_bind]
  refine bind_congr fun p => bind_congr fun _ => ?_
  cases Integer64.ofJson? p.2 with
  | none => rfl
  | some mask => exact (ofMask_escaped rule p.1 mask).symm

theorem chain_escapeValues (payload : Json) :
    chain { o with escapeValues := true } payload =
      Test.escaped <$> chain { o with escapeValues := false } payload := by
  unfold chain
  simp only [map_bind]
  refine bind_congr fun p => bind_congr fun _ => ?_
  cases p.2 with
  | string entry => exact ofEntry_escape p.1 entry
  | _ => rfl

/-- The test of a pair under escaping is its test without it, with its operand escaped. -/
theorem testOf_escapeValues (key : String) (value : Json) :
    testOf { o with escapeValues := true } key value =
      Test.escaped <$> testOf { o with escapeValues := false } key value := by
  unfold testOf
  split
  · exact bitwise_escapeValues o .all value
  · exact bitwise_escapeValues o .any value
  · exact chain_escapeValues o value
  · exact literal_escapeValues o key value

/-! ### Documents -/

theorem isLiteral_escaped (t : Test) : t.escaped.isLiteral = t.isLiteral := by
  cases t <;> rfl

/-- The run over a document under escaping takes the same steps. -/
theorem run_escapeValues (d : Json) :
    run { o with escapeValues := true } d =
      mapTests Test.escaped <$> run { o with escapeValues := false } d := by
  match d with
  | .object ((key, value) :: rest) =>
    have htest : testOf { o with escapeValues := true } =
        fun key value => Test.escaped <$> testOf { o with escapeValues := false } key value :=
      funext₂ (testOf_escapeValues o)
    simp only [run, htest, runPair_mapTests, Functor.map_map,
      rooted_mapTests Test.escaped isLiteral_escaped]
  | .object [] | .null | .bool _ | .number _ | .string _ | .array _ => rfl

/-- Limits are looked at without regard to escaping. -/
theorem pass_escapeValues (count : Nat) (steps : List Step) :
    pass { o with escapeValues := true } count steps =
      pass { o with escapeValues := false } count steps := by
  induction steps generalizing count with
  | nil => rfl
  | cons step steps ih =>
    cases step with
    | visit => exact bind_congr ih
    | enter level => exact bind_congr fun _ => ih count

/-- Escaping commutes with compiling: under escaping a document gives the filter that it gives
without it, with every value and every entry escaped, or the same error. -/
theorem compile_escapeValues (d : Json) :
    compile { o with escapeValues := true } d =
      mapTests Test.escaped <$> compile { o with escapeValues := false } d := by
  rw [compile_eq_under, compile_eq_under, run_escapeValues, Run.under_map, Run.under,
    pass_escapeValues, ← Run.under]
  simp only [Functor.map_map]

end Query

end LdapFilter
