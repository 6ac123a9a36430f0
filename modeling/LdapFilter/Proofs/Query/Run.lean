import LdapFilter.Proofs.Query.Compile
import Mathlib.Data.List.TakeWhile

/-!
# Runs without limits

The limits on a document are looked at whenever a pair is visited or the payload of a combination is
entered. A run leaves them out and records these steps instead, up to its end or its first error.
It knows the options only through the tests that it is given for the pairs, so all that is said of
runs is said without counting.

Main statement: compiling a pair under limits is running over it without any, with the limits
imposed on the steps of the run (`pair_eq_under`).
-/

namespace LdapFilter.Query

/-- A step that a limit is about. -/
inductive Step where
  /-- A pair is visited. -/
  | visit
  /-- The payload of a combination is entered, at a level. -/
  | enter (level : Nat)
deriving DecidableEq, Repr

/-- A computation without limits: the steps that it takes, in order, and what it ends in. -/
@[ext]
structure Run (α : Type) where
  steps : List Step
  result : Except FilterError α

namespace Run

variable {α β : Type}

/-- Run on with what a run ends in. After an error there are no more steps. -/
def andThen (r : Run α) (f : α → Run β) : Run β :=
  match r.result with
  | .ok a => ⟨r.steps ++ (f a).steps, (f a).result⟩
  | .error e => ⟨r.steps, .error e⟩

instance : Monad Run where
  pure a := ⟨[], .ok a⟩
  bind := andThen

instance : LawfulMonad Run := by
  refine LawfulMonad.mk' Run ?_ ?_ ?_
  · rintro α ⟨steps, _ | a⟩
    · rfl
    · exact Run.ext (List.append_nil _) rfl
  · intro α β a f
    exact Run.ext (List.nil_append _) rfl
  · rintro α β γ ⟨steps, _ | a⟩ f g
    · rfl
    · show andThen (andThen _ _) _ = andThen _ _
      simp only [andThen]
      cases hf : (f a).result with
      | error e => simp [hf, andThen, bind]
      | ok b => simp [hf, andThen, bind, List.append_assoc]

/-- Steps, with nothing to end in. -/
def take (steps : List Step) : Run Unit :=
  ⟨steps, .ok ()⟩

/-- What takes no steps. -/
def of (result : Except FilterError α) : Run α :=
  ⟨[], result⟩

/-- A run whose end has to be accepted. -/
def admitting (accept : α → Except FilterError Unit) (r : Run α) : Run α := do
  let a ← r
  Run.of (accept a)
  return a

end Run

/-! ### Runs over documents -/

/-- The test that a pair is compiled to when it asks for no combination. -/
def testOf (o : Options) (key : String) (value : Json) : Except FilterError Test :=
  match Keyword.ofKey? key with
  | some .band => bitwise o .all value
  | some .bor => bitwise o .any value
  | some .recurse => chain o value
  | _ => literal o key value

/-- The pairs that a payload is read for: those of its object, or those of the objects in its list,
up to an item that is no object. -/
def reached (key : String) (value : Json) : List (String × Json) :=
  match Keyword.ofKey? key, value with
  | some .and, .object members | some .not, .object members => members
  | some .or, .array items | some .nor, .array items => objectPairs (items.takeWhile isObject)
  | _, _ => []

/-- Whether a child may stand below a pair. A negation of several pairs takes what a nor group does,
and that of a single pair is only looked at as a whole. -/
def acceptBelow (key : String) (value : Json) : Filter → Except FilterError Unit :=
  match Keyword.ofKey? key, value with
  | some .nor, _ | some .not, .object (_ :: _ :: _) => Group.nor.accept
  | _, _ => fun _ => .ok ()

theorem acceptBelow_eq_or (key : String) (value : Json) :
    acceptBelow key value = Group.nor.accept ∨ acceptBelow key value = fun _ => .ok () := by
  unfold acceptBelow
  split
  · exact Or.inl rfl
  · exact Or.inl rfl
  · exact Or.inr rfl

/-- The negation of what the only pair of an object comes to. -/
def negation : List Filter → Except FilterError Filter
  | [inner] =>
    match inner.test? with
    | some t => .ok (.not t)
    | none => .error (.structural (.payload .not) .singleTest)
  | _ => .error (.structural (.payload .not) .someProperty)

/-- The group of what the pairs of the objects in a list come to. -/
def listGroup (group : Group) (items : List Json) (children : List Filter) :
    Except FilterError Filter :=
  if items.all isObject then group.gather children
  else .error (.structural (.payload group.keyword) .objectArray)

section

variable (test : String → Json → Except FilterError Test)

/-- What a pair comes to after the pairs of its payload: a test, a combination of its children, or
the error of a payload that does not have the shape which the keyword asks for. -/
def assemble (key : String) (value : Json) (children : List Filter) : Except FilterError Filter :=
  match Keyword.ofKey? key with
  | some .and =>
    match value with
    | .object _ => Group.and.gather children
    | _ => .error (.structural (.payload .and) .testsObject)
  | some .or =>
    match value with
    | .array items => listGroup .or items children
    | _ => .error (.structural (.payload .or) .objectArray)
  | some .nor =>
    match value with
    | .array items => listGroup .nor items children
    | _ => .error (.structural (.payload .nor) .objectArray)
  | some .not =>
    match value with
    | .object (_ :: _ :: _) => Group.nor.gather children
    | .object _ => negation children
    | _ => .error (.structural (.payload .not) .anyObject)
  | none | some .band | some .bor | some .recurse => .test <$> test key value

/-- The steps that a pair takes before the pairs of its payload: it is visited, and a combination
enters its payload, whatever that is. -/
def opening (depth : Nat) (key : String) : List Step :=
  if isCombination key then [.visit, .enter (depth + 1)] else [.visit]

theorem reached_of_not_isCombination {key : String} {value : Json}
    (h : isCombination key = false) : reached key value = [] := by
  unfold reached
  split <;> simp_all [isCombination]

theorem mem_objectPairs_takeWhile {p : String × Json} {items : List Json}
    (h : p ∈ objectPairs (items.takeWhile isObject)) : p ∈ objectPairs items := by
  obtain ⟨members, hmembers, hp⟩ := mem_objectPairs.1 h
  exact mem_objectPairs.2 ⟨members, (List.takeWhile_sublist _).subset hmembers, hp⟩

/-- A payload is read for pairs that it has. -/
theorem mem_payload_of_mem_reached {p : String × Json} {key : String} {value : Json}
    (h : p ∈ reached key value) : p ∈ payload key value := by
  unfold reached at h
  split at h
  · next hkey => simpa [payload, hkey] using h
  · next hkey => simpa [payload, hkey] using h
  · next hkey => simpa [payload, hkey] using mem_objectPairs_takeWhile h
  · next hkey => simpa [payload, hkey] using mem_objectPairs_takeWhile h
  · simp at h

/-- The run over a pair at a depth, where `test` compiles the pairs that are tests. -/
def runPair (depth : Nat) (key : String) (value : Json) : Run Filter := do
  Run.take (opening depth key)
  let children ← (reached key value).attach.mapM fun p =>
    (runPair (depth + 1) p.1.1 p.1.2).admitting (acceptBelow key value)
  Run.of (assemble test key value children)
termination_by sizeOf value
decreasing_by exact sizeOf_lt_of_mem_payload (mem_payload_of_mem_reached p.2)

theorem runPair_eq (depth : Nat) (key : String) (value : Json) :
    runPair test depth key value = (do
      Run.take (opening depth key)
      let children ← (reached key value).mapM fun p =>
        (runPair test (depth + 1) p.1 p.2).admitting (acceptBelow key value)
      Run.of (assemble test key value children)) := by
  rw [runPair]
  simp only [List.mapM_subtype, List.unattach_attach]

end

def run (o : Options) : Json → Run Filter
  | .object [] => Run.of (.error (.structural .document .someProperty))
  | .object ((key, value) :: _) => rooted <$> runPair (testOf o) 0 key value
  | _ => Run.of (.error (.structural .document .documentObject))

/-! ### Limits on steps -/

/-- The number of pairs after some steps under limits, or the error that the first step too many
ends in. -/
def pass (o : Options) (count : Nat) : List Step → Except FilterError Nat
  | [] => return count
  | .visit :: steps => do pass o (← countPair o count) steps
  | .enter level :: steps => do
    enter o level
    pass o count steps

theorem pass_append (o : Options) (count : Nat) (steps steps' : List Step) :
    pass o count (steps ++ steps') = (do pass o (← pass o count steps) steps') := by
  induction steps generalizing count with
  | nil => rfl
  | cons step steps ih => cases step <;> simp [pass, ih]

namespace Run

variable {α β : Type} {o : Options} {count : Nat}

/-- A run under limits, after a number of pairs. -/
def under (o : Options) (count : Nat) (r : Run α) : Except FilterError (α × Nat) := do
  let count ← pass o count r.steps
  return (← r.result, count)

@[simp] theorem under_of (result : Except FilterError α) :
    (Run.of result).under o count = (do return (← result, count)) :=
  rfl

@[simp] theorem under_bind (r : Run α) (f : α → Run β) :
    (r >>= f).under o count = (do
      let (a, count) ← r.under o count
      (f a).under o count) := by
  obtain ⟨steps, e | a⟩ := r
  · show under o count (andThen _ _) = _
    simp only [andThen, under]
    cases pass o count steps <;> rfl
  · show under o count (andThen _ _) = _
    simp only [andThen, under, pass_append]
    cases pass o count steps <;> rfl

@[simp] theorem under_map (f : α → β) (r : Run α) :
    (f <$> r).under o count = (fun p => (f p.1, p.2)) <$> r.under o count := by
  rw [map_eq_pure_bind, under_bind, map_eq_pure_bind]
  rfl

@[simp] theorem under_admitting (accept : α → Except FilterError Unit) (r : Run α) :
    (r.admitting accept).under o count = (do
      let (a, count) ← r.under o count
      accept a
      return (a, count)) := by
  simp [admitting]

@[simp] theorem under_take (steps : List Step) :
    (Run.take steps).under o count = (do return ((), ← pass o count steps)) :=
  rfl

end Run

/-! ### Compiling as running -/

section

variable {o : Options} {depth : Nat} {key : String} {value : Json}

/-- The pairs of an object are compiled one after the other, as the runs over them are made. -/
theorem pairs_eq_under (group : Group) {ps : List (String × Json)}
    (ih : ∀ p ∈ ps, ∀ count,
      pair o depth count p.1 p.2 = (runPair (testOf o) depth p.1 p.2).under o count)
    (count : Nat) :
    pairs o group depth count ps =
      (ps.mapM fun p : String × Json =>
        (runPair (testOf o) depth p.1 p.2).admitting group.accept).under o count := by
  induction ps generalizing count with
  | nil => rfl
  | cons p ps ihps =>
    rw [List.forall_mem_cons] at ih
    simp [pairs, ih.1, ihps ih.2]

/-- A list with an item that is no object is read up to this item. -/
theorem items_eq_error (group : Group) {items : List Json}
    (h : items.all isObject = false) (count : Nat) :
    Query.items o group depth count items = (do
      let _ ← pairs o group depth count (objectPairs (items.takeWhile isObject))
      .error (.structural (.payload group.keyword) .objectArray)) := by
  induction items generalizing count with
  | nil => simp at h
  | cons item items ih =>
    cases item with
    | object members =>
      have hrest : items.all isObject = false := by simpa [isObject] using h
      have htake : objectPairs ((Json.object members :: items).takeWhile isObject) =
          members ++ objectPairs (items.takeWhile isObject) := rfl
      simp [Query.items, ih hrest, htake, pairs_append]
    | _ => rfl

/-- The pairs of an object make up a group as the runs over them do. -/
theorem gather_pairs_eq_under (group : Group) {ps : List (String × Json)}
    (ih : ∀ p ∈ ps, ∀ count,
      pair o depth count p.1 p.2 = (runPair (testOf o) depth p.1 p.2).under o count)
    (count : Nat) :
    (do
      let (children, count) ← pairs o group depth count ps
      return (← group.gather children, count)) =
    (do
      let children ← ps.mapM fun p : String × Json =>
        (runPair (testOf o) depth p.1 p.2).admitting group.accept
      Run.of (group.gather children)).under o count := by
  rw [Run.under_bind, pairs_eq_under group ih]
  simp

/-- The objects of a list make up a group as the runs over the pairs that they are read for do. -/
theorem gather_items_eq_under (group : Group) {items : List Json}
    (ih : ∀ p ∈ objectPairs (items.takeWhile isObject), ∀ count,
      pair o depth count p.1 p.2 = (runPair (testOf o) depth p.1 p.2).under o count)
    (count : Nat) :
    (do
      let (children, count) ← Query.items o group depth count items
      return (← group.gather children, count)) =
    (do
      let children ← (objectPairs (items.takeWhile isObject)).mapM fun p : String × Json =>
        (runPair (testOf o) depth p.1 p.2).admitting group.accept
      Run.of (listGroup group items children)).under o count := by
  rw [Run.under_bind, ← pairs_eq_under group ih]
  cases hobjects : items.all isObject with
  | true =>
    have hall := List.all_eq_true.1 hobjects
    rw [items_eq_pairs group hall, List.takeWhile_eq_self_iff.2 hall]
    simp [listGroup, hobjects]
  | false =>
    rw [items_eq_error group hobjects]
    simp [listGroup, hobjects]
    rfl

/-- A negation of one pair is compiled as the run over this pair. -/
theorem negate_pair_eq_under {p : String × Json}
    (ih : ∀ count, pair o depth count p.1 p.2 = (runPair (testOf o) depth p.1 p.2).under o count)
    (count : Nat) :
    (do
      let (inner, count) ← pair o depth count p.1 p.2
      match inner.test? with
      | some t => return (Filter.not t, count)
      | none => .error (.structural (.payload .not) .singleTest)) =
    (do
      let children ← [p].mapM fun p : String × Json =>
        (runPair (testOf o) depth p.1 p.2).admitting fun _ => .ok ()
      Run.of (negation children)).under o count := by
  rw [ih]
  simp only [List.mapM_cons, List.mapM_nil, Run.under_bind, Run.under_admitting, Run.under_of,
    bind_assoc, pure_bind]
  refine bind_congr fun r => ?_
  obtain ⟨inner, count⟩ := r
  cases inner <;> rfl

theorem pair_test_eq_under (h : isCombination key = false) (count : Nat) :
    pair o depth count key value = (runPair (testOf o) depth key value).under o count := by
  rw [pair, runPair_eq]
  cases hkey : Keyword.ofKey? key with
  | none => simp [opening, isCombination, reached, assemble, testOf, hkey, pass]
  | some k =>
    cases k with
    | band => simp [opening, isCombination, reached, assemble, testOf, hkey, pass]
    | bor => simp [opening, isCombination, reached, assemble, testOf, hkey, pass]
    | recurse => simp [opening, isCombination, reached, assemble, testOf, hkey, pass]
    | _ => simp [isCombination, hkey] at h

theorem pair_combination_eq_under (h : isCombination key = true)
    (ih : ∀ p ∈ reached key value, ∀ count, pair o (depth + 1) count p.1 p.2 =
      (runPair (testOf o) (depth + 1) p.1 p.2).under o count) (count : Nat) :
    pair o depth count key value = (runPair (testOf o) depth key value).under o count := by
  rw [pair, runPair_eq, opening, if_pos h, Run.under_bind, Run.under_take]
  simp only [pass, bind_assoc, pure_bind]
  refine bind_congr fun count => ?_
  cases hkey : Keyword.ofKey? key with
  | none => simp [isCombination, hkey] at h
  | some k =>
    cases k with
    | band | bor | recurse => simp [isCombination, hkey] at h
    | and =>
      refine bind_congr fun _ => ?_
      cases value with
      | object members =>
        simp only [reached, acceptBelow, assemble, hkey] at ih ⊢
        exact gather_pairs_eq_under .and ih count
      | _ => simp [reached, assemble, hkey]
    | or =>
      refine bind_congr fun _ => ?_
      cases value with
      | array items =>
        simp only [reached, acceptBelow, assemble, hkey] at ih ⊢
        exact gather_items_eq_under .or ih count
      | _ => simp [reached, assemble, hkey]
    | nor =>
      refine bind_congr fun _ => ?_
      cases value with
      | array items =>
        simp only [reached, acceptBelow, assemble, hkey] at ih ⊢
        exact gather_items_eq_under .nor ih count
      | _ => simp [reached, assemble, hkey]
    | not =>
      refine bind_congr fun _ => ?_
      cases value with
      | object members =>
        rcases members with _ | ⟨p, _ | ⟨second, rest⟩⟩
        · simp [reached, assemble, negation, hkey]
        · simp only [reached, acceptBelow, assemble, hkey] at ih ⊢
          exact negate_pair_eq_under (ih p List.mem_cons_self) count
        · simp only [reached, acceptBelow, assemble, hkey] at ih ⊢
          exact gather_pairs_eq_under .nor ih count
      | _ => simp [reached, assemble, hkey]

/-- Compiling a pair under limits is running over it, with the limits imposed on the run. -/
theorem pair_eq_under (o : Options) (depth count : Nat) (key : String) (value : Json) :
    pair o depth count key value = (runPair (testOf o) depth key value).under o count := by
  induction key, value using payload_induction generalizing depth count with
  | h key value ih =>
  by_cases hcomb : isCombination key = true
  · refine pair_combination_eq_under hcomb (fun p hp => ?_) count
    exact ih p (mem_payload_of_mem_reached hp) (depth + 1)
  · exact pair_test_eq_under (Bool.not_eq_true _ ▸ hcomb) count

/-- Compiling a document is running over it under the limits. -/
theorem compile_eq_under (o : Options) (d : Json) :
    compile o d = Prod.fst <$> (run o d).under o 0 := by
  match d with
  | .object ((key, value) :: rest) =>
    simp [compile, run, pair_eq_under]
  | .object [] | .null | .bool _ | .number _ | .string _ | .array _ => rfl

end

end LdapFilter.Query
