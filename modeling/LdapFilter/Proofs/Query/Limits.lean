import LdapFilter.Proofs.Query.Run
import Mathlib.Data.List.Induction

/-!
# Limits as cut-offs

The limits do no more than cut a run off at its first step beyond one of them: a document that stays
within them ends as its run without limits does, with a filter or with an error, and any other
document ends in the error of the first step too many
(`compile_eq_result_or_exceeds`). So errors never change places with one another, and larger limits
accept whatever smaller ones do.
-/

namespace LdapFilter.Query

variable {α β : Type} {o : Options} {steps : List Step} {depth : Nat}

/-! ### Steps beyond the limits -/

/-- Steps that stay within the limits. -/
structure Within (o : Options) (steps : List Step) : Prop where
  visits_le : steps.count .visit ≤ o.maxNodes
  level_le : ∀ level, .enter level ∈ steps → level ≤ o.maxDepth

/-- The first step beyond the limits, and the error that it ends in: one pair more than are allowed
is visited, or a payload is entered one level below the last that is allowed. -/
inductive Exceeds (o : Options) : List Step → FilterError → Prop
  | visit {before after : List Step} (h : Within o before)
      (hcount : before.count .visit = o.maxNodes) :
      Exceeds o (before ++ .visit :: after) (.tooManyNodes o.maxNodes)
  | enter {before after : List Step} (h : Within o before) :
      Exceeds o (before ++ .enter (o.maxDepth + 1) :: after)
        (.nestingTooDeep o.maxDepth (o.maxDepth + 1))

theorem Exceeds.append {e : FilterError} (h : Exceeds o steps e) (steps' : List Step) :
    Exceeds o (steps ++ steps') e := by
  cases h with
  | visit h hcount =>
    rw [List.append_assoc]
    exact .visit h hcount
  | enter h =>
    rw [List.append_assoc]
    exact .enter h

/-- Steps within the limits are passed, and only visits are counted. -/
theorem pass_eq_ok {count : Nat} (hcount : count + steps.count .visit ≤ o.maxNodes)
    (hlevel : ∀ level, .enter level ∈ steps → level ≤ o.maxDepth) :
    pass o count steps = .ok (count + steps.count .visit) := by
  induction steps generalizing count with
  | nil => rfl
  | cons step steps ih =>
    have hrest : ∀ level, .enter level ∈ steps → level ≤ o.maxDepth := fun level h =>
      hlevel level (List.mem_cons_of_mem _ h)
    cases step with
    | visit =>
      rw [List.count_cons_self] at hcount ⊢
      rw [pass, countPair_eq_ok_iff.2 ⟨rfl, by omega⟩]
      exact (ih (by omega) hrest).trans (by rw [Nat.add_assoc, Nat.add_comm 1])
    | enter level =>
      rw [List.count_cons_of_ne (by simp)] at hcount ⊢
      rw [pass, enter_eq_ok_iff.2 (hlevel level List.mem_cons_self)]
      exact ih hcount hrest

theorem Within.pass_eq (h : Within o steps) : pass o 0 steps = .ok (steps.count .visit) := by
  have hcount : 0 + steps.count .visit ≤ o.maxNodes := by
    rw [Nat.zero_add]
    exact h.visits_le
  rw [pass_eq_ok hcount h.level_le, Nat.zero_add]

/-- The first step beyond the limits ends the run. -/
theorem Exceeds.pass_eq {e : FilterError} (h : Exceeds o steps e) : pass o 0 steps = .error e := by
  cases h with
  | visit h hcount =>
    rw [pass_append, h.pass_eq, hcount]
    show pass o o.maxNodes _ = _
    rw [pass, countPair, if_pos (Nat.lt_succ_self _)]
    rfl
  | enter h =>
    rw [pass_append, h.pass_eq]
    show pass o _ _ = _
    rw [pass, Query.enter, if_pos (Nat.lt_succ_self _)]
    rfl

/-! ### Levels -/

/-- Steps inside a payload of some level enter payloads only from the level above. -/
def Descends (depth : Nat) (steps : List Step) : Prop :=
  ∀ before level after, steps = before ++ .enter level :: after →
    level = depth + 1 ∨ .enter (level - 1) ∈ before

theorem Descends.nil : Descends depth [] := by
  intro before level after h
  simp at h

theorem Descends.append {steps' : List Step} (h : Descends depth steps)
    (h' : Descends depth steps') : Descends depth (steps ++ steps') := by
  intro before level after heq
  rcases List.append_eq_append_iff.1 heq with ⟨middle, rfl, hrest⟩ | ⟨middle, rfl, hrest⟩
  · exact (h' middle level after hrest).imp id (List.mem_append_right _)
  · cases middle with
    | nil => exact (h' [] level after hrest.symm).imp id (by simp)
    | cons step middle =>
      cases hrest
      exact h before level middle rfl

theorem descends_visit : Descends depth [.visit] := by
  intro before level after h
  cases before with
  | nil => simp at h
  | cons step before => simp at h

/-- The payload of a pair is entered from the level of the pair. -/
theorem Descends.enter (h : Descends (depth + 1) steps) :
    Descends depth (.enter (depth + 1) :: steps) := by
  intro before level after heq
  cases before with
  | nil =>
    cases heq
    exact Or.inl rfl
  | cons step before =>
    cases heq
    rcases h before level after rfl with rfl | hmem
    · exact Or.inr List.mem_cons_self
    · exact Or.inr (List.mem_cons_of_mem _ hmem)

theorem Descends.bind {r : Run α} {f : α → Run β} (h : Descends depth r.steps)
    (hf : ∀ a, Descends depth (f a).steps) : Descends depth (r >>= f).steps := by
  obtain ⟨steps, e | a⟩ := r
  · exact h
  · exact h.append (hf a)

theorem descends_of (result : Except FilterError α) : Descends depth (Run.of result).steps :=
  .nil

theorem Descends.mapM {f : α → Run β} {xs : List α} (h : ∀ x ∈ xs, Descends depth (f x).steps) :
    Descends depth (xs.mapM f).steps := by
  induction xs with
  | nil => exact .nil
  | cons x xs ih =>
    rw [List.forall_mem_cons] at h
    rw [List.mapM_cons]
    exact h.1.bind fun _ => (ih h.2).bind fun _ => .nil

/-- A run over a pair enters payloads level by level, starting below the pair. -/
theorem descends_runPair (test : String → Json → Except FilterError Test) (depth : Nat)
    (key : String) (value : Json) : Descends depth (runPair test depth key value).steps := by
  induction key, value using payload_induction generalizing depth with
  | h key value ih =>
  have hpayload : Descends (depth + 1) ((do
      let children ← (reached key value).mapM fun p =>
        (runPair test (depth + 1) p.1 p.2).admitting (acceptBelow key value)
      Run.of (assemble test key value children)) : Run Filter).steps := by
    refine .bind (.mapM fun p hp => ?_) fun _ => descends_of _
    refine (ih p (mem_payload_of_mem_reached hp) (depth + 1)).bind fun _ => ?_
    exact (descends_of _).bind fun _ => .nil
  rw [runPair_eq, opening]
  by_cases hcomb : isCombination key = true
  · rw [if_pos hcomb]
    exact descends_visit.append hpayload.enter
  · have hreached : reached key value = [] :=
      reached_of_not_isCombination (Bool.not_eq_true _ ▸ hcomb)
    rw [if_neg hcomb, hreached]
    exact descends_visit.bind fun _ => .bind .nil fun _ => descends_of _

/-- The level of the first payload beyond the limit is the first one below the limit. -/
theorem Descends.level_eq {level : Nat} (h : Descends 0 (steps ++ [.enter level]))
    (hwithin : Within o steps) (hlevel : o.maxDepth < level) : level = o.maxDepth + 1 := by
  rcases h steps level [] rfl with rfl | hmem
  · omega
  · have hle := hwithin.level_le _ hmem
    omega

theorem Descends.of_append {steps' : List Step} (h : Descends depth (steps ++ steps')) :
    Descends depth steps := by
  rintro before level after rfl
  exact h before level (after ++ steps') (by simp)

/-- The first step after which steps are no longer within the limits exceeds them. -/
theorem exists_exceeds_of_last {step : Step} (h : Descends 0 (steps ++ [step]))
    (hbefore : Within o steps) (hwithin : ¬ Within o (steps ++ [step])) :
    ∃ e, Exceeds o (steps ++ [step]) e := by
  cases step with
  | visit =>
    have hcount : ¬ steps.count .visit + 1 ≤ o.maxNodes := by
      intro hle
      refine hwithin ⟨by simpa using hle, fun level hmem => hbefore.level_le level ?_⟩
      simpa using hmem
    have hle := hbefore.visits_le
    exact ⟨_, .visit hbefore (by omega)⟩
  | enter level =>
    have hlevel : ¬ level ≤ o.maxDepth := by
      intro hle
      refine hwithin ⟨by simpa using hbefore.visits_le, fun other hmem => ?_⟩
      rcases List.mem_append.1 hmem with hmem | hmem
      · exact hbefore.level_le other hmem
      · cases List.mem_singleton.1 hmem
        exact hle
    obtain rfl := h.level_eq hbefore (by omega)
    exact ⟨_, .enter hbefore⟩

/-- Steps that are not within the limits have a first one that exceeds them. -/
theorem Descends.exists_exceeds (h : Descends 0 steps) (hwithin : ¬ Within o steps) :
    ∃ e, Exceeds o steps e := by
  induction steps using List.reverseRecOn with
  | nil => exact absurd ⟨Nat.zero_le _, by simp⟩ hwithin
  | append_singleton steps step ih =>
    by_cases hbefore : Within o steps
    · exact exists_exceeds_of_last h hbefore hwithin
    · obtain ⟨e, he⟩ := ih h.of_append hbefore
      exact ⟨e, he.append [step]⟩

/-! ### Documents -/

theorem descends_run (o : Options) (d : Json) : Descends 0 (run o d).steps := by
  match d with
  | .object ((key, value) :: rest) =>
    rw [run, map_eq_pure_bind]
    exact (descends_runPair (testOf o) 0 key value).bind fun _ => .nil
  | .object [] | .null | .bool _ | .number _ | .string _ | .array _ => exact .nil

/-- The limits have no part in a run. -/
theorem run_limits (o : Options) (maxDepth maxNodes : Nat) (d : Json) :
    run { o with maxDepth := maxDepth, maxNodes := maxNodes } d = run o d := by
  rfl

theorem Within.compile_eq {d : Json} (h : Within o (run o d).steps) :
    compile o d = (run o d).result := by
  rw [compile_eq_under, Run.under, h.pass_eq]
  cases (run o d).result <;> rfl

theorem Exceeds.compile_eq {d : Json} {e : FilterError} (h : Exceeds o (run o d).steps e) :
    compile o d = .error e := by
  rw [compile_eq_under, Run.under, h.pass_eq]
  rfl

/-- Larger limits. -/
theorem Within.mono {o' : Options} (h : Within o steps) (hdepth : o.maxDepth ≤ o'.maxDepth)
    (hnodes : o.maxNodes ≤ o'.maxNodes) : Within o' steps :=
  ⟨h.visits_le.trans hnodes, fun level hlevel => (h.level_le level hlevel).trans hdepth⟩

/-- What is compiled is what the run without limits ends in when all its steps are within the
limits, and otherwise the error of the first step that is not; there is always one of the two. The
run is the same for all limits, so larger limits accept what smaller ones do and give the same
filter. -/
theorem compile_eq_result_or_exceeds (o : Options) (d : Json) :
    (Within o (run o d).steps → compile o d = (run o d).result) ∧
    (∀ e, Exceeds o (run o d).steps e → compile o d = .error e) ∧
    (Within o (run o d).steps ∨ ∃ e, Exceeds o (run o d).steps e) ∧
    ∀ maxDepth maxNodes,
      run { o with maxDepth := maxDepth, maxNodes := maxNodes } d = run o d ∧
      (o.maxDepth ≤ maxDepth → o.maxNodes ≤ maxNodes → ∀ f, compile o d = .ok f →
        compile { o with maxDepth := maxDepth, maxNodes := maxNodes } d = .ok f) := by
  have hcases : Within o (run o d).steps ∨ ∃ e, Exceeds o (run o d).steps e := by
    by_cases h : Within o (run o d).steps
    · exact Or.inl h
    · exact Or.inr ((descends_run o d).exists_exceeds h)
  refine ⟨Within.compile_eq, fun e => Exceeds.compile_eq, hcases, fun maxDepth maxNodes => ?_⟩
  refine ⟨run_limits o maxDepth maxNodes d, fun hdepth hnodes f hf => ?_⟩
  rcases hcases with hwithin | ⟨e, he⟩
  · rw [← hf, hwithin.compile_eq]
    have hlarger : Within { o with maxDepth := maxDepth, maxNodes := maxNodes } (run o d).steps :=
      hwithin.mono hdepth hnodes
    exact hlarger.compile_eq
  · rw [he.compile_eq] at hf
    cases hf

theorem compile_eq_of_deep_payload :
    (Exceeds { maxDepth := 1 } (run { maxDepth := 1 }
        (Json.single "and" (Json.single "or" .null))).steps (.nestingTooDeep 1 2) ∧
      compile { maxDepth := 1 } (Json.single "and" (Json.single "or" .null)) =
        .error (.nestingTooDeep 1 2)) ∧
    (Within { maxDepth := 2 } (run { maxDepth := 2 }
        (Json.single "and" (Json.single "or" .null))).steps ∧
      (run { maxDepth := 2 } (Json.single "and" (Json.single "or" .null))).result =
        .error (.structural (.payload .or) .objectArray)) ∧
    compile { maxDepth := 1 } (Json.single "and" (Json.single "cn" .null)) =
      .ok (.andOf [.test (.absent "cn")]) ∧
    compile { maxDepth := 2, maxNodes := 10000 } (Json.single "and" (Json.single "cn" .null)) =
      .ok (.andOf [.test (.absent "cn")]) := by
  have hsteps : ∀ maxDepth, (run { maxDepth := maxDepth }
      (Json.single "and" (Json.single "or" .null))).steps =
        [.visit, .enter 1, .visit, .enter 2] := by
    intro maxDepth
    rw [run_limits {} maxDepth 10000]
    decide +kernel
  have hexceeds : Exceeds { maxDepth := 1 } (run { maxDepth := 1 }
      (Json.single "and" (Json.single "or" .null))).steps (.nestingTooDeep 1 2) := by
    rw [hsteps]
    have hbefore : Within { maxDepth := 1 } [.visit, .enter 1, .visit] :=
      ⟨by decide, by simp⟩
    exact .enter hbefore
  have hwithin : Within { maxDepth := 2 } (run { maxDepth := 2 }
      (Json.single "and" (Json.single "or" .null))).steps := by
    rw [hsteps]
    exact ⟨by decide, by simp⟩
  refine ⟨⟨hexceeds, ?_⟩, ⟨hwithin, ?_⟩, rfl, ?_⟩
  · exact (compile_eq_result_or_exceeds _ _).2.1 _ hexceeds
  · rw [← (compile_eq_result_or_exceeds _ _).1 hwithin]
    rfl
  · exact ((compile_eq_result_or_exceeds { maxDepth := 1 } _).2.2.2 2 10000).2
      (by decide) (by decide) _ rfl

end LdapFilter.Query
