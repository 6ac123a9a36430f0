import Mathlib.Data.List.Forall2

/-!
# Related lists, and computations that may fail

Most of what is said here about the parts of a document and the parts of a filter is said of two
lists one by one. A computation over a list succeeds when it does so one by one
(`Except.mapM_eq_ok_iff`).
-/

namespace LdapFilter

/-! ### Lists cut in two, and put together -/

/-- The first element that does not pass splits a list in two. -/
theorem eq_append_of_dropWhile {α : Type} {p : α → Bool} {x : α} {xs rest : List α}
    (h : xs.dropWhile p = x :: rest) : p x = false ∧ xs = xs.takeWhile p ++ x :: rest := by
  have hhead := List.head?_dropWhile_not p xs
  rw [h] at hhead
  exact ⟨hhead, h ▸ List.takeWhile_append_dropWhile.symm⟩

/-- A list of lists with a separator in between, as the first list and what stands after it. -/
theorem intercalate_cons {α : Type} (sep l : List α) (ls : List (List α)) :
    sep.intercalate (l :: ls) = l ++ ls.flatMap (sep ++ ·) := by
  induction ls generalizing l with
  | nil => simp
  | cons l' ls ih =>
    rw [List.intercalate_cons_cons, ih, List.flatMap_cons, List.append_assoc, List.append_assoc]

/-! ### Related lists -/

section

variable {α β γ : Type} {R S : α → β → Prop} {xs : List α} {ys : List β}

/-- A choice for every element of a list makes up a list of choices. -/
theorem exists_forall₂_iff : (∃ ys, List.Forall₂ R xs ys) ↔ ∀ x ∈ xs, ∃ y, R x y := by
  induction xs with
  | nil => exact ⟨by simp, fun _ => ⟨[], .nil⟩⟩
  | cons x xs ih =>
    rw [List.forall_mem_cons, ← ih]
    constructor
    · rintro ⟨_, h⟩
      cases h with
      | cons hy hys => exact ⟨⟨_, hy⟩, _, hys⟩
    · rintro ⟨⟨y, hy⟩, ys, hys⟩
      exact ⟨y :: ys, .cons hy hys⟩

theorem forall₂_of_forall_mem (h : List.Forall₂ R xs ys)
    (himp : ∀ x ∈ xs, ∀ y, R x y → S x y) : List.Forall₂ S xs ys := by
  apply ((List.forall₂_and_left xs ys).2 ⟨himp, h⟩).imp
  intro x y hxy
  exact hxy.1 y hxy.2

/-- What holds from the first list to the second, and from there to a third, holds from the first to
the third. -/
theorem forall₂_trans {zs : List γ} {T : β → γ → Prop} {U : α → γ → Prop}
    (h : List.Forall₂ R xs ys) (h' : List.Forall₂ T ys zs)
    (himp : ∀ x y z, R x y → T y z → U x z) : List.Forall₂ U xs zs := by
  induction h generalizing zs with
  | nil =>
    cases h'
    exact .nil
  | cons hxy _ ih =>
    cases h' with
    | cons hyz hrest => exact .cons (himp _ _ _ hxy hyz) (ih hrest)

theorem eq_of_forall₂ {R : α → α → Prop} {xs ys : List α} (h : List.Forall₂ R xs ys)
    (heq : ∀ x ∈ xs, ∀ y ∈ ys, R x y → x = y) : xs = ys := by
  induction h with
  | nil => rfl
  | @cons x y xs ys hxy _ ih =>
    have hhead : x = y := heq x List.mem_cons_self y List.mem_cons_self hxy
    have htail : xs = ys :=
      ih fun x hx y hy => heq x (List.mem_cons_of_mem _ hx) y (List.mem_cons_of_mem _ hy)
    rw [hhead, htail]

theorem map_eq_map_of_forall₂ {a : α → γ} {b : β → γ} (h : List.Forall₂ R xs ys)
    (hab : ∀ x ∈ xs, ∀ y, R x y → a x = b y) : xs.map a = ys.map b := by
  rw [← List.forall₂_eq_eq_eq, List.forall₂_map_left_iff, List.forall₂_map_right_iff]
  exact forall₂_of_forall_mem h hab

end

/-! ### Computations -/

section

variable {m : Type → Type} [Monad m] [LawfulMonad m] {α β γ : Type}

/-- Changing what computations over a list end in, one by one or all together. -/
theorem mapM_map_eq_map_mapM (g : β → γ) (f : α → m β) (xs : List α) :
    (xs.mapM fun x => g <$> f x) = List.map g <$> xs.mapM f := by
  induction xs with
  | nil => simp
  | cons x xs ih => simp [List.mapM_cons, ih]

/-- What does the same on related elements does the same on related lists. -/
theorem mapM_eq_mapM_of_forall₂ {δ : Type} {f : α → m β} {g : δ → m β} {xs : List α}
    {ys : List δ} (h : List.Forall₂ (fun x y => f x = g y) xs ys) : xs.mapM f = ys.mapM g := by
  induction h with
  | nil => simp
  | cons hxy _ ih => simp [List.mapM_cons, hxy, ih]

/-- What does the same on every element does the same on the list. -/
theorem mapM_congr_of_mem {f g : α → m β} {xs : List α} (h : ∀ x ∈ xs, f x = g x) :
    xs.mapM f = xs.mapM g :=
  mapM_eq_mapM_of_forall₂ (List.forall₂_same.2 h)

end

namespace Except

variable {ε α β : Type}

theorem pure_eq_ok (a : α) : (pure a : Except ε α) = .ok a := rfl

/-- A computation in two steps succeeds when both steps do. -/
theorem bind_eq_ok_iff {x : Except ε α} {f : α → Except ε β} {b : β} :
    (x >>= f) = .ok b ↔ ∃ a, x = .ok a ∧ f a = .ok b := by
  cases x <;> simp [bind, Except.bind]

theorem map_eq_ok_iff {x : Except ε α} {f : α → β} {b : β} :
    f <$> x = .ok b ↔ ∃ a, x = .ok a ∧ f a = b := by
  cases x <;> simp [Functor.map, Except.map]

theorem map_eq_error_iff {x : Except ε α} {f : α → β} {e : ε} :
    f <$> x = .error e ↔ x = .error e := by
  cases x <;> simp [Functor.map, Except.map]

/-- A computation over a list succeeds when it does for every element. -/
theorem mapM_eq_ok_iff {f : α → Except ε β} {xs : List α} {ys : List β} :
    xs.mapM f = .ok ys ↔ List.Forall₂ (fun x y => f x = .ok y) xs ys := by
  induction xs generalizing ys with
  | nil => simp [pure_eq_ok, eq_comm]
  | cons x xs ih =>
    simp only [List.mapM_cons, bind_eq_ok_iff, ih, pure_eq_ok, Except.ok.injEq]
    constructor
    · rintro ⟨y, hy, ys, hys, rfl⟩
      exact .cons hy hys
    · rintro (_ | ⟨hy, hys⟩)
      exact ⟨_, hy, _, hys, rfl⟩

/-- Whatever error a computation ends in, it is one of the given sort. -/
def FailsOnly (P : ε → Prop) (x : Except ε α) : Prop :=
  ∀ e, x = .error e → P e

variable {P : ε → Prop}

theorem FailsOnly.ok (a : α) : FailsOnly P (.ok a) :=
  nofun

theorem FailsOnly.error {e : ε} (h : P e) : FailsOnly P (.error e : Except ε α) := by
  rintro _ ⟨⟩
  exact h

theorem FailsOnly.bind {x : Except ε α} {f : α → Except ε β} (hx : FailsOnly P x)
    (hf : ∀ a, FailsOnly P (f a)) : FailsOnly P (x >>= f) := by
  cases x with
  | error e => exact .error (hx e rfl)
  | ok a => exact hf a

theorem FailsOnly.map {x : Except ε α} (hx : FailsOnly P x) (f : α → β) :
    FailsOnly P (f <$> x) := by
  rw [map_eq_pure_bind]
  exact hx.bind fun _ => .ok _

theorem FailsOnly.mapM {f : α → Except ε β} {xs : List α} (hf : ∀ x ∈ xs, FailsOnly P (f x)) :
    FailsOnly P (xs.mapM f) := by
  induction xs with
  | nil => exact .ok []
  | cons x xs ih =>
    rw [List.forall_mem_cons] at hf
    rw [List.mapM_cons]
    exact .bind hf.1 fun _ => .bind (ih hf.2) fun _ => .ok _

end Except

end LdapFilter
