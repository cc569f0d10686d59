import Mathlib.Logic.Basic

/-!
# Computations that fail exactly if a condition does not hold

A computation with checks built in is compared with one without: it yields the same
value where every check passes, and nothing else.
-/

universe u v

variable {α : Type u} {β : Type u} {σ : Type v} {P Q : Prop}

/-- The computation yields `a` if `P` holds, and fails otherwise. -/
structure Yields (x : Option α) (P : Prop) (a : α) : Prop where
  holds : P → x = some a
  fails : ¬ P → x = none

namespace Yields

variable {x : Option α} {a : α} {b : β}

theorem of_eq (yields : x = some a) : Yields x True a :=
  ⟨fun _ => yields, fun never => absurd trivial never⟩

theorem congr (yields : Yields x P a) (same : P ↔ Q) : Yields x Q a :=
  ⟨fun q => yields.holds (same.mpr q), fun never => yields.fails fun p => never (same.mp p)⟩

theorem bind {f : α → Option β} (first : Yields x P a) (rest : P → Yields (f a) Q b) :
    Yields (x >>= f) (P ∧ Q) b := by
  constructor
  · rintro ⟨p, q⟩
    rw [first.holds p]
    exact (rest p).holds q
  · intro never
    by_cases p : P
    · rw [first.holds p]
      exact (rest p).fails fun q => never ⟨p, q⟩
    · rw [first.fails p]
      rfl

theorem map (yields : Yields x P a) (g : α → β) : Yields (x >>= fun a => some (g a)) P (g a) :=
  (yields.bind (f := fun a => some (g a)) fun _ => of_eq rfl).congr (iff_of_eq (and_true P))

/-- A step that is sure to succeed adds no condition. -/
theorem after {f : α → Option β} (first : x = some a) (rest : Yields (f a) Q b) :
    Yields (x >>= f) Q b := by
  rw [first]
  exact rest

theorem isSome_iff (yields : Yields x P a) : x.isSome = true ↔ P := by
  by_cases p : P
  · simp [yields.holds p, p]
  · simp [yields.fails p, p]

theorem eq_of_some (yields : Yields x P a) {c : α} (some_ : x = some c) : c = a := by
  by_cases p : P
  · exact Option.some.inj (some_.symm.trans (yields.holds p))
  · exact absurd ((yields.fails p).symm.trans some_) (by simp)

end Yields

/-- Steps that never fail under an invariant make a fold that does not fail. -/
theorem foldlM_eq_some {f : β → σ → Option β} {g : β → σ → β} {I : β → Prop}
    (step : ∀ b s, I b → f b s = some (g b s)) (keeps : ∀ b s, I b → I (g b s)) (as : List σ)
    {b : β} (holds : I b) : as.foldlM f b = some (as.foldl g b) := by
  induction as generalizing b with
  | nil => rfl
  | cons s as ih =>
    rw [List.foldlM_cons, step b s holds]
    exact ih (keeps b s holds)

/-- An invariant of the steps is one of the fold. -/
theorem foldl_keeps {g : β → σ → β} {I : β → Prop} (keeps : ∀ b s, I b → I (g b s))
    (as : List σ) {b : β} (holds : I b) : I (as.foldl g b) := by
  induction as generalizing b with
  | nil => exact holds
  | cons s as ih => exact ih (keeps b s holds)
