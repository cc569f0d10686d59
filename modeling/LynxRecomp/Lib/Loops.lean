import Mathlib.Algebra.Order.Ring.Nat
import Mathlib.Logic.Function.Iterate

/-!
# Loops that count

A loop that ends at a flag or when its budget is used up, and a loop that takes samples at a
rate of its own: it adds `a` to an accumulator in every turn, and samples whenever this has
reached `b`.
-/

universe u v

namespace Loops

variable {σ : Type u} {α : Type v}

section UntilFlag

variable (step : σ → σ) (stop : σ → Bool)

/-- Turns until the flag is up, at most as many as the budget, with their number. -/
def untilFlag : Nat → σ → Nat × σ
  | 0, s => (0, s)
  | budget + 1, s =>
    let s := step s
    if stop s then (1, s)
    else
      let r := untilFlag budget s
      (r.1 + 1, r.2)

/-- How a loop with a budget ends: after `n` turns, at the first one that raises the flag, or
with the budget. -/
structure Ends (budget : Nat) (s : σ) (n : Nat) (s' : σ) : Prop where
  iterate : s' = step^[n] s
  within : n ≤ budget
  before : ∀ k, 0 < k → k < n → stop (step^[k] s) = false
  last : n = budget ∨ 0 < n ∧ stop s' = true

theorem untilFlag_ends (budget : Nat) (s : σ) :
    Ends step stop budget s (untilFlag step stop budget s).1 (untilFlag step stop budget s).2 := by
  induction budget generalizing s with
  | zero => exact ⟨rfl, Nat.le_refl 0, fun _ _ below => absurd below (Nat.not_lt_zero _), .inl rfl⟩
  | succ budget ih =>
    rw [untilFlag]
    by_cases up : stop (step s) = true
    · simp only [up, if_true]
      refine ⟨rfl, Nat.succ_pos budget, fun k positive below => ?_, .inr ⟨Nat.one_pos, up⟩⟩
      exact absurd positive (Nat.not_lt.mpr (Nat.le_of_lt_succ below))
    · simp only [up, Bool.false_eq_true, if_false]
      rcases ih (step s) with ⟨iterate, within, before, last⟩
      refine ⟨iterate, Nat.succ_le_succ within, fun k positive below => ?_, ?_⟩
      · cases k with
        | zero => exact absurd positive (Nat.lt_irrefl 0)
        | succ k =>
          rw [Function.iterate_succ_apply]
          cases k with
          | zero => exact Bool.eq_false_of_not_eq_true up
          | succ k => exact before (k + 1) k.succ_pos (Nat.lt_of_succ_lt_succ below)
      · rcases last with used | ⟨_, raised⟩
        · exact .inl (congrArg (· + 1) used)
        · exact .inr ⟨Nat.succ_pos _, raised⟩

end UntilFlag

section Pace

variable (a b : Nat) (step : σ → σ) (sample : σ → α)

/-- At most `total` turns, as long as there is room for samples, with the accumulator at `acc`. -/
def pace : Nat → Nat → Nat → σ → List α × σ
  | 0, _, _, s => ([], s)
  | total + 1, room, acc, s =>
    if room = 0 then ([], s)
    else
      let s := step s
      if b ≤ acc + a then
        let r := pace total (room - 1) (acc + a - b) s
        (sample s :: r.1, r.2)
      else pace total room (acc + a) s

/-- The turn that takes sample `k`: the first one at whose end the accumulator has been filled
`k + 1` times. -/
def due (acc k : Nat) : Nat := ((k + 1) * b - acc + (a - 1)) / a

variable {a b} {acc : Nat}

theorem due_le_iff (positive : 0 < a) (k n : Nat) :
    due a b acc k ≤ n ↔ (k + 1) * b ≤ acc + n * a := by
  have ceiling : ((k + 1) * b - acc + (a - 1)) / a < n + 1 ↔
      (k + 1) * b - acc + (a - 1) < (n + 1) * a := Nat.div_lt_iff_lt_mul positive
  have more : (n + 1) * a = n * a + a := Nat.succ_mul n a
  rw [due, ← Nat.lt_succ_iff, ceiling, more]
  generalize (k + 1) * b = filled
  generalize n * a = charged
  omega

theorem due_pos (positive : 0 < a) {k : Nat} (later : acc < (k + 1) * b) : 0 < due a b acc k := by
  by_contra none
  have reached : (k + 1) * b ≤ acc + 0 * a :=
    (due_le_iff positive k 0).mp (Nat.le_of_not_lt none)
  rw [Nat.zero_mul, Nat.add_zero] at reached
  exact Nat.not_le_of_gt later reached

/-- One turn brings the turn of every sample nearer. -/
theorem due_succ {acc' k k' : Nat} (positive : 0 < a)
    (filled : (k + 1) * b + acc' = (k' + 1) * b + (acc + a)) (later : acc < (k + 1) * b) :
    due a b acc k = due a b acc' k' + 1 := by
  have same (n : Nat) : due a b acc k ≤ n + 1 ↔ due a b acc' k' ≤ n := by
    rw [due_le_iff positive, due_le_iff positive, Nat.succ_mul n a]
    generalize (k + 1) * b = x at filled ⊢
    generalize (k' + 1) * b = y at filled ⊢
    generalize n * a = z
    omega
  obtain ⟨n, turns⟩ := Nat.exists_eq_succ_of_ne_zero (Nat.ne_of_gt (due_pos positive later))
  apply Nat.le_antisymm
  · exact (same _).mpr (Nat.le_refl _)
  · rw [turns]
    exact Nat.succ_le_succ ((same n).mp (Nat.le_of_eq turns))

/-- The samples that a loop takes, with the turn of each. At most one is due in a turn. -/
theorem pace_samples (positive : 0 < a) (slow : a ≤ b) (total room : Nat) (below : acc < b)
    (s : σ) :
    (pace a b step sample total room acc s).1 =
      (List.range (min room ((acc + total * a) / b))).map fun k =>
        sample (step^[due a b acc k] s) := by
  have rate : 0 < b := Nat.lt_of_lt_of_le positive slow
  induction total generalizing room acc s with
  | zero =>
    have none : (acc + 0 * a) / b = 0 := by
      rw [Nat.zero_mul, Nat.add_zero]
      exact Nat.div_eq_of_lt below
    rw [none, Nat.min_zero]
    rfl
  | succ total ih =>
    rw [pace]
    by_cases full : room = 0
    · rw [if_pos full, full, Nat.zero_min]
      rfl
    · rw [if_neg full]
      simp only
      have charge : acc + (total + 1) * a = acc + a + total * a := by
        rw [Nat.succ_mul]
        omega
      by_cases filled : b ≤ acc + a
      · rw [if_pos filled, ih _ (by omega)]
        have first : due a b acc 0 = 1 := by
          apply Nat.le_antisymm
          · rw [due_le_iff positive]
            omega
          · exact due_pos positive (by omega)
        have quotient : (acc + (total + 1) * a) / b = (acc + a - b + total * a) / b + 1 := by
          rw [charge, ← Nat.add_div_right _ rate]
          congr 1
          omega
        have count : min room ((acc + (total + 1) * a) / b) =
            min (room - 1) ((acc + a - b + total * a) / b) + 1 := by
          rw [quotient]
          omega
        rw [count, List.range_succ_eq_map, List.map_cons, List.map_map, first]
        apply congrArg (List.cons _)
        apply List.map_congr_left
        intro k _
        have next : due a b acc (k + 1) = due a b (acc + a - b) k + 1 := by
          apply due_succ positive
          · rw [Nat.succ_mul (k + 1) b]
            omega
          · rw [Nat.succ_mul (k + 1) b]
            omega
        simp only [Function.comp_apply, Nat.succ_eq_add_one]
        rw [next, Function.iterate_succ_apply]
      · rw [if_neg filled, ih room (by omega), charge]
        apply List.map_congr_left
        intro k _
        have next : due a b acc k = due a b (acc + a) k + 1 := by
          apply due_succ positive
          · rfl
          · rw [Nat.succ_mul]
            omega
        rw [next, Function.iterate_succ_apply]

end Pace

end Loops
