import Mathlib.Data.List.Basic

/-!
# Rows of marks

A list of things is put down at consecutive places. If each changes nothing but its own place,
then a place shows the one thing that was put down there.
-/

universe u v w

namespace Marks

variable {α : Type u} {β : Type v} {γ : Type w}

/-- What a list has at a place, which may lie before its start or past its end. -/
def entry (xs : List α) (i : Int) : Option α := if 0 ≤ i then xs[i.toNat]? else none

@[simp] theorem entry_nil (i : Int) : entry ([] : List α) i = none := by
  rw [entry, List.getElem?_nil, ite_self]

theorem entry_zero (x : α) (xs : List α) : entry (x :: xs) 0 = some x := rfl

theorem entry_cons (x : α) (xs : List α) {i : Int} (later : i ≠ 0) :
    entry (x :: xs) i = entry xs (i - 1) := by
  unfold entry
  by_cases before : 0 ≤ i
  · have place : i.toNat = (i - 1).toNat + 1 := by omega
    rw [if_pos before, if_pos (by omega), place, List.getElem?_cons_succ]
  · rw [if_neg before, if_neg (by omega)]

theorem entry_neg (xs : List α) {i : Int} (before : i < 0) : entry xs i = none :=
  if_neg (Int.not_le.mpr before)

/-- Put down the elements of a list from place `i` on. -/
def marks (f : Int → α → β → β) : Int → List α → β → β
  | _, [], b => b
  | i, x :: xs, b => marks f (i + 1) xs (f i x b)

/-- Where each step can be followed through `g`, all steps can. -/
theorem marks_hom {f : Int → α → β → β} {f' : Int → α → γ → γ} {g : β → γ}
    (step : ∀ i x b, g (f i x b) = f' i x (g b)) (i : Int) (xs : List α) (b : β) :
    g (marks f i xs b) = marks f' i xs (g b) := by
  induction xs generalizing i b with
  | nil => rfl
  | cons x xs ih => rw [marks, marks, ih, step]

/-- What every step keeps is kept. -/
theorem marks_keeps {f : Int → α → β → β} {P : β → Prop} (step : ∀ i x b, P b → P (f i x b))
    (i : Int) (xs : List α) {b : β} (start : P b) : P (marks f i xs b) := by
  induction xs generalizing i b with
  | nil => exact start
  | cons x xs ih => exact ih (i + 1) (step i x b start)

/-- If only what is put down at `j` changes anything, the outcome shows the entry there. -/
theorem marks_shows {f : Int → α → β → β} {j : Int}
    (elsewhere : ∀ i x b, i ≠ j → f i x b = b) (i : Int) (xs : List α) (b : β) :
    marks f i xs b = (entry xs (j - i)).elim b fun x => f j x b := by
  induction xs generalizing i b with
  | nil => rw [entry_nil]; rfl
  | cons x xs ih =>
    rw [marks, ih]
    by_cases here : i = j
    · subst here
      rw [Int.sub_self, entry_zero, entry_neg xs (by omega)]
      rfl
    · have next : j - (i + 1) = j - i - 1 := by omega
      rw [elsewhere i x b here, entry_cons x xs (by omega), next]

end Marks
