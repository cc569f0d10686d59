import Mathlib.Data.Nat.Digits.Lemmas
import Mathlib.Tactic.Ring

/-!
# Carry chains

Digit strings to a base, the lowest digit first, added with a carry from digit to digit. A
subtraction is an addition read the other way round, with the borrow as its carry. What a
chain computes is exact for strings of any length; in two's complement the top digits alone
decide whether the result overflows.
-/

namespace CarryChain

variable {B : Nat}

/-- `Sums B c xs ys rs c'`: digit by digit, `xs` and `ys` and the carry `c` add up to `rs` and
the carry `c'`. -/
inductive Sums (B : Nat) : Nat → List Nat → List Nat → List Nat → Nat → Prop where
  | nil (c : Nat) : Sums B c [] [] [] c
  | cons {x y r c carry c' : Nat} {xs ys rs : List Nat} (digit : x + y + c = r + B * carry)
      (rest : Sums B carry xs ys rs c') : Sums B c (x :: xs) (y :: ys) (r :: rs) c'

namespace Sums

variable {c c' c'' : Nat} {xs ys rs xs' ys' rs' : List Nat}

theorem append (first : Sums B c xs ys rs c') (second : Sums B c' xs' ys' rs' c'') :
    Sums B c (xs ++ xs') (ys ++ ys') (rs ++ rs') c'' := by
  induction first with
  | nil => exact second
  | cons digit _ ih => exact .cons digit (ih second)

theorem length (sums : Sums B c xs ys rs c') :
    ys.length = xs.length ∧ rs.length = xs.length := by
  induction sums with
  | nil => exact ⟨rfl, rfl⟩
  | cons _ _ ih => exact ⟨congrArg (· + 1) ih.1, congrArg (· + 1) ih.2⟩

/-- Nothing is lost from digit to digit. -/
theorem value (sums : Sums B c xs ys rs c') :
    Nat.ofDigits B xs + Nat.ofDigits B ys + c = Nat.ofDigits B rs + B ^ xs.length * c' := by
  induction sums with
  | nil => simp
  | @cons x y r c carry c' xs ys rs digit _ ih =>
    calc Nat.ofDigits B (x :: xs) + Nat.ofDigits B (y :: ys) + c
        = (x + y + c) + B * (Nat.ofDigits B xs + Nat.ofDigits B ys) := by
          simp only [Nat.ofDigits_cons]
          ring
      _ = r + B * (Nat.ofDigits B xs + Nat.ofDigits B ys + carry) := by
          rw [digit]
          ring
      _ = r + B * (Nat.ofDigits B rs + B ^ xs.length * c') := by rw [ih]
      _ = Nat.ofDigits B (r :: rs) + B ^ (x :: xs).length * c' := by
          simp only [Nat.ofDigits_cons, List.length_cons, pow_succ]
          ring

variable (base : 1 < B) (sums : Sums B c xs ys rs c')
include base sums

/-- The sum of two strings and the carry out of it. -/
theorem sum (bounded : ∀ r ∈ rs, r < B) :
    Nat.ofDigits B rs = (Nat.ofDigits B xs + Nat.ofDigits B ys + c) % B ^ xs.length ∧
      c' = (Nat.ofDigits B xs + Nat.ofDigits B ys + c) / B ^ xs.length := by
  have below : Nat.ofDigits B rs < B ^ xs.length := by
    rw [← sums.length.2]
    exact Nat.ofDigits_lt_base_pow_length base bounded
  have positive : 0 < B ^ xs.length := Nat.zero_lt_of_lt below
  rw [sums.value, Nat.add_mul_mod_self_left, Nat.mod_eq_of_lt below,
    Nat.add_mul_div_left _ _ positive, Nat.div_eq_of_lt below, Nat.zero_add]
  exact ⟨rfl, rfl⟩

/-- Read the other way round, with the borrow `c` as the carry: what is left of `rs` when `ys`
is taken away, and the borrow out of it. -/
theorem difference (bounded : ∀ x ∈ xs, x < B) (bit : c' ≤ 1) :
    ((Nat.ofDigits B xs : Nat) : Int) =
        ((Nat.ofDigits B rs : Nat) - (Nat.ofDigits B ys : Nat) - c) % (B ^ xs.length : Nat) ∧
      (c' = 0 ↔ Nat.ofDigits B ys + c ≤ Nat.ofDigits B rs) := by
  have below : Nat.ofDigits B xs < B ^ xs.length := Nat.ofDigits_lt_base_pow_length base bounded
  have total := sums.value
  generalize Nat.ofDigits B xs = x at total below ⊢
  constructor
  · have left : ((Nat.ofDigits B rs : Nat) - (Nat.ofDigits B ys : Nat) - c : Int) =
        x - (B ^ xs.length : Nat) * (c' : Int) := by
      have cast := congrArg (Nat.cast (R := Int)) total
      rw [Nat.cast_add, Nat.cast_add, Nat.cast_add, Nat.cast_mul] at cast
      linarith
    rw [left, Int.sub_mul_emod_self_left]
    exact (Int.emod_eq_of_lt (Int.natCast_nonneg _) (Int.ofNat_lt.mpr below)).symm
  · rcases Nat.le_one_iff_eq_zero_or_eq_one.mp bit with rfl | rfl
    · rw [Nat.mul_zero] at total
      omega
    · rw [Nat.mul_one] at total
      omega

end Sums

section TwosComplement

/-- The number that `x` stands for in two's complement, modulo `m`. -/
def signed (m : Nat) (x : Nat) : Int := (x : Int).bmod m

/-- `z` is no number of two's complement modulo `m`. -/
def Overflows (m : Nat) (z : Int) : Prop := 2 * z < -m ∨ m ≤ 2 * z

instance (m : Nat) (z : Int) : Decidable (Overflows m z) := by
  unfold Overflows
  infer_instance

theorem digit_lt {r z k : Int} (low : 0 ≤ r) (digit : r < B) : r + B * z < B * k ↔ z < k := by
  constructor
  · intro less
    by_contra more
    have scaled : B * k ≤ B * z := Int.mul_le_mul_of_nonneg_left (not_lt.mp more) (by omega)
    omega
  · intro less
    have scaled : B * (z + 1) ≤ B * k := Int.mul_le_mul_of_nonneg_left less (by omega)
    rw [Int.mul_add, Int.mul_one] at scaled
    omega

theorem signed_of_lt {x M : Nat} (below : x < 2 * M) :
    signed (2 * M) x = if x < M then (x : Int) else x - 2 * M := by
  have self : (x : Int) % (2 * M : Nat) = x :=
    Int.emod_eq_of_lt (Int.natCast_nonneg _) (Int.ofNat_lt.mpr below)
  unfold signed
  rw [Int.bmod_def, self]
  split <;> split <;> omega

/-- A digit below the others does not change their sign. -/
theorem signed_cons {x y M : Nat} (digit : x < B) (below : y < 2 * M) :
    signed (2 * (B * M)) (x + B * y) = x + B * signed (2 * M) y := by
  have half : x + B * y < B * M ↔ y < M := by
    have whole := digit_lt (z := y) (k := M) (Int.natCast_nonneg x) (Int.ofNat_lt.mpr digit)
    exact_mod_cast whole
  have fits : x + B * y < 2 * (B * M) := by
    have whole := digit_lt (z := y) (k := (2 * M : Nat)) (Int.natCast_nonneg x)
      (Int.ofNat_lt.mpr digit)
    rw [Nat.mul_left_comm]
    exact_mod_cast whole.mpr (Int.ofNat_lt.mpr below)
  rw [signed_of_lt fits, signed_of_lt below]
  simp only [half]
  split
  · push_cast
    ring
  · push_cast
    ring

/-- A digit below the others does not decide whether they overflow. -/
theorem overflows_cons {r M : Nat} {z : Int} (digit : r < B) :
    Overflows (2 * (B * M)) (r + B * z) ↔ Overflows (2 * M) z := by
  have low := digit_lt (z := z) (k := -M) (Int.natCast_nonneg r) (Int.ofNat_lt.mpr digit)
  have high := digit_lt (z := z) (k := M) (Int.natCast_nonneg r) (Int.ofNat_lt.mpr digit)
  unfold Overflows
  rw [Int.mul_neg] at low
  push_cast
  constructor
  · rintro (less | more)
    · exact .inl (by linarith [low.mp (by linarith)])
    · refine .inr ?_
      by_contra less
      linarith [high.mpr (by linarith)]
  · rintro (less | more)
    · exact .inl (by linarith [low.mpr (by linarith)])
    · refine .inr ?_
      by_contra less
      linarith [high.mp (by linarith)]

end TwosComplement

end CarryChain
