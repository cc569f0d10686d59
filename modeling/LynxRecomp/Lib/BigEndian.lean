import Mathlib.Data.Nat.Digits.Lemmas
import Mathlib.Tactic.Ring

/-!
# Big-endian digit strings

A list of `w`-bit digits, most significant first, as a natural number. Addition and
subtraction run from the least significant digit with a carry or borrow; the string
without its leading zeros is the minimal representation of its value.
-/

namespace BigEndian

variable {w : Nat}

/-- The number a digit string stands for. -/
def value : List (BitVec w) → Nat
  | [] => 0
  | x :: xs => x.toNat * (2 ^ w) ^ xs.length + value xs

@[simp] theorem value_nil : value ([] : List (BitVec w)) = 0 := rfl

theorem value_cons (x : BitVec w) (xs : List (BitVec w)) :
    value (x :: xs) = x.toNat * (2 ^ w) ^ xs.length + value xs := rfl

theorem value_append (xs ys : List (BitVec w)) :
    value (xs ++ ys) = value xs * (2 ^ w) ^ ys.length + value ys := by
  induction xs with
  | nil => simp
  | cons x xs ih =>
    rw [List.cons_append, value_cons, value_cons, ih, List.length_append, pow_add]
    ring

theorem value_lt (xs : List (BitVec w)) : value xs < (2 ^ w) ^ xs.length := by
  induction xs with
  | nil => simp
  | cons x xs ih =>
    have digit : x.toNat + 1 ≤ 2 ^ w := x.isLt
    calc value (x :: xs) < x.toNat * (2 ^ w) ^ xs.length + (2 ^ w) ^ xs.length :=
          Nat.add_lt_add_left ih _
      _ = (x.toNat + 1) * (2 ^ w) ^ xs.length := by ring
      _ ≤ 2 ^ w * (2 ^ w) ^ xs.length := Nat.mul_le_mul_right _ digit
      _ = (2 ^ w) ^ (x :: xs).length := by rw [List.length_cons, pow_succ]; ring

theorem value_replicate_zero (n : Nat) : value (List.replicate n (0 : BitVec w)) = 0 := by
  induction n with
  | zero => rfl
  | succ n ih => rw [List.replicate_succ, value_cons, ih]; simp

theorem value_eq_ofDigits (xs : List (BitVec w)) :
    value xs = Nat.ofDigits (2 ^ w) (xs.reverse.map BitVec.toNat) := by
  induction xs with
  | nil => rfl
  | cons x xs ih =>
    rw [value_cons, ih, List.reverse_cons, List.map_append, Nat.ofDigits_append]
    simp
    ring

/-- The digit that `j` digits follow is the `j`-th in positional notation. -/
theorem value_digit (xs : List (BitVec w)) (x : BitVec w) (ys : List (BitVec w)) :
    value (xs ++ x :: ys) / (2 ^ w) ^ ys.length % 2 ^ w = x.toNat := by
  have low := value_lt ys
  rw [value_append, value_cons, List.length_cons, pow_succ]
  have regroup : value xs * ((2 ^ w) ^ ys.length * 2 ^ w) +
      (x.toNat * (2 ^ w) ^ ys.length + value ys)
      = value ys + (value xs * 2 ^ w + x.toNat) * (2 ^ w) ^ ys.length := by ring
  rw [regroup, Nat.add_mul_div_right _ _ (Nat.pow_pos (Nat.two_pow_pos w)),
    Nat.div_eq_of_lt low, Nat.zero_add, Nat.mul_add_mod_self_right, Nat.mod_eq_of_lt x.isLt]

/-- Comparing strings of one length digit by digit compares the numbers. -/
theorem value_lt_of_head_lt {x y : BitVec w} {xs ys : List (BitVec w)}
    (same : xs.length = ys.length) (less : x < y) : value (x :: xs) < value (y :: ys) := by
  have low := value_lt xs
  have digit : x.toNat + 1 ≤ y.toNat := less
  calc value (x :: xs) < x.toNat * (2 ^ w) ^ xs.length + (2 ^ w) ^ xs.length :=
        Nat.add_lt_add_left low _
    _ = (x.toNat + 1) * (2 ^ w) ^ ys.length := by rw [same]; ring
    _ ≤ y.toNat * (2 ^ w) ^ ys.length := Nat.mul_le_mul_right _ digit
    _ ≤ value (y :: ys) := Nat.le_add_right _ _

section Minimal

/-- The string without its leading zeros. -/
def trim (xs : List (BitVec w)) : List (BitVec w) := xs.dropWhile (· == 0)

/-- The minimal big-endian string of a number; that of 0 is empty. -/
def minimal (w n : Nat) : List (BitVec w) := ((Nat.digits (2 ^ w) n).map (BitVec.ofNat w)).reverse

theorem value_trim (xs : List (BitVec w)) : value (trim xs) = value xs := by
  induction xs with
  | nil => rfl
  | cons x xs ih =>
    by_cases zero : x = 0
    · subst zero
      rw [trim, List.dropWhile_cons_of_pos (by simp), value_cons]
      change value (trim xs) = _
      simp [ih]
    · rw [trim, List.dropWhile_cons_of_neg (by simpa using zero)]

/-- Dropping the leading zeros of a string gives the minimal string of its value. -/
theorem trim_eq_minimal (wide : 0 < w) (xs : List (BitVec w)) :
    trim xs = minimal w (value xs) := by
  have base : 1 < 2 ^ w := Nat.one_lt_two_pow (Nat.pos_iff_ne_zero.mp wide)
  have digits : Nat.digits (2 ^ w) (value xs) = (trim xs).reverse.map BitVec.toNat := by
    rw [← value_trim, value_eq_ofDigits]
    refine Nat.digits_ofDigits _ base _ (fun d hd => ?_) (fun nonempty => ?_)
    · obtain ⟨x, -, rfl⟩ := List.mem_map.mp hd
      exact x.isLt
    · have shorter : trim xs ≠ [] := by simpa using nonempty
      have first := List.head_dropWhile_not (· == (0 : BitVec w)) shorter
      rw [List.getLast_map, List.getLast_reverse]
      simpa [BitVec.toNat_eq, trim] using first
  rw [minimal, digits, ← List.map_reverse, ← List.map_reverse, List.reverse_reverse, List.map_map]
  simp [Function.comp_def]

end Minimal

section Horner

/-- One more bit of the multiplier: double, and add the multiplicand if the bit is set. -/
theorem shift_add_mod (a x k N : Nat) :
    (2 * (a * (x / 2 ^ (k + 1)) % N) + (if x.testBit k then a else 0)) % N =
      a * (x / 2 ^ k) % N := by
  have halves : x / 2 ^ k = 2 * (x / 2 ^ (k + 1)) + (if x.testBit k then 1 else 0) := by
    rw [pow_succ, ← Nat.div_div_eq_div_mul, Nat.testBit_eq_decide_div_mod_eq]
    have := Nat.div_add_mod (x / 2 ^ k) 2
    split <;> rename_i bit <;> simp at bit <;> omega
  rw [halves, Nat.add_mod, Nat.mul_mod, Nat.mod_mod, ← Nat.mul_mod, ← Nat.add_mod]
  congr 1
  split <;> ring

end Horner

end BigEndian
