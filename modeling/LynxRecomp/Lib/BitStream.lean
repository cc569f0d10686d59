import Mathlib.Data.List.Basic
import Mathlib.Data.List.GetD

/-!
# Bit streams, most significant bit first

The bits of a value and of a memory in the order in which a bit reader delivers them, and
the value that it collects from them.
-/

namespace BitStream

variable {n w k : Nat}

/-- `v * 2 + b` -/
def push (v : BitVec n) (b : Bool) : BitVec n := v <<< 1 ||| (BitVec.ofBool b).setWidth n

/-- The value collected from `bs`, after `v`. -/
def value (v : BitVec n) (bs : List Bool) : BitVec n := bs.foldl push v

@[simp] theorem value_nil (v : BitVec n) : value v [] = v := rfl

@[simp] theorem value_cons (v : BitVec n) (b : Bool) (bs : List Bool) :
    value v (b :: bs) = value (push v b) bs := rfl

/-- The bits of `v` -/
def msbFirst (v : BitVec w) : List Bool := (List.range w).map fun j => v.getLsbD (w - 1 - j)

@[simp] theorem length_msbFirst (v : BitVec w) : (msbFirst v).length = w := by simp [msbFirst]

theorem getLsbD_push (v : BitVec n) (b : Bool) (i : Nat) :
    (push v b).getLsbD i = (decide (i < n) && (if i = 0 then b else v.getLsbD (i - 1))) := by
  unfold push
  rw [BitVec.getLsbD_or, BitVec.getLsbD_shiftLeft, BitVec.getLsbD_setWidth, BitVec.getLsbD_ofBool]
  cases i with
  | zero => simp
  | succ i => simp

/-- The bits last collected are the lowest ones. -/
theorem getLsbD_value (bs : List Bool) (v : BitVec n) (i : Nat) :
    (value v bs).getLsbD i =
      (decide (i < n) &&
        (if i < bs.length then bs.getD (bs.length - 1 - i) false
        else v.getLsbD (i - bs.length))) := by
  induction bs generalizing v with
  | nil =>
    by_cases inside : i < n
    · simp [inside]
    · simp [inside, BitVec.getLsbD_of_ge v i (Nat.le_of_not_lt inside)]
  | cons b bs ih =>
    rw [value_cons, ih]
    by_cases inside : i < n
    · rw [decide_eq_true inside, Bool.true_and, Bool.true_and, List.length_cons]
      rcases Nat.lt_trichotomy i bs.length with low | same | high
      · have place : bs.length + 1 - 1 - i = bs.length - 1 - i + 1 := by omega
        rw [if_pos low, if_pos (by omega), place, List.getD_cons_succ]
      · have place : bs.length + 1 - 1 - i = 0 := by omega
        have first : i - bs.length = 0 := by omega
        rw [if_neg (by omega), if_pos (by omega), place, List.getD_cons_zero, getLsbD_push, first]
        simp
        omega
      · have later : ¬ i - bs.length = 0 := by omega
        rw [if_neg (by omega), if_neg (by omega), getLsbD_push, if_neg later]
        have within : i - bs.length < n := by omega
        rw [decide_eq_true within, Bool.true_and, Nat.sub_sub]
    · simp [inside]

/-- The bits in the order from the lowest on -/
theorem getLsbD_value_reverse (bs : List Bool) (i : Nat) :
    (value (0 : BitVec n) bs.reverse).getLsbD i = (decide (i < n) && bs.getD i false) := by
  rw [getLsbD_value, List.length_reverse]
  congr 1
  by_cases inside : i < bs.length
  · have place : bs.length - 1 - i < bs.length := by omega
    have back : bs.length - 1 - (bs.length - 1 - i) = i := by omega
    rw [if_pos inside, List.getD_eq_getElem?_getD, List.getD_eq_getElem?_getD,
      List.getElem?_reverse place, back]
  · rw [if_neg inside, List.getD_eq_default _ _ (Nat.le_of_not_lt inside)]
    exact BitVec.getLsbD_zero

/-- What was taken apart is collected again. -/
theorem value_msbFirst (v : BitVec w) :
    value (0 : BitVec n) (msbFirst v) = v.setWidth n := by
  apply BitVec.eq_of_getLsbD_eq
  intro i inside
  rw [getLsbD_value, length_msbFirst, BitVec.getLsbD_setWidth]
  by_cases low : i < w
  · have place : w - 1 - (w - 1 - i) = i := by omega
    have stored : w - 1 - i < w := by omega
    rw [if_pos low, msbFirst, List.getD_eq_getElem?_getD, List.getElem?_map,
      List.getElem?_range stored, Option.map_some, Option.getD_some, place]
  · rw [if_neg low, BitVec.getLsbD_of_ge v i (Nat.le_of_not_lt low)]
    simp

section Memory

variable (mem : BitVec k → BitVec 8) (base : BitVec k)

/-- Bit `p` of the stream that starts with the byte at `base`. -/
def bitAt (p : Nat) : Bool := (mem (base + BitVec.ofNat k (p / 8))).getLsbD (7 - p % 8)

/-- The next `n` bits from bit `p` on. -/
def bitsAt : Nat → Nat → List Bool
  | _, 0 => []
  | p, n + 1 => bitAt mem base p :: bitsAt (p + 1) n

@[simp] theorem length_bitsAt (p n : Nat) : (bitsAt mem base p n).length = n := by
  induction n generalizing p with
  | zero => rfl
  | succ n ih => rw [bitsAt, List.length_cons, ih]

theorem bitsAt_add (p m n : Nat) :
    bitsAt mem base p (m + n) = bitsAt mem base p m ++ bitsAt mem base (p + m) n := by
  induction m generalizing p with
  | zero => simp [bitsAt]
  | succ m ih =>
    have next : p + (m + 1) = p + 1 + m := by omega
    rw [Nat.succ_add, bitsAt, bitsAt, ih, List.cons_append, next]

variable {mem base}

/-- A stream that goes on with `xs` and then `ys`. -/
theorem bitsAt_eq_append {p n : Nat} {xs ys : List Bool} (bits : bitsAt mem base p n = xs ++ ys) :
    xs.length ≤ n ∧ bitsAt mem base p xs.length = xs ∧
      bitsAt mem base (p + xs.length) (n - xs.length) = ys := by
  have total : xs.length ≤ n := by
    have length := congrArg List.length bits
    rw [length_bitsAt, List.length_append] at length
    omega
  have split : n = xs.length + (n - xs.length) := by omega
  rw [split, bitsAt_add] at bits
  have parts := List.append_inj bits (length_bitsAt ..)
  exact ⟨total, parts.1, parts.2⟩

/-- The stream depends on the bytes it runs through. -/
theorem bitsAt_congr {mem' : BitVec k → BitVec 8} {bytes p n : Nat}
    (agree : ∀ i < bytes, mem (base + BitVec.ofNat k i) = mem' (base + BitVec.ofNat k i))
    (within : p + n ≤ 8 * bytes) : bitsAt mem base p n = bitsAt mem' base p n := by
  induction n generalizing p with
  | zero => rfl
  | succ n ih =>
    have byte : p / 8 < bytes := by omega
    rw [bitsAt, bitsAt, ih (by omega), bitAt, bitAt, agree _ byte]

end Memory

end BitStream
