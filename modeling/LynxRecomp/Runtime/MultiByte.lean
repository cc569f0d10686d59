import LynxRecomp.Lib.CarryChain
import LynxRecomp.Runtime.Cpu

/-!
# Arithmetic on several bytes

`lynx_adc` and `lynx_sbc` from the lowest byte to the highest, with the carry from byte to
byte, in binary and in decimal mode.
-/

namespace LynxRecomp

open CarryChain

/-- The operation on each byte of two operands, the lowest first: the bytes of the result, and
the CPU at the end. -/
def multiByte (op : Byte → Cpu → Cpu) : List Byte → List Byte → Cpu → List Byte × Cpu
  | x :: xs, y :: ys, c =>
    let c := op y (lynxLda x c)
    let rest := multiByte op xs ys c
    (c.a :: rest.1, rest.2)
  | _, _, c => ([], c)

section Bits

/-- Bit 7, as a flag -/
theorem bit7 (w : Word) : ((w >>> 7) &&& 1).setWidth 8 = (truth (w.getLsbD 7) : Byte) := by
  have bit : w.getLsbD 7 = decide (w.toNat / 128 % 2 = 1) := Nat.testBit_eq_decide_div_mod_eq
  have value : (((w >>> 7) &&& 1).setWidth 8).toNat = w.toNat / 128 % 2 := by
    simp [Nat.shiftRight_eq_div_pow]
  apply BitVec.eq_of_toNat_eq
  rw [bit, value]
  rcases Nat.mod_two_eq_zero_or_one (w.toNat / 128) with zero | one
  · simp [zero]
  · simp [one]

theorem slt_zero_iff (w : Word) : w.slt 0 = true ↔ 2 ^ 31 ≤ w.toNat := by
  apply BitVec.slt_zero_iff_msb_cond.trans
  rw [BitVec.msb_eq_decide, decide_eq_true_iff]

/-- Two digits, packed in a byte -/
theorem nibbles (hi lo : Word) :
    ((hi <<< 4 ||| (lo &&& 0x0F)).setWidth 8).toNat = hi.toNat % 16 * 16 + lo.toNat % 16 := by
  have low : lo.toNat &&& 15 = lo.toNat % 16 := Nat.and_two_pow_sub_one_eq_mod _ 4
  have small : lo.toNat % 16 < 2 ^ 4 := Nat.mod_lt _ (by decide)
  have high : hi.toNat <<< 4 % 2 ^ 32 = hi.toNat % 2 ^ 28 * 2 ^ 4 := by
    rw [Nat.shiftLeft_eq]
    omega
  rw [BitVec.toNat_setWidth, BitVec.toNat_or, BitVec.toNat_and, BitVec.toNat_shiftLeft, high]
  change (hi.toNat % 2 ^ 28 * 2 ^ 4 ||| lo.toNat &&& 15) % 2 ^ 8 = _
  rw [low, Nat.mul_comm, ← Nat.two_pow_add_eq_or_of_lt small]
  omega

theorem toNat_truth (b : Bool) : (truth b : Byte).toNat = if b then 1 else 0 := by
  cases b <;> rfl

end Bits

section Wide

variable (x y carry : Byte)

/-- The sum of two bytes and a carry, as the C code has it -/
def wideSum : Word := x.setWidth 32 + y.setWidth 32 + carry.setWidth 32

/-- The difference of two bytes and a borrow -/
def wideDifference : Word := x.setWidth 32 - y.setWidth 32 - (1 - carry.setWidth 32)

theorem wideSum_toNat : (wideSum x y carry).toNat = x.toNat + y.toNat + carry.toNat := by
  unfold wideSum
  bv_omega

theorem wideDifference_toNat (bit : carry ≤ 1) :
    (wideDifference x y carry).toNat + y.toNat + (1 - carry.toNat) =
      x.toNat + if x.toNat < y.toNat + (1 - carry.toNat) then 2 ^ 32 else 0 := by
  unfold wideDifference
  split <;> bv_omega

end Wide

section Overflow

variable {x y : Byte} {w : Word}

theorem getLsbD7 (w : Word) : w.getLsbD 7 = decide (w.toNat / 128 % 2 = 1) :=
  Nat.testBit_eq_decide_div_mod_eq

theorem signed_byte (x : Byte) :
    signed 256 x.toNat = if x.toNat < 128 then (x.toNat : Int) else x.toNat - 256 :=
  signed_of_lt (M := 128) x.isLt

theorem getLsbD7_setWidth (x : Byte) :
    (x.setWidth 32).getLsbD 7 = !decide (x.toNat < 128) := by
  have small := x.isLt
  rw [getLsbD7, BitVec.toNat_setWidth, ← decide_not]
  apply decide_eq_decide.mpr
  omega

/-- The sign of a sum differs from that of both terms exactly when it overflows. -/
theorem sum_overflows {carry : Nat} (bit : carry ≤ 1) (sum : w.toNat = x.toNat + y.toNat + carry) :
    (((~~~(x.setWidth 32 ^^^ y.setWidth 32) &&& (x.setWidth 32 ^^^ w)) >>> 7) &&& 1).setWidth 8 =
      (truth (decide (Overflows 256 (signed 256 x.toNat + signed 256 y.toNat + carry))) :
        Byte) := by
  have small := x.isLt
  have small' := y.isLt
  rw [bit7]
  refine congrArg truth (Bool.eq_iff_iff.mpr ?_)
  rw [decide_eq_true_iff, signed_byte, signed_byte, BitVec.getLsbD_and, BitVec.getLsbD_not,
    BitVec.getLsbD_xor, BitVec.getLsbD_xor, getLsbD7_setWidth, getLsbD7_setWidth, getLsbD7, sum]
  unfold Overflows
  by_cases positive : x.toNat < 128 <;> by_cases positive' : y.toNat < 128
  all_goals
    simp [positive, positive']
    omega

/-- The sign of a difference is that of the term taken away exactly when it overflows. -/
theorem difference_overflows {borrow : Nat} (bit : borrow ≤ 1)
    (difference : w.toNat + y.toNat + borrow =
      x.toNat + if x.toNat < y.toNat + borrow then 2 ^ 32 else 0) :
    ((((x.setWidth 32 ^^^ y.setWidth 32) &&& (x.setWidth 32 ^^^ w)) >>> 7) &&& 1).setWidth 8 =
      (truth (decide (Overflows 256 (signed 256 x.toNat - signed 256 y.toNat - borrow))) :
        Byte) := by
  have small := x.isLt
  have small' := y.isLt
  rw [bit7]
  refine congrArg truth (Bool.eq_iff_iff.mpr ?_)
  rw [decide_eq_true_iff, signed_byte, signed_byte, BitVec.getLsbD_and,
    BitVec.getLsbD_xor, BitVec.getLsbD_xor, getLsbD7_setWidth, getLsbD7_setWidth, getLsbD7]
  unfold Overflows
  by_cases positive : x.toNat < 128 <;> by_cases positive' : y.toNat < 128
  all_goals
    simp [positive, positive']
    split at difference <;> omega

end Overflow

section Decimal

/-- The decimal digits of a byte, the lower one first -/
def bcdDigits (b : Byte) : List Nat := [b.toNat % 16, b.toNat / 16]

/-- A byte of packed decimal digits -/
def ValidBcd (b : Byte) : Prop := ∀ k ∈ bcdDigits b, k < 10

instance (b : Byte) : Decidable (ValidBcd b) := by
  unfold ValidBcd
  infer_instance

theorem validBcd_iff {b : Byte} : ValidBcd b ↔ b.toNat % 16 < 10 ∧ b.toNat / 16 < 10 := by
  simp [ValidBcd, bcdDigits]

theorem low_nibble (x : Byte) : (x.setWidth 32 &&& (0x0F : Word)).toNat = x.toNat % 16 := by
  have low : x.toNat &&& 15 = x.toNat % 16 := Nat.and_two_pow_sub_one_eq_mod _ 4
  rw [BitVec.toNat_and, BitVec.toNat_setWidth, Nat.mod_eq_of_lt (by omega)]
  exact low

theorem high_nibble (x : Byte) : (x.setWidth 32 >>> 4 : Word).toNat = x.toNat / 16 := by
  rw [BitVec.toNat_ushiftRight, BitVec.toNat_setWidth, Nat.mod_eq_of_lt (by omega),
    Nat.shiftRight_eq_div_pow]

/-- The decimal correction of the sums of two nibbles -/
def carryNibbles (lo hi : Word) : Word × Word :=
  let (lo, hi) := if lo > 9 then (lo + 6, hi + 1) else (lo, hi)
  (lo, if hi > 9 then hi + 6 else hi)

/-- The decimal correction of the differences of two nibbles -/
def borrowNibbles (lo hi : Word) : Word × Word :=
  let (lo, hi) := if lo.slt 0 then (lo - 6, hi - 1) else (lo, hi)
  (lo, if hi.slt 0 then hi - 6 else hi)

theorem carryNibbles_digits {lo hi : Word} (small : lo.toNat < 20) (small' : hi.toNat < 19) :
    let p := carryNibbles lo hi
    ∃ k, lo.toNat = p.1.toNat % 16 + 10 * k ∧
      hi.toNat + k = p.2.toNat % 16 + 10 * (if p.2 > 0x0F then 1 else 0) ∧
      p.1.toNat % 16 < 10 ∧ p.2.toNat % 16 < 10 := by
  unfold carryNibbles
  by_cases carries : lo > 9
  · rw [if_pos carries]
    refine ⟨1, ?_⟩
    by_cases carries : hi + 1 > 9
    · simp only [if_pos carries]
      rw [if_pos (by bv_omega)]
      bv_omega
    · simp only [if_neg carries]
      rw [if_neg (by bv_omega)]
      bv_omega
  · rw [if_neg carries]
    refine ⟨0, ?_⟩
    by_cases carries : hi > 9
    · simp only [if_pos carries]
      rw [if_pos (by bv_omega)]
      bv_omega
    · simp only [if_neg carries]
      rw [if_neg (by bv_omega)]
      bv_omega

theorem borrowNibbles_digits (lo hi : Word) {x x' y y' b : Nat} (digit : x < 10) (digit' : x' < 10)
    (other : y < 10) (other' : y' < 10) (bit : b ≤ 1)
    (low : lo.toNat + y + b = x + if x < y + b then 2 ^ 32 else 0)
    (high : hi.toNat + y' = x' + if x' < y' then 2 ^ 32 else 0) :
    let p := borrowNibbles lo hi
    ∃ k, p.1.toNat % 16 + y + b = x + 10 * k ∧
      p.2.toNat % 16 + y' + k = x' + 10 * (if x' * 16 + x < y' * 16 + y + b then 1 else 0) ∧
      p.1.toNat % 16 < 10 ∧ p.2.toNat % 16 < 10 := by
  unfold borrowNibbles
  by_cases borrows : lo.slt 0
  · rw [if_pos borrows]
    rw [slt_zero_iff] at borrows
    refine ⟨1, ?_⟩
    by_cases borrows : (hi - 1).slt 0
    · simp only [if_pos borrows]
      rw [slt_zero_iff] at borrows
      split at low <;> split at high <;> split <;> bv_omega
    · simp only [if_neg borrows]
      rw [slt_zero_iff] at borrows
      split at low <;> split at high <;> split <;> bv_omega
  · rw [if_neg borrows]
    rw [slt_zero_iff] at borrows
    refine ⟨0, ?_⟩
    by_cases borrows : hi.slt 0
    · simp only [if_pos borrows]
      rw [slt_zero_iff] at borrows
      split at low <;> split at high <;> split <;> bv_omega
    · simp only [if_neg borrows]
      rw [slt_zero_iff] at borrows
      split at low <;> split at high <;> split <;> bv_omega

end Decimal

section OneByte

variable (x y : Byte) {c : Cpu}

/-- The carry of an addition -/
def Adds (B : Nat) (carry : Byte) (xs ys rs : List Nat) (carry' : Byte) : Prop :=
  Sums B carry.toNat xs ys rs carry'.toNat

/-- The borrow of a subtraction is a clear carry. -/
def Takes (B : Nat) (carry : Byte) (xs ys rs : List Nat) (carry' : Byte) : Prop :=
  Sums B (1 - carry.toNat) rs ys xs (1 - carry'.toNat)

theorem Adds.digit {B : Nat} {carry carry' : Byte} {x y r : Nat}
    (sum : x + y + carry.toNat = r + B * carry'.toNat) : Adds B carry [x] [y] [r] carry' :=
  .cons sum (.nil _)

theorem Takes.digit {B : Nat} {carry carry' : Byte} {x y r : Nat}
    (difference : r + y + (1 - carry.toNat) = x + B * (1 - carry'.toNat)) :
    Takes B carry [x] [y] [r] carry' :=
  .cons difference (.nil _)

theorem lynxAdc_of_binary (binary : c.d = 0) :
    let c' := lynxAdc y (lynxLda x c)
    c'.a = (wideSum x y c.c).setWidth 8 ∧ c'.c = truth (decide (wideSum x y c.c > 0xFF)) ∧
      c'.d = c.d ∧
      c'.v = (((~~~(x.setWidth 32 ^^^ y.setWidth 32) &&& (x.setWidth 32 ^^^ wideSum x y c.c)) >>> 7)
        &&& 1).setWidth 8 := by
  have d : (lynxLda x c).d = 0 := binary
  rw [lynxAdc, if_pos d]
  exact ⟨rfl, rfl, rfl, rfl⟩

theorem lynxSbc_of_binary (binary : c.d = 0) :
    let c' := lynxSbc y (lynxLda x c)
    c'.a = (wideDifference x y c.c).setWidth 8 ∧
      c'.c = truth (decide (wideDifference x y c.c < 0x100)) ∧ c'.d = c.d ∧
      c'.v = ((((x.setWidth 32 ^^^ y.setWidth 32) &&& (x.setWidth 32 ^^^ wideDifference x y c.c))
        >>> 7) &&& 1).setWidth 8 := by
  have d : (lynxLda x c).d = 0 := binary
  rw [lynxSbc, if_pos d]
  exact ⟨rfl, rfl, rfl, rfl⟩

theorem lynxAdc_of_decimal (decimal : c.d ≠ 0) :
    let p := carryNibbles
      ((x.setWidth 32 &&& 0x0F) + (y.setWidth 32 &&& 0x0F) + c.c.setWidth 32)
      (x.setWidth 32 >>> 4 + y.setWidth 32 >>> 4)
    let c' := lynxAdc y (lynxLda x c)
    c'.a = (p.2 <<< 4 ||| (p.1 &&& 0x0F)).setWidth 8 ∧ c'.c = truth (decide (p.2 > 0x0F)) ∧
      c'.d = c.d := by
  have d : ¬ (lynxLda x c).d = 0 := decimal
  rw [lynxAdc, if_neg d]
  exact ⟨rfl, rfl, rfl⟩

theorem lynxSbc_of_decimal (decimal : c.d ≠ 0) :
    let p := borrowNibbles
      ((x.setWidth 32 &&& 0x0F) - (y.setWidth 32 &&& 0x0F) - (1 - c.c.setWidth 32))
      (x.setWidth 32 >>> 4 - y.setWidth 32 >>> 4)
    let c' := lynxSbc y (lynxLda x c)
    c'.a = (p.2 <<< 4 ||| (p.1 &&& 0x0F)).setWidth 8 ∧
      c'.c = truth (decide (wideDifference x y c.c < 0x100)) ∧ c'.d = c.d := by
  have d : ¬ (lynxLda x c).d = 0 := decimal
  rw [lynxSbc, if_neg d]
  exact ⟨rfl, rfl, rfl⟩

theorem lynxAdc_binary (binary : c.d = 0) (bit : c.c ≤ 1) :
    let c' := lynxAdc y (lynxLda x c)
    x.toNat + y.toNat + c.c.toNat = c'.a.toNat + 256 * c'.c.toNat ∧ c'.c ≤ 1 ∧ c'.d = c.d := by
  rcases lynxAdc_of_binary x y binary with ⟨a, carry, d, _⟩
  have sum := wideSum_toNat x y c.c
  have bound : c.c.toNat ≤ 1 := bit
  simp only [a, carry, d]
  refine ⟨?_, truth_le_one _, trivial⟩
  rw [toNat_truth, BitVec.toNat_setWidth]
  simp only [decide_eq_true_iff]
  split <;> bv_omega

theorem lynxSbc_binary (binary : c.d = 0) (bit : c.c ≤ 1) :
    let c' := lynxSbc y (lynxLda x c)
    c'.a.toNat + y.toNat + (1 - c.c.toNat) = x.toNat + 256 * (1 - c'.c.toNat) ∧ c'.c ≤ 1 ∧
      c'.d = c.d := by
  rcases lynxSbc_of_binary x y binary with ⟨a, carry, d, _⟩
  have difference := wideDifference_toNat x y c.c bit
  simp only [a, carry, d]
  refine ⟨?_, truth_le_one _, trivial⟩
  rw [toNat_truth, BitVec.toNat_setWidth]
  simp only [decide_eq_true_iff]
  split at difference <;> split <;> bv_omega

theorem bcdDigits_nibbles (hi lo : Word) :
    bcdDigits ((hi <<< 4 ||| (lo &&& 0x0F)).setWidth 8) = [lo.toNat % 16, hi.toNat % 16] := by
  unfold bcdDigits
  rw [nibbles]
  congr 1
  · omega
  · congr 1
    omega

theorem validBcd_nibbles {hi lo : Word} :
    ValidBcd ((hi <<< 4 ||| (lo &&& 0x0F)).setWidth 8) ↔
      lo.toNat % 16 < 10 ∧ hi.toNat % 16 < 10 := by
  rw [ValidBcd, bcdDigits_nibbles, List.forall_mem_cons, List.forall_mem_singleton]

theorem lynxAdc_decimal (decimal : c.d ≠ 0) (bit : c.c ≤ 1) (valid : ValidBcd x)
    (valid' : ValidBcd y) :
    let c' := lynxAdc y (lynxLda x c)
    Adds 10 c.c (bcdDigits x) (bcdDigits y) (bcdDigits c'.a) c'.c ∧ c'.c ≤ 1 ∧ c'.d = c.d ∧
      ValidBcd c'.a := by
  rcases lynxAdc_of_decimal x y decimal with ⟨a, carry, d⟩
  rw [validBcd_iff] at valid valid'
  have bound : c.c.toNat ≤ 1 := bit
  have low : ((x.setWidth 32 &&& 0x0F) + (y.setWidth 32 &&& 0x0F) + c.c.setWidth 32 : Word).toNat =
      x.toNat % 16 + y.toNat % 16 + c.c.toNat := by
    rw [BitVec.toNat_add, BitVec.toNat_add, low_nibble, low_nibble, BitVec.toNat_setWidth]
    omega
  have high : (x.setWidth 32 >>> 4 + y.setWidth 32 >>> 4 : Word).toNat =
      x.toNat / 16 + y.toNat / 16 := by
    rw [BitVec.toNat_add, high_nibble, high_nibble]
    omega
  rcases carryNibbles_digits (by rw [low]; omega) (by rw [high]; omega) with
    ⟨k, digit, digit', small, small'⟩
  rw [low] at digit
  rw [high] at digit'
  simp only [a, carry, d]
  refine ⟨?_, truth_le_one _, trivial, ?_⟩
  · rw [bcdDigits_nibbles, Adds, toNat_truth]
    simp only [decide_eq_true_iff]
    exact .cons digit (.cons digit' (.nil _))
  · exact validBcd_nibbles.mpr ⟨small, small'⟩

theorem lynxSbc_decimal (decimal : c.d ≠ 0) (bit : c.c ≤ 1) (valid : ValidBcd x)
    (valid' : ValidBcd y) :
    let c' := lynxSbc y (lynxLda x c)
    Takes 10 c.c (bcdDigits x) (bcdDigits y) (bcdDigits c'.a) c'.c ∧ c'.c ≤ 1 ∧ c'.d = c.d ∧
      ValidBcd c'.a := by
  rcases lynxSbc_of_decimal x y decimal with ⟨a, carry, d⟩
  rw [validBcd_iff] at valid valid'
  have bound : 1 - c.c.toNat ≤ 1 := Nat.sub_le _ _
  have low := low_nibble x
  have low' := low_nibble y
  have high := high_nibble x
  have high' := high_nibble y
  have difference := wideDifference_toNat x y c.c bit
  rcases borrowNibbles_digits
    ((x.setWidth 32 &&& 0x0F) - (y.setWidth 32 &&& 0x0F) - (1 - c.c.setWidth 32))
    (x.setWidth 32 >>> 4 - y.setWidth 32 >>> 4) (b := 1 - c.c.toNat) valid.1 valid.2 valid'.1
    valid'.2 bound (by split <;> bv_omega) (by split <;> bv_omega) with
    ⟨k, digit, digit', small, small'⟩
  have borrow :
      (if x.toNat / 16 * 16 + x.toNat % 16 < y.toNat / 16 * 16 + y.toNat % 16 + (1 - c.c.toNat)
        then 1 else 0) = 1 - if wideDifference x y c.c < 0x100 then 1 else 0 := by
    split at difference <;> split <;> split <;> bv_omega
  simp only [a, carry, d]
  refine ⟨?_, truth_le_one _, trivial, ?_⟩
  · rw [bcdDigits_nibbles, Takes, toNat_truth]
    simp only [decide_eq_true_iff]
    rw [borrow] at digit'
    exact .cons digit (.cons digit' (.nil _))
  · exact validBcd_nibbles.mpr ⟨small, small'⟩

end OneByte

section Chain

/-- What an operation does to the digits of each byte, it does to those of all. -/
theorem multiByte_chain (op : Byte → Cpu → Cpu) (mode valid : Byte → Prop)
    (digits : Byte → List Nat) (R : Byte → List Nat → List Nat → List Nat → Byte → Prop)
    (nil : ∀ carry, R carry [] [] [] carry)
    (append : ∀ {c c' c'' xs ys rs xs' ys' rs'}, R c xs ys rs c' → R c' xs' ys' rs' c'' →
      R c (xs ++ xs') (ys ++ ys') (rs ++ rs') c'')
    (step : ∀ x y (c : Cpu), mode c.d → c.c ≤ 1 → valid x → valid y →
      let c' := op y (lynxLda x c)
      R c.c (digits x) (digits y) (digits c'.a) c'.c ∧ c'.c ≤ 1 ∧ c'.d = c.d ∧ valid c'.a)
    {xs ys : List Byte} {c : Cpu} (same : ys.length = xs.length) (inMode : mode c.d)
    (bit : c.c ≤ 1) (operand : ∀ b ∈ xs, valid b) (operand' : ∀ b ∈ ys, valid b) :
    let r := multiByte op xs ys c
    R c.c (xs.flatMap digits) (ys.flatMap digits) (r.1.flatMap digits) r.2.c ∧ r.2.c ≤ 1 ∧
      r.1.length = xs.length ∧ ∀ b ∈ r.1, valid b := by
  induction xs generalizing ys c with
  | nil =>
    rw [List.length_eq_zero_iff.mp same]
    exact ⟨nil c.c, bit, rfl, fun _ h => absurd h List.not_mem_nil⟩
  | cons x xs ih =>
    rcases ys with _ | ⟨y, ys⟩
    · exact absurd same (Nat.succ_ne_zero _).symm
    · rw [List.forall_mem_cons] at operand operand'
      rcases step x y c inMode bit operand.1 operand'.1 with ⟨first, bit', d, valid'⟩
      have inMode' : mode (op y (lynxLda x c)).d := d ▸ inMode
      rcases ih (Nat.succ.inj same) inMode' bit' operand.2 operand'.2 with
        ⟨rest, bit'', length, valid''⟩
      exact ⟨append first rest, bit'', congrArg (· + 1) length,
        List.forall_mem_cons.mpr ⟨valid', valid''⟩⟩

/-- The number that bytes stand for, the lowest first -/
def binary (bs : List Byte) : Nat := Nat.ofDigits 256 (bs.map BitVec.toNat)

/-- The number that bytes of packed decimal digits stand for, the lowest first -/
def decimal (bs : List Byte) : Nat := Nat.ofDigits 10 (bs.flatMap bcdDigits)

/-- `r` holds the sum of two operands and a carry, and the carry out of it. -/
def ExactSum (value : List Byte → Nat) (span : Nat) (xs ys : List Byte) (carry : Byte)
    (r : List Byte × Cpu) : Prop :=
  r.1.length = xs.length ∧
    value r.1 = (value xs + value ys + carry.toNat) % span ^ xs.length ∧
    r.2.c = truth (decide (span ^ xs.length ≤ value xs + value ys + carry.toNat))

/-- `r` holds the difference of two operands and a borrow, and the borrow out of it. -/
def ExactDifference (value : List Byte → Nat) (span : Nat) (xs ys : List Byte) (carry : Byte)
    (r : List Byte × Cpu) : Prop :=
  r.1.length = xs.length ∧
    (value r.1 : Int) =
      ((value xs : Int) - value ys - (1 - carry.toNat : Nat)) % (span ^ xs.length : Nat) ∧
    r.2.c = truth (decide (value ys + (1 - carry.toNat) ≤ value xs))

theorem byte_eq_truth_iff {b : Byte} {p : Prop} [Decidable p] (bit : b ≤ 1) :
    b = truth (decide p) ↔ (1 ≤ b.toNat ↔ p) := by
  by_cases holds : p
  · simp only [holds, decide_true, truth_true, iff_true]
    bv_omega
  · simp only [holds, decide_false, truth_false, iff_false]
    bv_omega

section Exact

variable {B span : Nat} {digits : Byte → List Nat} {xs ys : List Byte} {carry : Byte}
  {r : List Byte × Cpu}

theorem pow_flatMap_length (width : ∀ b, B ^ (digits b).length = span) (bs : List Byte) :
    B ^ (bs.flatMap digits).length = span ^ bs.length := by
  induction bs with
  | nil => rfl
  | cons b bs ih =>
    rw [List.flatMap_cons, List.length_append, pow_add, width, ih, List.length_cons, pow_succ,
      Nat.mul_comm]

theorem flatMap_bounded {bs : List Byte} (bounded : ∀ b ∈ bs, ∀ k ∈ digits b, k < B) :
    ∀ k ∈ bs.flatMap digits, k < B := by
  intro k member
  rcases List.mem_flatMap.mp member with ⟨b, inside, digit⟩
  exact bounded b inside k digit

variable (base : 1 < B) (width : ∀ b, B ^ (digits b).length = span) (bit : r.2.c ≤ 1)
  (length : r.1.length = xs.length) (bounded : ∀ b ∈ r.1, ∀ k ∈ digits b, k < B)
include base width bit length bounded

theorem Adds.exactSum
    (adds : Adds B carry (xs.flatMap digits) (ys.flatMap digits) (r.1.flatMap digits) r.2.c) :
    ExactSum (fun bs => Nat.ofDigits B (bs.flatMap digits)) span xs ys carry r := by
  rcases Sums.sum base adds (flatMap_bounded bounded) with ⟨value, out⟩
  rw [pow_flatMap_length width] at value out
  refine ⟨length, value, (byte_eq_truth_iff bit).mpr ?_⟩
  have positive : 0 < span ^ xs.length := by
    rw [← pow_flatMap_length width]
    exact Nat.pow_pos (Nat.zero_lt_of_lt base)
  rw [out, Nat.one_le_div_iff positive]

theorem Takes.exactDifference
    (takes : Takes B carry (xs.flatMap digits) (ys.flatMap digits) (r.1.flatMap digits) r.2.c) :
    ExactDifference (fun bs => Nat.ofDigits B (bs.flatMap digits)) span xs ys carry r := by
  rcases Sums.difference base takes (flatMap_bounded bounded) (Nat.sub_le _ _) with ⟨value, out⟩
  rw [pow_flatMap_length width, length] at value
  refine ⟨length, value, (byte_eq_truth_iff bit).mpr ?_⟩
  rw [← out]
  omega

end Exact

theorem binary_eq_ofDigits :
    binary = fun bs => Nat.ofDigits 256 (bs.flatMap fun b => [b.toNat]) := by
  funext bs
  rw [binary, List.map_eq_flatMap]

section Modes

variable {xs ys : List Byte} {c : Cpu} (same : ys.length = xs.length) (bit : c.c ≤ 1)
include same bit

theorem lynxAdc_multiByte_binary (mode : c.d = 0) :
    ExactSum binary 256 xs ys c.c (multiByte lynxAdc xs ys c) := by
  have chain := multiByte_chain lynxAdc (· = 0) (fun _ => True) (fun b => [b.toNat]) (Adds 256)
    (fun _ => .nil _) Sums.append
    (fun x y c mode bit _ _ => by
      rcases lynxAdc_binary x y mode bit with ⟨sum, bit', d⟩
      exact ⟨.digit sum, bit', d, trivial⟩)
    same mode bit (fun _ _ => trivial) (fun _ _ => trivial)
  rcases chain with ⟨adds, bit', length, _⟩
  rw [binary_eq_ofDigits]
  exact adds.exactSum (by decide) (fun _ => rfl) bit' length
    fun b _ k member => List.mem_singleton.mp member ▸ b.isLt

theorem lynxSbc_multiByte_binary (mode : c.d = 0) :
    ExactDifference binary 256 xs ys c.c (multiByte lynxSbc xs ys c) := by
  have chain := multiByte_chain lynxSbc (· = 0) (fun _ => True) (fun b => [b.toNat]) (Takes 256)
    (fun _ => .nil _) Sums.append
    (fun x y c mode bit _ _ => by
      rcases lynxSbc_binary x y mode bit with ⟨difference, bit', d⟩
      exact ⟨.digit difference, bit', d, trivial⟩)
    same mode bit (fun _ _ => trivial) (fun _ _ => trivial)
  rcases chain with ⟨takes, bit', length, _⟩
  rw [binary_eq_ofDigits]
  exact takes.exactDifference (by decide) (fun _ => rfl) bit' length
    fun b _ k member => List.mem_singleton.mp member ▸ b.isLt

theorem lynxAdc_multiByte_decimal (mode : c.d ≠ 0) (valid : ∀ b ∈ xs, ValidBcd b)
    (valid' : ∀ b ∈ ys, ValidBcd b) :
    ExactSum decimal 100 xs ys c.c (multiByte lynxAdc xs ys c) ∧
      ∀ b ∈ (multiByte lynxAdc xs ys c).1, ValidBcd b := by
  have chain := multiByte_chain lynxAdc (· ≠ 0) ValidBcd bcdDigits (Adds 10) (fun _ => .nil _)
    Sums.append (fun x y c mode bit valid valid' => lynxAdc_decimal x y mode bit valid valid')
    same mode bit valid valid'
  rcases chain with ⟨adds, bit', length, bounded⟩
  exact ⟨adds.exactSum (by decide) (fun _ => rfl) bit' length bounded, bounded⟩

theorem lynxSbc_multiByte_decimal (mode : c.d ≠ 0) (valid : ∀ b ∈ xs, ValidBcd b)
    (valid' : ∀ b ∈ ys, ValidBcd b) :
    ExactDifference decimal 100 xs ys c.c (multiByte lynxSbc xs ys c) ∧
      ∀ b ∈ (multiByte lynxSbc xs ys c).1, ValidBcd b := by
  have chain := multiByte_chain lynxSbc (· ≠ 0) ValidBcd bcdDigits (Takes 10) (fun _ => .nil _)
    Sums.append (fun x y c mode bit valid valid' => lynxSbc_decimal x y mode bit valid valid')
    same mode bit valid valid'
  rcases chain with ⟨takes, bit', length, bounded⟩
  exact ⟨takes.exactDifference (by decide) (fun _ => rfl) bit' length bounded, bounded⟩

end Modes

end Chain

section SignedOverflow

theorem pow_256 (n : Nat) : 256 ^ (n + 1) = 2 * (128 * 256 ^ n) := by
  rw [pow_succ]
  omega

theorem binary_cons (b : Byte) (bs : List Byte) : binary (b :: bs) = b.toNat + 256 * binary bs := by
  rw [binary, List.map_cons, Nat.ofDigits_cons]
  rfl

theorem binary_lt (bs : List Byte) : binary bs < 256 ^ bs.length := by
  rw [binary, ← List.length_map BitVec.toNat]
  apply Nat.ofDigits_lt_base_pow_length (by decide)
  intro k member
  rcases List.mem_map.mp member with ⟨b, _, rfl⟩
  exact b.isLt

/-- The two's complement number that bytes stand for -/
def twosComplement (bs : List Byte) : Int := signed (256 ^ bs.length) (binary bs)

theorem twosComplement_singleton (b : Byte) : twosComplement [b] = signed 256 b.toNat := by
  rw [twosComplement, binary_cons]
  rfl

/-- Half of what several bytes hold, and of what one more byte holds -/
theorem half_span {bs : List Byte} (more : bs ≠ []) :
    ∃ M, 256 ^ bs.length = 2 * M ∧ 256 ^ (bs.length + 1) = 2 * (256 * M) := by
  rcases List.exists_cons_of_ne_nil more with ⟨b, bs, rfl⟩
  refine ⟨128 * 256 ^ bs.length, pow_256 _, ?_⟩
  rw [pow_succ, List.length_cons, pow_256]
  omega

theorem twosComplement_cons {b : Byte} {bs : List Byte} (more : bs ≠ []) :
    twosComplement (b :: bs) = b.toNat + 256 * twosComplement bs := by
  rcases half_span more with ⟨M, inner, outer⟩
  have below := binary_lt bs
  rw [inner] at below
  unfold twosComplement
  rw [binary_cons, List.length_cons, inner, outer]
  exact signed_cons b.isLt below

/-- The lowest byte of a sum is left out of account by its overflow. -/
theorem overflows_low {bs : List Byte} (more : bs ≠ []) (r : Byte) (z : Int) :
    Overflows (256 ^ (bs.length + 1)) (r.toNat + 256 * z) ↔ Overflows (256 ^ bs.length) z := by
  rcases half_span more with ⟨M, inner, outer⟩
  rw [inner, outer]
  exact overflows_cons r.isLt

/-- The overflow of the highest byte is that of the whole: with `z` what an operation computes,
each lower byte of it is settled once and for all. -/
theorem multiByte_overflow {op : Byte → Cpu → Cpu} {z : Int → Int → Byte → Int}
    (highest : ∀ x y (c : Cpu), c.d = 0 → c.c ≤ 1 → (op y (lynxLda x c)).v =
      truth (decide (Overflows 256 (z (signed 256 x.toNat) (signed 256 y.toNat) c.c))))
    (lower : ∀ x y (c : Cpu), c.d = 0 → c.c ≤ 1 →
      let c' := op y (lynxLda x c)
      c'.c ≤ 1 ∧ c'.d = c.d ∧ ∀ X Y : Int,
        z (x.toNat + 256 * X) (y.toNat + 256 * Y) c.c = c'.a.toNat + 256 * z X Y c'.c)
    {xs ys : List Byte} {c : Cpu} (same : ys.length = xs.length) (nonempty : xs ≠ [])
    (mode : c.d = 0) (bit : c.c ≤ 1) :
    (multiByte op xs ys c).2.v =
      truth (decide (Overflows (256 ^ xs.length)
        (z (twosComplement xs) (twosComplement ys) c.c))) := by
  induction xs generalizing ys c with
  | nil => exact absurd rfl nonempty
  | cons x xs ih =>
    rcases ys with _ | ⟨y, ys⟩
    · exact absurd same (Nat.succ_ne_zero _).symm
    have same' : ys.length = xs.length := Nat.succ.inj same
    by_cases last : xs = []
    · subst last
      rw [List.length_eq_zero_iff.mp same', twosComplement_singleton, twosComplement_singleton]
      exact highest x y c mode bit
    · have last' : ys ≠ [] := by
        rintro rfl
        exact last (List.length_eq_zero_iff.mp same'.symm)
      rcases lower x y c mode bit with ⟨bit', d, total⟩
      have rest := ih same' last (d.trans mode) bit'
      rw [multiByte, twosComplement_cons last, twosComplement_cons last', total]
      dsimp only
      rw [rest]
      exact congrArg truth (decide_eq_decide.mpr (overflows_low last _ _).symm)

section Modes

variable {xs ys : List Byte} {c : Cpu} (same : ys.length = xs.length) (nonempty : xs ≠ [])
  (bit : c.c ≤ 1) (mode : c.d = 0)
include same nonempty bit mode

theorem lynxAdc_multiByte_overflow :
    (multiByte lynxAdc xs ys c).2.v =
      truth (decide (Overflows (256 ^ xs.length)
        (twosComplement xs + twosComplement ys + c.c.toNat))) := by
  apply multiByte_overflow (z := fun X Y carry => X + Y + carry.toNat) ?_ ?_ same nonempty mode bit
  · intro x y c mode bit
    have sum := sum_overflows (x := x) (y := y) bit (wideSum_toNat x y c.c)
    exact (lynxAdc_of_binary x y mode).2.2.2.trans sum
  · intro x y c mode bit
    rcases lynxAdc_binary x y mode bit with ⟨sum, bit', d⟩
    refine ⟨bit', d, fun X Y => ?_⟩
    have cast := congrArg (Nat.cast (R := Int)) sum
    push_cast at cast
    linarith

theorem lynxSbc_multiByte_overflow :
    (multiByte lynxSbc xs ys c).2.v =
      truth (decide (Overflows (256 ^ xs.length)
        (twosComplement xs - twosComplement ys - (1 - c.c.toNat : Nat)))) := by
  apply multiByte_overflow (z := fun X Y carry => X - Y - (1 - carry.toNat : Nat)) ?_ ?_ same
    nonempty mode bit
  · intro x y c mode bit
    have difference := difference_overflows (x := x) (y := y) (Nat.sub_le _ _)
      (wideDifference_toNat x y c.c bit)
    exact (lynxSbc_of_binary x y mode).2.2.2.trans difference
  · intro x y c mode bit
    rcases lynxSbc_binary x y mode bit with ⟨difference, bit', d⟩
    refine ⟨bit', d, fun X Y => ?_⟩
    have cast := congrArg (Nat.cast (R := Int)) difference
    rw [Nat.cast_add, Nat.cast_add, Nat.cast_add, Nat.cast_mul] at cast
    push_cast at cast ⊢
    linarith

end Modes

end SignedOverflow

/-- Arithmetic on several bytes is exact: in binary mode the sum and the difference, the carry and
the signed overflow; in decimal mode the sum and the difference of packed digits, and the carry. -/
theorem multiByte_exact {xs ys : List Byte} {c : Cpu} (same : ys.length = xs.length)
    (nonempty : xs ≠ []) (bit : c.c ≤ 1) :
    let added := multiByte lynxAdc xs ys c
    let taken := multiByte lynxSbc xs ys c
    let span := 256 ^ xs.length
    (c.d = 0 →
      (ExactSum binary 256 xs ys c.c added ∧ added.2.v = truth (decide (Overflows span
        (twosComplement xs + twosComplement ys + c.c.toNat)))) ∧
      ExactDifference binary 256 xs ys c.c taken ∧ taken.2.v = truth (decide (Overflows span
        (twosComplement xs - twosComplement ys - (1 - c.c.toNat : Nat))))) ∧
    (c.d ≠ 0 → (∀ b ∈ xs, ValidBcd b) → (∀ b ∈ ys, ValidBcd b) →
      (ExactSum decimal 100 xs ys c.c added ∧ ∀ b ∈ added.1, ValidBcd b) ∧
      ExactDifference decimal 100 xs ys c.c taken ∧ ∀ b ∈ taken.1, ValidBcd b) := by
  constructor
  · intro mode
    exact ⟨⟨lynxAdc_multiByte_binary same bit mode,
      lynxAdc_multiByte_overflow same nonempty bit mode⟩,
      lynxSbc_multiByte_binary same bit mode, lynxSbc_multiByte_overflow same nonempty bit mode⟩
  · intro mode valid valid'
    exact ⟨lynxAdc_multiByte_decimal same bit mode valid valid',
      lynxSbc_multiByte_decimal same bit mode valid valid'⟩

/-- The CPU in decimal mode, if `d` is set -/
def arithmeticCpu (d : Byte) : Cpu := { (Machine.zeroed ()).cpu with d := d }

theorem multiByte_exact_199 :
    let xs : List Byte := [0x99, 0x01]
    let ys : List Byte := [0x01, 0x00]
    (arithmeticCpu 0).d = 0 ∧ (arithmeticCpu 1).d ≠ 0 ∧ (∀ b ∈ xs, ValidBcd b) ∧
      (∀ b ∈ ys, ValidBcd b) ∧
      (ExactSum binary 256 xs ys 0 (multiByte lynxAdc xs ys (arithmeticCpu 0)) ∧
        ExactDifference binary 256 xs ys 0 (multiByte lynxSbc xs ys (arithmeticCpu 0))) ∧
      ExactSum decimal 100 xs ys 0 (multiByte lynxAdc xs ys (arithmeticCpu 1)) ∧
        ExactDifference decimal 100 xs ys 0 (multiByte lynxSbc xs ys (arithmeticCpu 1)) := by
  intro xs ys
  have valid : ∀ b ∈ xs, ValidBcd b := by decide
  have valid' : ∀ b ∈ ys, ValidBcd b := by decide
  have binary := (@multiByte_exact xs ys (arithmeticCpu 0) rfl (by decide) (by decide)).1 rfl
  have decimal := (@multiByte_exact xs ys (arithmeticCpu 1) rfl (by decide) (by decide)).2
    (by decide) valid valid'
  exact ⟨rfl, by decide, valid, valid', ⟨binary.1.1, binary.2.1⟩, decimal.1.1, decimal.2.1⟩

example : (multiByte lynxAdc [0x99, 0x01] [0x01, 0x00] (arithmeticCpu 1)).1 = [0x00, 0x02] := by
  decide

end LynxRecomp
