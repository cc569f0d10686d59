import Mathlib.Tactic.IntervalCases
import LynxRecomp.Recompiler.LynxDec

/-!
# The decryptor computes the documented scheme

Every working buffer holds a number below the modulus; a double and a conditional
add keep it there, and never carry out of the guard byte.
-/

namespace LynxRecomp

open BigEndian (value)

/-- The public modulus as a number. -/
def modulus : Nat := value nmod

/-- The buffer of one block: `x ^ 3 mod N` without leading zeros, filled up with zeros on
the right, where `x` is the block reversed. -/
def plainBuffer (enc : List Byte) : List Byte :=
  let r := BigEndian.minimal 8 (value enc.reverse ^ 3 % modulus)
  r ++ List.replicate (klen - r.length) 0

/-- The sums mod 256 of the first, the first two, ... of the bytes, on top of `acc`. -/
def runningSums (acc : Byte) : List Byte → List Byte
  | [] => []
  | b :: bs => (acc + b) :: runningSums (acc + b) bs

/-- The documented plaintext of `b` blocks: the running sum over the bytes 50 down to 1 of
every buffer, carried across the blocks. -/
def plaintext (rom : List Byte) (b : Nat) : List Byte :=
  runningSums 0 ((List.range b).flatMap fun j =>
    (plainBuffer ((rom.drop (1 + j * klen)).take klen)).tail.reverse)

/-- `(256 - rom[0]) mod 256` -/
def blockCount (rom : List Byte) : Nat := (256 - (rom.headD 0).toNat) % 256

section Arithmetic

/-- A buffer of full length that holds the number `n`. -/
def Holds (x : List Byte) (n : Nat) : Prop := x.length = blen ∧ value x = n

theorem modulus_bounds : 1 < modulus ∧ modulus < (2 ^ 8) ^ klen := by decide +kernel

theorem modulus_pos : 0 < modulus := Nat.lt_of_lt_of_le Nat.one_pos (Nat.le_of_lt modulus_bounds.1)

theorem nbe_holds : Holds nbe modulus := ⟨rfl, by simp [nbe, bnSet, BigEndian.value_cons, modulus]⟩

theorem bnZero_holds : Holds bnZero 0 :=
  ⟨List.length_replicate, BigEndian.value_replicate_zero _⟩

theorem bnOne_holds : Holds bnOne 1 := by
  refine ⟨rfl, ?_⟩
  rw [bnOne, BigEndian.value_append, BigEndian.value_replicate_zero]
  rfl

theorem bnCmp_lt {xs ys : List Byte} (same : xs.length = ys.length) :
    bnCmp xs ys = .lt ↔ value xs < value ys := by
  induction xs generalizing ys with
  | nil =>
    cases ys with
    | nil => simp [bnCmp]
    | cons y ys => simp at same
  | cons x xs ih =>
    cases ys with
    | nil => simp at same
    | cons y ys =>
      have rest : xs.length = ys.length := by simpa using same
      rw [bnCmp]
      by_cases equal : x = y
      · subst equal
        rw [if_pos rfl, ih rest, BigEndian.value_cons, BigEndian.value_cons, rest]
        omega
      · rw [if_neg equal]
        by_cases less : x < y
        · have := BigEndian.value_lt_of_head_lt rest less
          simp [less, this]
        · have greater : y < x := by bv_omega
          have := BigEndian.value_lt_of_head_lt rest.symm greater
          simp only [less, if_false]
          constructor
          · intro h; cases h
          · intro h; omega

/-- The loop of `bn_add` adds, with the last carry as one more digit in front. -/
theorem bnAddLoop_value {r a : List Byte} (same : r.length = a.length) :
    (bnAddLoop r a).2.length = r.length ∧
      value (bnAddLoop r a).2 + (bnAddLoop r a).1 * (2 ^ 8) ^ r.length = value r + value a := by
  induction r generalizing a with
  | nil =>
    cases a with
    | nil => exact ⟨rfl, rfl⟩
    | cons a as => simp at same
  | cons x xs ih =>
    cases a with
    | nil => simp at same
    | cons y ys =>
      have rest : xs.length = ys.length := by simpa using same
      obtain ⟨length, sum⟩ := ih rest
      rw [bnAddLoop]
      refine ⟨by simp [length], ?_⟩
      have digit := Nat.mod_add_div (x.toNat + y.toNat + (bnAddLoop xs ys).1) (2 ^ 8)
      simp only [BigEndian.value_cons, BitVec.toNat_ofNat, length, List.length_cons, ← rest,
        pow_succ (2 ^ 8 : Nat)]
      calc _ = ((x.toNat + y.toNat + (bnAddLoop xs ys).1) % 2 ^ 8 +
              2 ^ 8 * ((x.toNat + y.toNat + (bnAddLoop xs ys).1) / 2 ^ 8)) * (2 ^ 8) ^ xs.length +
              value (bnAddLoop xs ys).2 := by ring
        _ = (x.toNat + y.toNat) * (2 ^ 8) ^ xs.length +
              (value (bnAddLoop xs ys).2 + (bnAddLoop xs ys).1 * (2 ^ 8) ^ xs.length) := by
            rw [digit]; ring
        _ = _ := by rw [sum]; ring

/-- The loop of `bn_sub` subtracts, with the last borrow as one more digit in front. -/
theorem bnSubLoop_value {r m : List Byte} (same : r.length = m.length) :
    (bnSubLoop r m).2.length = r.length ∧ 0 ≤ (bnSubLoop r m).1 ∧ (bnSubLoop r m).1 ≤ 1 ∧
      (value (bnSubLoop r m).2 : Int) - (bnSubLoop r m).1 * (2 ^ 8) ^ r.length =
        value r - value m := by
  induction r generalizing m with
  | nil =>
    cases m with
    | nil => simp [bnSubLoop]
    | cons y ys => simp at same
  | cons x xs ih =>
    cases m with
    | nil => simp at same
    | cons y ys =>
      have rest : xs.length = ys.length := by simpa using same
      obtain ⟨length, low, high, difference⟩ := ih rest
      rw [bnSubLoop]
      simp only
      have hx := x.isLt
      have hy := y.isLt
      refine ⟨by simp [length], by split <;> decide, by split <;> decide, ?_⟩
      -- the digit written and the new borrow make up the digit difference
      have digit : ((BitVec.ofInt 8 (x.toNat - y.toNat - (bnSubLoop xs ys).1)).toNat : Int) -
          (if (x.toNat : Int) - y.toNat - (bnSubLoop xs ys).1 < 0 then 1 else 0) * 2 ^ 8 =
          x.toNat - y.toNat - (bnSubLoop xs ys).1 := by
        rw [BitVec.toNat_ofInt]
        split <;> omega
      simp only [BigEndian.value_cons, length, List.length_cons, ← rest, pow_succ (2 ^ 8 : Int)]
      push_cast
      calc _ = (((BitVec.ofInt 8 (x.toNat - y.toNat - (bnSubLoop xs ys).1)).toNat : Int) -
              (if (x.toNat : Int) - y.toNat - (bnSubLoop xs ys).1 < 0 then 1 else 0) * 2 ^ 8) *
              (2 ^ 8) ^ xs.length + value (bnSubLoop xs ys).2 := by ring
        _ = (x.toNat - y.toNat) * (2 ^ 8) ^ xs.length + ((value (bnSubLoop xs ys).2 : Int) -
              (bnSubLoop xs ys).1 * (2 ^ 8) ^ xs.length) := by rw [digit]; ring
        _ = _ := by rw [difference]; ring

variable {r a x : List Byte} {m n N : Nat}

theorem bnAdd_holds (hr : Holds r m) (ha : Holds a n) (room : m + n < (2 ^ 8) ^ blen) :
    Holds (bnAdd r a) (m + n) := by
  obtain ⟨length, sum⟩ := bnAddLoop_value (hr.1.trans ha.1.symm)
  rw [hr.1, hr.2, ha.2] at sum
  refine ⟨length.trans hr.1, ?_⟩
  -- a carry out of the guard byte would be worth more than the whole sum
  have none : (bnAddLoop r a).1 = 0 := by
    by_contra carry
    have := Nat.le_mul_of_pos_left ((2 ^ 8) ^ blen) (Nat.pos_of_ne_zero carry)
    omega
  rw [none, Nat.zero_mul, Nat.add_zero] at sum
  exact sum

theorem bnSub_holds (hr : Holds r m) (ha : Holds a n) (enough : n ≤ m) :
    Holds (bnSub r a) (m - n) := by
  obtain ⟨length, low, high, difference⟩ := bnSubLoop_value (hr.1.trans ha.1.symm)
  have digits := BigEndian.value_lt (bnSubLoop r a).2
  rw [length, hr.1] at digits
  rw [hr.1, hr.2, ha.2] at difference
  refine ⟨length.trans hr.1, ?_⟩
  have none : (bnSubLoop r a).1 = 0 := by
    by_contra borrow
    have one : (bnSubLoop r a).1 = 1 := by omega
    rw [one] at difference
    have : ((value (bnSubLoop r a).2 : Nat) : Int) < (2 ^ 8) ^ blen := by exact_mod_cast digits
    omega
  rw [none] at difference
  have : value (bnSub r a) = value (bnSubLoop r a).2 := rfl
  omega

theorem bnAddmod_holds (hr : Holds r m) (ha : Holds a n) (hm : m < modulus) (hn : n < modulus) :
    Holds (bnAddmod r a) ((m + n) % modulus) := by
  have bounds := modulus_bounds
  have guard : 2 * (2 ^ 8) ^ klen ≤ (2 ^ 8) ^ blen := by decide
  have sum := bnAdd_holds hr ha (by omega)
  have less : bnCmp (bnAdd r a) nbe = .lt ↔ m + n < modulus := by
    rw [bnCmp_lt (sum.1.trans nbe_holds.1.symm), sum.2, nbe_holds.2]
  rw [bnAddmod]
  by_cases small : m + n < modulus
  · rw [if_neg (not_not.mpr (less.mpr small)), Nat.mod_eq_of_lt small]
    exact sum
  · rw [if_pos (mt less.mp small), Nat.mod_eq_sub_mod (by omega), Nat.mod_eq_of_lt (by omega)]
    exact bnSub_holds sum nbe_holds (by omega)

/-- `bn_bit` tests the bits of the number. -/
theorem bnBit_eq (hx : Holds x n) {bit : Nat} (inside : bit < klen * 8) :
    bnBit x bit = n.testBit bit := by
  have place : blen - 1 - bit / 8 < x.length := by rw [hx.1]; simp only [blen, klen] at *; omega
  have behind : (x.drop (blen - 1 - bit / 8 + 1)).length = bit / 8 := by
    rw [List.length_drop, hx.1]
    simp only [blen, klen] at *
    omega
  have digit := BigEndian.value_digit (x.take (blen - 1 - bit / 8)) x[blen - 1 - bit / 8]
    (x.drop (blen - 1 - bit / 8 + 1))
  rw [← List.drop_eq_getElem_cons place, List.take_append_drop, hx.2, behind, ← pow_mul] at digit
  have split : bit = 8 * (bit / 8) + bit % 8 := (Nat.div_add_mod bit 8).symm
  have low : bit % 8 < 8 := Nat.mod_lt _ (by decide)
  have masked : bnBit x bit = x[blen - 1 - bit / 8].toNat.testBit (bit % 8) := by
    rw [bnBit, List.getD, List.getElem?_eq_getElem place, Option.getD_some, BitVec.testBit_toNat]
    generalize x[blen - 1 - bit / 8] = d
    generalize bit % 8 = k at low
    interval_cases k <;> revert d <;> decide
  rw [masked, ← digit, Nat.testBit_mod_two_pow, Nat.testBit_div_two_pow]
  simp only [low, decide_true, Bool.true_and]
  rw [Nat.add_comm, ← split]

/-- The shift-and-add loop: with the bits from `bits` on done, `acc` holds the product of
`a` and that upper part of `x`; after the loop it holds the whole product. -/
theorem bnShiftAdd_holds {acc : List Byte} {bits : Nat} (ha : Holds a m) (hx : Holds x n)
    (hm : m < modulus) (inside : bits ≤ klen * 8)
    (hacc : Holds acc (m * (n / 2 ^ bits) % modulus)) :
    Holds (bnShiftAdd a x bits acc) (m * n % modulus) := by
  induction bits generalizing acc with
  | zero => simpa [bnShiftAdd] using hacc
  | succ bit ih =>
    have reduced := Nat.mod_lt (m * (n / 2 ^ (bit + 1))) modulus_pos
    have doubled := bnAddmod_holds hacc hacc reduced reduced
    have horner := BigEndian.shift_add_mod m n bit modulus
    rw [bnShiftAdd]
    refine ih (by omega) ?_
    rw [bnBit_eq hx (by omega)]
    rw [← Nat.two_mul] at doubled
    split <;> rename_i set
    · rw [if_pos set] at horner
      have added := bnAddmod_holds doubled ha (Nat.mod_lt _ modulus_pos) hm
      rwa [Nat.mod_add_mod, horner] at added
    · rw [if_neg set, Nat.add_zero] at horner
      rwa [horner] at doubled

theorem bnMulmod_holds {b : List Byte} (ha : Holds a m) (hb : Holds b n) (hm : m < modulus)
    (hn : n < modulus) : Holds (bnMulmod a b) (m * n % modulus) := by
  have small : n < 2 ^ (klen * 8) := by
    have := modulus_bounds.2
    rw [← pow_mul, Nat.mul_comm] at this
    omega
  refine bnShiftAdd_holds ha hb hm (Nat.le_refl _) ?_
  rw [Nat.div_eq_of_lt small, Nat.mul_zero, Nat.zero_mod]
  exact bnZero_holds

theorem bnReduce_holds (hx : Holds x n) (small : n < 2 ^ (klen * 8)) :
    Holds (bnReduce x) (n % modulus) := by
  have start : Holds bnZero (1 * (n / 2 ^ (klen * 8)) % modulus) := by
    rw [Nat.div_eq_of_lt small, Nat.mul_zero, Nat.zero_mod]
    exact bnZero_holds
  have reduced := bnShiftAdd_holds bnOne_holds hx modulus_bounds.1 (Nat.le_refl _) start
  rwa [Nat.one_mul] at reduced

end Arithmetic

section Placement

theorem minimal_length {n : Nat} (small : n < modulus) :
    (BigEndian.minimal 8 n).length ≤ klen := by
  have := (Nat.digits_length_le_iff (b := 2 ^ 8) (by decide) n).mpr (small.trans modulus_bounds.2)
  simpa [BigEndian.minimal] using this

theorem plainBuffer_length (enc : List Byte) : (plainBuffer enc).length = klen := by
  have short := minimal_length (Nat.mod_lt (value enc.reverse ^ 3) modulus_pos)
  simp only [plainBuffer, List.length_append, List.length_replicate]
  omega

theorem leftAligned_eq {res : List Byte} {n : Nat} (hres : Holds res n) (small : n < modulus) :
    leftAligned res = BigEndian.minimal 8 n ++
      List.replicate (klen - (BigEndian.minimal 8 n).length) 0 := by
  have short := minimal_length small
  have trimmed : res.drop (res.takeWhile (· == 0)).length = BigEndian.minimal 8 n := by
    have minimal := BigEndian.trim_eq_minimal (by decide) res
    rw [hres.2] at minimal
    have split := List.takeWhile_append_dropWhile (p := (· == 0)) (l := res)
    calc res.drop (res.takeWhile (· == 0)).length
        = (res.takeWhile (· == 0) ++ res.dropWhile (· == 0)).drop
            (res.takeWhile (· == 0)).length := by rw [split]
      _ = res.dropWhile (· == 0) := List.drop_left
      _ = BigEndian.minimal 8 n := minimal
  have first : (BigEndian.minimal 8 n).length = blen - (res.takeWhile (· == 0)).length := by
    rw [← trimmed, List.length_drop, hres.1]
  have zeros : (res.takeWhile (· == 0)).length ≤ blen :=
    hres.1 ▸ (List.takeWhile_sublist _).length_le
  rw [leftAligned, ← first, Nat.min_eq_left short, first, Nat.sub_sub_self zeros, ← first, trimmed,
    List.take_length]

theorem runningSums_append (acc : Byte) (xs ys : List Byte) :
    runningSums acc (xs ++ ys) = runningSums acc xs ++ runningSums (acc + xs.sum) ys := by
  induction xs generalizing acc with
  | nil => simp [runningSums]
  | cons x xs ih => simp [runningSums, ih, BitVec.add_assoc]

/-- The accumulator loop writes the running sums over the bytes it meets. -/
theorem accumulate_eq (buf : List Byte) (i acc : Nat) :
    let met := (List.range i).reverse.map fun k => buf.getD (k + 1) 0
    (accumulate buf i acc).1 = runningSums (BitVec.ofNat 8 acc) met ∧
      BitVec.ofNat 8 (accumulate buf i acc).2 = BitVec.ofNat 8 acc + met.sum := by
  induction i generalizing acc with
  | zero => simp [accumulate, runningSums]
  | succ i ih =>
    have step : BitVec.ofNat 8 ((acc + (buf.getD (i + 1) 0).toNat) &&& 0xFF) =
        BitVec.ofNat 8 acc + buf.getD (i + 1) 0 := by
      rw [show 0xFF = 2 ^ 8 - 1 from rfl, Nat.and_two_pow_sub_one_eq_mod]
      apply BitVec.eq_of_toNat_eq
      simp
    obtain ⟨out, last⟩ := ih ((acc + (buf.getD (i + 1) 0).toNat) &&& 0xFF)
    rw [step] at out last
    rw [accumulate, List.range_succ, List.reverse_append, List.reverse_singleton]
    simp only [List.singleton_append, List.map_cons, runningSums, List.sum_cons, step, out, last,
      BitVec.add_assoc, and_self]

theorem bytes_down_to_one {buf : List Byte} (length : buf.length = klen) :
    ((List.range 50).reverse.map fun k => buf.getD (k + 1) 0) = buf.tail.reverse := by
  have tail : buf.tail = (List.range 50).map fun k => buf.getD (k + 1) 0 := by
    refine List.ext_getElem (by simp [length, klen]) fun i hi _ => ?_
    have inside : i + 1 < buf.length := by
      rw [List.length_tail] at hi
      omega
    simp [inside]
  rw [tail, List.map_reverse]

end Placement

section Decryption

/-- One block: the buffer holds the cube of the reversed block, and its bytes 50 down to 1
are summed up on top of the accumulator. -/
theorem decryptBlock_eq {enc : List Byte} (length : enc.length = klen) (acc : Nat) :
    (decryptBlock enc acc).1 =
        runningSums (BitVec.ofNat 8 acc) (plainBuffer enc).tail.reverse ∧
      BitVec.ofNat 8 (decryptBlock enc acc).2 =
        BitVec.ofNat 8 acc + ((plainBuffer enc).tail.reverse).sum := by
  have block : Holds (bnSet enc.reverse) (value enc.reverse) :=
    ⟨by simp [bnSet, length, blen, klen], by simp [bnSet, BigEndian.value_cons]⟩
  have small : value enc.reverse < 2 ^ (klen * 8) := by
    have := BigEndian.value_lt enc.reverse
    rwa [List.length_reverse, length, ← pow_mul, Nat.mul_comm] at this
  have root := bnReduce_holds block small
  have below := Nat.mod_lt (value enc.reverse) modulus_pos
  have square := bnMulmod_holds root root below below
  have cube := bnMulmod_holds square root (Nat.mod_lt _ modulus_pos) below
  rw [← Nat.mul_mod (value enc.reverse) (value enc.reverse), ← Nat.mul_mod, ← sq,
    ← pow_succ] at cube
  have placed : leftAligned (bnMulmod (bnMulmod (bnReduce (bnSet enc.reverse))
      (bnReduce (bnSet enc.reverse))) (bnReduce (bnSet enc.reverse))) = plainBuffer enc :=
    leftAligned_eq cube (Nat.mod_lt _ modulus_pos)
  have sums := accumulate_eq (plainBuffer enc) 50 acc
  simp only [bytes_down_to_one (plainBuffer_length enc)] at sums
  rw [decryptBlock]
  simp only [placed]
  exact sums

theorem decryptBlocks_eq (b : Nat) {e : List Byte} (long : b * klen ≤ e.length) (acc : Nat) :
    decryptBlocks b e acc = runningSums (BitVec.ofNat 8 acc) ((List.range b).flatMap fun j =>
      (plainBuffer ((e.drop (j * klen)).take klen)).tail.reverse) := by
  induction b generalizing e acc with
  | zero => rfl
  | succ b ih =>
    have whole : (e.take klen).length = klen := by
      rw [List.length_take, Nat.min_eq_left]
      rw [Nat.succ_mul] at long
      omega
    obtain ⟨out, last⟩ := decryptBlock_eq whole acc
    have rest : b * klen ≤ (e.drop klen).length := by
      rw [List.length_drop]
      rw [Nat.succ_mul] at long
      omega
    rw [decryptBlocks]
    simp only [out, ih rest, last]
    rw [List.range_succ_eq_map, List.flatMap_cons, runningSums_append, List.flatMap_map]
    simp only [Nat.zero_mul, List.drop_zero, List.drop_drop, Nat.succ_mul]
    simp only [Nat.add_comm klen]

/-- The decryptor is the documented scheme, and rejects exactly what does not hold the
blocks it announces or does not fit. -/
theorem lynxDecryptLoader_eq (rom : List Byte) (outCap : Nat) :
    lynxDecryptLoader rom outCap =
      if 1 ≤ blockCount rom ∧ blockCount rom ≤ 5 ∧ 1 + 51 * blockCount rom ≤ rom.length ∧
          50 * blockCount rom ≤ outCap then
        (((50 * blockCount rom : Nat) : Int), plaintext rom (blockCount rom))
      else (-1, []) := by
  cases rom with
  | nil => rfl
  | cons first e =>
    have count : (256 - first.toNat) &&& 0xFF = blockCount (first :: e) := by
      rw [show 0xFF = 2 ^ 8 - 1 from rfl, Nat.and_two_pow_sub_one_eq_mod]
      rfl
    simp only [lynxDecryptLoader, count]
    generalize blockCount (first :: e) = b
    by_cases range : b < 1 ∨ b > 5
    · rw [if_pos range, if_neg (by omega)]
    · rw [if_neg range]
      by_cases short : 1 + b * klen > (first :: e).length
      · rw [if_pos short, if_neg (by simp only [klen] at short; omega)]
      · rw [if_neg short]
        by_cases full : outCap < b * 50
        · rw [if_pos full, if_neg (by omega)]
        · rw [if_neg full, if_pos (by simp only [klen] at short; omega)]
          have long : b * klen ≤ e.length := by simp at short; omega
          rw [decryptBlocks_eq b long, plaintext, Nat.mul_comm 50]
          simp only [Nat.add_comm 1, List.drop_succ_cons, BitVec.ofNat_eq_ofNat]
          push_cast
          rfl

end Decryption

end LynxRecomp
