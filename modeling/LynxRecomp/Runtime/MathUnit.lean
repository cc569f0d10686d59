import Mathlib.Data.List.Perm.Basic
import LynxRecomp.Runtime.Suzy

/-!
# The math unit

A write to MATHA multiplies and a write to MATHE divides, whatever has been written to the
other registers before. The results go to the registers without a write of their own, so no
operation starts another.
-/

namespace LynxRecomp

variable {η : Type}

section Stores

variable {α β : Type} [DecidableEq α]

/-- What a list of writes leaves in plain memory -/
def stored (writes : List (α × β)) (mem : α → β) : α → β :=
  writes.foldl (fun mem w => Function.update mem w.1 w.2) mem

@[simp] theorem stored_nil (mem : α → β) : stored [] mem = mem := rfl

@[simp] theorem stored_cons (w : α × β) (writes : List (α × β)) (mem : α → β) :
    stored (w :: writes) mem = stored writes (Function.update mem w.1 w.2) := rfl

theorem stored_concat (writes : List (α × β)) (w : α × β) (mem : α → β) :
    stored (writes ++ [w]) mem = Function.update (stored writes mem) w.1 w.2 :=
  List.foldl_concat ..

theorem stored_other {writes : List (α × β)} {a : α} (other : ∀ w ∈ writes, w.1 ≠ a)
    (mem : α → β) : stored writes mem a = mem a := by
  induction writes generalizing mem with
  | nil => rfl
  | cons w writes ih =>
    have first := other w List.mem_cons_self
    rw [stored_cons, ih fun v member => other v (List.mem_cons_of_mem _ member)]
    exact Function.update_of_ne first.symm ..

/-- Writes to different places may come in any order. -/
theorem stored_mem {writes : List (α × β)} (distinct : (writes.map Prod.fst).Nodup) {w : α × β}
    (member : w ∈ writes) (mem : α → β) : stored writes mem w.1 = w.2 := by
  induction writes generalizing mem with
  | nil => cases member
  | cons v writes ih =>
    rcases List.nodup_cons.mp distinct with ⟨once, rest⟩
    cases member with
    | head =>
      rw [stored_cons, stored_other]
      · exact Function.update_self ..
      · intro v later same
        exact once (same ▸ List.mem_map_of_mem later)
    | tail _ later => exact ih rest later _

theorem stored_perm {writes order : List (α × β)} (perm : order.Perm writes)
    (distinct : (writes.map Prod.fst).Nodup) {w : α × β} (member : w ∈ writes) (mem : α → β) :
    stored order mem w.1 = w.2 := by
  apply stored_mem _ (perm.mem_iff.mpr member)
  exact (perm.map Prod.fst).nodup_iff.mpr distinct

end Stores

section Long

/-- The registers of a 32-bit value, from the lowest byte on -/
def longBytes (lo : Byte) : List Byte := [lo, lo + 1, lo + 2, lo + 3]

def longWrites (lo : Byte) (v : Word) : List (Byte × Byte) :=
  [(lo, v.setWidth 8), (lo + 1, (v >>> 8).setWidth 8), (lo + 2, (v >>> 16).setWidth 8),
    (lo + 3, (v >>> 24).setWidth 8)]

theorem put32_stored (lo : Byte) (v : Word) (reg : Byte → Byte) :
    put32 lo v reg = stored (longWrites lo v) reg := rfl

theorem longBytes_distinct : ∀ lo : Byte, (longBytes lo).Nodup := by decide

theorem put32_other {lo r : Byte} (other : r ∉ longBytes lo) (v : Word) (reg : Byte → Byte) :
    put32 lo v reg r = reg r := by
  rw [put32_stored]
  apply stored_other
  rintro w member rfl
  exact other (List.mem_map_of_mem (f := Prod.fst) member)

theorem get32_congr {lo : Byte} {reg reg' : Byte → Byte}
    (same : ∀ r ∈ longBytes lo, reg' r = reg r) : get32 lo reg' = get32 lo reg := by
  simp only [longBytes, List.forall_mem_cons] at same
  rcases same with ⟨first, second, third, fourth, -⟩
  unfold get32
  rw [first, second, third, fourth]

/-- What is put in four registers is got from them. -/
theorem get32_put32 (lo : Byte) (v : Word) (reg : Byte → Byte) :
    get32 lo (put32 lo v reg) = v := by
  have byte {w : Byte × Byte} (member : w ∈ longWrites lo v) : put32 lo v reg w.1 = w.2 :=
    @stored_mem _ _ _ (longWrites lo v) (longBytes_distinct lo) _ member reg
  have first : put32 lo v reg lo = v.setWidth 8 := byte (.head _)
  have second : put32 lo v reg (lo + 1) = (v >>> 8).setWidth 8 := byte (.tail _ (.head _))
  have third : put32 lo v reg (lo + 2) = (v >>> 16).setWidth 8 := byte (.tail _ (.tail _ (.head _)))
  have fourth : put32 lo v reg (lo + 3) = (v >>> 24).setWidth 8 :=
    byte (.tail _ (.tail _ (.tail _ (.head _))))
  unfold get32
  rw [first, second, third, fourth]
  exact word32_split v

end Long

section Operations

def mathAB (reg : Byte → Byte) : Addr := word16 (reg suzyMathb) (reg suzyMatha)
def mathCD (reg : Byte → Byte) : Addr := word16 (reg suzyMathd) (reg suzyMathc)
def mathNP (reg : Byte → Byte) : Addr := word16 (reg suzyMathp) (reg suzyMathn)
def mathABCD (reg : Byte → Byte) : Word := get32 suzyMathd reg
def mathEFGH (reg : Byte → Byte) : Word := get32 suzyMathh reg
def mathJKLM (reg : Byte → Byte) : Word := get32 suzyMathm reg

/-- The multiplication of the factors in `reg` -/
structure Multiplied (reg reg' : Byte → Byte) : Prop where
  product : (mathEFGH reg').toNat = (mathAB reg).toNat * (mathCD reg).toNat
  others : ∀ r, r ∉ longBytes suzyMathh → reg' r = reg r

/-- The division of the dividend by the divisor in `reg` -/
structure Divided (reg reg' : Byte → Byte) : Prop where
  quotient : (mathABCD reg').toNat * (mathNP reg).toNat + (mathJKLM reg').toNat =
    (mathEFGH reg).toNat
  remainder : (mathJKLM reg').toNat < (mathNP reg).toNat
  others : ∀ r, r ∉ longBytes suzyMathd → r ∉ longBytes suzyMathm → reg' r = reg r

/-- The product of two 16-bit values fits in 32 bits. -/
theorem suzyMultiply_multiplied (reg : Byte → Byte) : Multiplied reg (suzyMultiply reg) where
  product := by
    have bounded : (mathAB reg).toNat * (mathCD reg).toNat < 2 ^ 32 := by
      have ab : (mathAB reg).toNat ≤ 2 ^ 16 - 1 := Nat.le_pred_of_lt (mathAB reg).isLt
      have cd : (mathCD reg).toNat ≤ 2 ^ 16 - 1 := Nat.le_pred_of_lt (mathCD reg).isLt
      have both := Nat.mul_le_mul ab cd
      omega
    have product : mathEFGH (suzyMultiply reg) =
        (mathAB reg).setWidth 32 * (mathCD reg).setWidth 32 := get32_put32 ..
    rw [product, BitVec.toNat_mul, BitVec.toNat_setWidth_of_le (by decide),
      BitVec.toNat_setWidth_of_le (by decide), Nat.mod_eq_of_lt bounded]
  others r other := put32_other other ..

theorem suzyDivide_divided {reg : Byte → Byte} (divisor : mathNP reg ≠ 0) :
    Divided reg (suzyDivide reg) := by
  have divide : suzyDivide reg =
      put32 suzyMathm (mathEFGH reg % (mathNP reg).setWidth 32)
        (put32 suzyMathd (mathEFGH reg / (mathNP reg).setWidth 32) reg) := if_pos divisor
  have apart : ∀ r ∈ longBytes suzyMathd, r ∉ longBytes suzyMathm := by decide
  have abcd : mathABCD (suzyDivide reg) = mathEFGH reg / (mathNP reg).setWidth 32 := by
    rw [divide]
    exact (get32_congr fun r member => put32_other (apart r member) ..).trans (get32_put32 ..)
  have jklm : mathJKLM (suzyDivide reg) = mathEFGH reg % (mathNP reg).setWidth 32 := by
    rw [divide]
    exact get32_put32 ..
  have wide : ((mathNP reg).setWidth 32).toNat = (mathNP reg).toNat :=
    BitVec.toNat_setWidth_of_le (by decide)
  have positive : 0 < (mathNP reg).toNat :=
    Nat.pos_of_ne_zero fun zero => divisor (BitVec.eq_of_toNat_eq zero)
  constructor
  case quotient =>
    rw [abcd, jklm, BitVec.toNat_udiv, BitVec.toNat_umod, wide]
    exact Nat.div_add_mod' ..
  case remainder =>
    rw [jklm, BitVec.toNat_umod, wide]
    exact Nat.mod_lt _ positive
  case others =>
    intro r outside outside'
    rw [divide]
    exact (put32_other outside' ..).trans (put32_other outside ..)

end Operations

section Writes

/-- The registers whose writes start something -/
def Triggers (off : Byte) : Prop := off = suzySprgo ∨ off = suzyMatha ∨ off = suzyMathe

instance (off : Byte) : Decidable (Triggers off) := inferInstanceAs (Decidable (_ ∨ _ ∨ _))

/-- A list of register writes, each an offset and a value -/
def suzyWrites (writes : List (Byte × Byte)) (hw : Hw η) : Hw η :=
  writes.foldl (fun hw w => lynxSuzyWrite w.1 w.2 hw) hw

def Hw.setSuzyReg (reg : Byte → Byte) (hw : Hw η) : Hw η :=
  { hw with suzy := { hw.suzy with reg := reg } }

theorem lynxSuzyWrite_quiet {off : Byte} (quiet : ¬ Triggers off) (val : Byte) (hw : Hw η) :
    lynxSuzyWrite off val hw = hw.setSuzyReg (Function.update hw.suzy.reg off val) := by
  rcases not_or.mp quiet with ⟨sprgo, math⟩
  rcases not_or.mp math with ⟨matha, mathe⟩
  unfold lynxSuzyWrite
  rw [if_neg sprgo, if_neg matha, if_neg mathe]
  rfl

theorem suzyWrites_quiet {writes : List (Byte × Byte)} (quiet : ∀ w ∈ writes, ¬ Triggers w.1)
    (hw : Hw η) : suzyWrites writes hw = hw.setSuzyReg (stored writes hw.suzy.reg) := by
  induction writes generalizing hw with
  | nil => rfl
  | cons w writes ih =>
    rcases List.forall_mem_cons.mp quiet with ⟨first, rest⟩
    have step : suzyWrites (w :: writes) hw = suzyWrites writes (lynxSuzyWrite w.1 w.2 hw) := rfl
    rw [step, lynxSuzyWrite_quiet first, ih rest]
    rfl

theorem suzyWrites_concat (writes : List (Byte × Byte)) (w : Byte × Byte) (hw : Hw η) :
    suzyWrites (writes ++ [w]) hw = lynxSuzyWrite w.1 w.2 (suzyWrites writes hw) :=
  List.foldl_concat ..

/-- After writes that start nothing, a write to MATHA multiplies what the registers hold then. -/
theorem suzyWrites_multiply {writes : List (Byte × Byte)} (quiet : ∀ w ∈ writes, ¬ Triggers w.1)
    (val : Byte) (hw : Hw η) :
    suzyWrites (writes ++ [(suzyMatha, val)]) hw =
      hw.setSuzyReg (suzyMultiply (stored (writes ++ [(suzyMatha, val)]) hw.suzy.reg)) := by
  rw [suzyWrites_concat, suzyWrites_quiet quiet, stored_concat]
  rfl

theorem suzyWrites_divide {writes : List (Byte × Byte)} (quiet : ∀ w ∈ writes, ¬ Triggers w.1)
    (val : Byte) (hw : Hw η) :
    suzyWrites (writes ++ [(suzyMathe, val)]) hw =
      hw.setSuzyReg (suzyDivide (stored (writes ++ [(suzyMathe, val)]) hw.suzy.reg)) := by
  rw [suzyWrites_concat, suzyWrites_quiet quiet, stored_concat]
  rfl

/-- The writes of the factors before the one that starts the multiplication -/
def factorWrites (ab cd : Addr) : List (Byte × Byte) :=
  [(suzyMathd, cd.setWidth 8), (suzyMathc, (cd >>> 8).setWidth 8), (suzyMathb, ab.setWidth 8)]

def divisorWrites (np : Addr) : List (Byte × Byte) :=
  [(suzyMathp, np.setWidth 8), (suzyMathn, (np >>> 8).setWidth 8)]

theorem quiet_perm {writes order : List (Byte × Byte)} (perm : order.Perm writes)
    (quiet : ∀ off ∈ writes.map Prod.fst, ¬ Triggers off) : ∀ w ∈ order, ¬ Triggers w.1 :=
  fun _ member => quiet _ (List.mem_map_of_mem (perm.mem_iff.mp member))

theorem factorWrites_quiet (ab cd : Addr) :
    ∀ off ∈ (factorWrites ab cd).map Prod.fst, ¬ Triggers off := by
  have quiet : ∀ off ∈ [suzyMathd, suzyMathc, suzyMathb], ¬ Triggers off := by decide
  exact quiet

theorem divisorWrites_quiet (np : Addr) :
    ∀ off ∈ (divisorWrites np).map Prod.fst, ¬ Triggers off := by
  have quiet : ∀ off ∈ [suzyMathp, suzyMathn], ¬ Triggers off := by decide
  exact quiet

/-- In whatever order they are written, the factors are in place when MATHA is. -/
theorem stored_factors {ab cd : Addr} {factors : List (Byte × Byte)}
    (perm : factors.Perm (factorWrites ab cd)) (reg : Byte → Byte) :
    let reg' := stored (factors ++ [(suzyMatha, (ab >>> 8).setWidth 8)]) reg
    mathAB reg' = ab ∧ mathCD reg' = cd := by
  intro reg'
  have distinct : [suzyMathd, suzyMathc, suzyMathb, suzyMatha].Nodup := by decide
  have byte {w : Byte × Byte}
      (member : w ∈ factorWrites ab cd ++ [(suzyMatha, (ab >>> 8).setWidth 8)]) :
      reg' w.1 = w.2 :=
    stored_perm (perm.append_right [(suzyMatha, (ab >>> 8).setWidth 8)]) distinct member reg
  have d : reg' suzyMathd = cd.setWidth 8 := byte (.head _)
  have c : reg' suzyMathc = (cd >>> 8).setWidth 8 := byte (.tail _ (.head _))
  have b : reg' suzyMathb = ab.setWidth 8 := byte (.tail _ (.tail _ (.head _)))
  have a : reg' suzyMatha = (ab >>> 8).setWidth 8 := byte (.tail _ (.tail _ (.tail _ (.head _))))
  unfold mathAB mathCD
  rw [a, b, c, d]
  exact ⟨word16_split ab, word16_split cd⟩

/-- The writes before a division of a product leave the product in place. -/
theorem stored_divisor {np : Addr} {divisor : List (Byte × Byte)}
    (perm : divisor.Perm (divisorWrites np)) (reg : Byte → Byte) :
    let reg' := stored (divisor ++ [(suzyMathe, reg suzyMathe)]) reg
    mathNP reg' = np ∧ mathEFGH reg' = mathEFGH reg := by
  intro reg'
  have distinct : [suzyMathp, suzyMathn, suzyMathe].Nodup := by decide
  have byte {w : Byte × Byte} (member : w ∈ divisorWrites np ++ [(suzyMathe, reg suzyMathe)]) :
      reg' w.1 = w.2 :=
    stored_perm (perm.append_right [(suzyMathe, reg suzyMathe)]) distinct member reg
  have p : reg' suzyMathp = np.setWidth 8 := byte (.head _)
  have n : reg' suzyMathn = (np >>> 8).setWidth 8 := byte (.tail _ (.head _))
  constructor
  · unfold mathNP
    rw [p, n]
    exact word16_split np
  · apply get32_congr
    intro r dividend
    by_cases top : r = suzyMathe
    · rw [top]
      exact byte (.tail _ (.tail _ (.head _)))
    · have apart : ∀ r ∈ longBytes suzyMathh, ∀ off ∈ [suzyMathp, suzyMathn], off ≠ r := by decide
      have kept : stored divisor reg r = reg r :=
        stored_other (fun w member =>
          apart r dividend w.1 (List.mem_map_of_mem (f := Prod.fst) (perm.mem_iff.mp member))) reg
      change stored (divisor ++ [(suzyMathe, reg suzyMathe)]) reg r = reg r
      rw [stored_concat, Function.update_of_ne top]
      exact kept

end Writes

section Exact

/-- Multiplying and dividing the product by a factor gives the other one. -/
theorem suzy_multiply_divide {ab cd : Addr} (nonzero : cd ≠ 0)
    {factors divisor : List (Byte × Byte)}
    (multiplying : factors.Perm (factorWrites ab cd))
    (dividing : divisor.Perm (divisorWrites cd)) (hw : Hw η) :
    let multiplied := suzyWrites (factors ++ [(suzyMatha, (ab >>> 8).setWidth 8)]) hw
    let divided :=
      suzyWrites (divisor ++ [(suzyMathe, multiplied.suzy.reg suzyMathe)]) multiplied
    mathABCD divided.suzy.reg = ab.setWidth 32 ∧ mathJKLM divided.suzy.reg = 0 := by
  intro multiplied divided
  let factored := stored (factors ++ [(suzyMatha, (ab >>> 8).setWidth 8)]) hw.suzy.reg
  have multiply : multiplied = hw.setSuzyReg (suzyMultiply factored) :=
    suzyWrites_multiply (quiet_perm multiplying (factorWrites_quiet ab cd)) _ hw
  let reg := stored (divisor ++ [(suzyMathe, multiplied.suzy.reg suzyMathe)]) multiplied.suzy.reg
  have divide : divided = multiplied.setSuzyReg (suzyDivide reg) :=
    suzyWrites_divide (quiet_perm dividing (divisorWrites_quiet cd)) _ multiplied
  have factor : mathAB factored = ab ∧ mathCD factored = cd := stored_factors multiplying _
  have operands : mathNP reg = cd ∧ mathEFGH reg = mathEFGH multiplied.suzy.reg :=
    stored_divisor dividing _
  have product : (mathEFGH reg).toNat = ab.toNat * cd.toNat := by
    rw [operands.2, multiply, ← factor.1, ← factor.2]
    exact (suzyMultiply_multiplied factored).product
  have exact_ : Divided reg divided.suzy.reg := by
    rw [divide]
    exact suzyDivide_divided (operands.1.symm ▸ nonzero)
  have small : (mathJKLM divided.suzy.reg).toNat < cd.toNat := by
    rw [← operands.1]
    exact exact_.remainder
  have sum : (mathJKLM divided.suzy.reg).toNat + cd.toNat * (mathABCD divided.suzy.reg).toNat =
      ab.toNat * cd.toNat := by
    rw [← product, ← exact_.quotient, operands.1, Nat.mul_comm, Nat.add_comm]
  have positive : 0 < cd.toNat := Nat.zero_lt_of_lt small
  rcases (Nat.div_mod_unique positive).mpr ⟨sum, small⟩ with ⟨quotient, remainder⟩
  rw [Nat.mul_div_cancel _ positive] at quotient
  rw [Nat.mul_mod_left] at remainder
  constructor
  · apply BitVec.eq_of_toNat_eq
    rw [BitVec.toNat_setWidth_of_le (by decide)]
    exact quotient.symm
  · exact BitVec.eq_of_toNat_eq remainder.symm

/-- The operations of the math unit, from any register file and after any writes that start
nothing: the multiplication, the division, and the one undone by the other. -/
theorem mathUnit_exact (hw : Hw η) :
    (∀ writes : List (Byte × Byte), (∀ w ∈ writes, ¬ Triggers w.1) → ∀ val,
      let reg := stored (writes ++ [(suzyMatha, val)]) hw.suzy.reg
      ∃ reg', suzyWrites (writes ++ [(suzyMatha, val)]) hw = hw.setSuzyReg reg' ∧
        Multiplied reg reg') ∧
    (∀ writes : List (Byte × Byte), (∀ w ∈ writes, ¬ Triggers w.1) → ∀ val,
      let reg := stored (writes ++ [(suzyMathe, val)]) hw.suzy.reg
      mathNP reg ≠ 0 →
        ∃ reg', suzyWrites (writes ++ [(suzyMathe, val)]) hw = hw.setSuzyReg reg' ∧
          Divided reg reg') ∧
    (∀ ab cd : Addr, cd ≠ 0 → ∀ factors divisor : List (Byte × Byte),
      factors.Perm (factorWrites ab cd) → divisor.Perm (divisorWrites cd) →
        let multiplied := suzyWrites (factors ++ [(suzyMatha, (ab >>> 8).setWidth 8)]) hw
        let divided :=
          suzyWrites (divisor ++ [(suzyMathe, multiplied.suzy.reg suzyMathe)]) multiplied
        mathABCD divided.suzy.reg = ab.setWidth 32 ∧ mathJKLM divided.suzy.reg = 0) := by
  refine ⟨?_, ?_, ?_⟩
  · intro writes quiet val reg
    exact ⟨_, suzyWrites_multiply quiet val hw, suzyMultiply_multiplied reg⟩
  · intro writes quiet val reg divisor
    exact ⟨_, suzyWrites_divide quiet val hw, suzyDivide_divided divisor⟩
  · intro ab cd nonzero factors divisor multiplying dividing
    exact suzy_multiply_divide nonzero multiplying dividing hw

/-- The widest factors, and 1000 divided by 7 -/
theorem mathUnit_exact_samples :
    (let multiplied := suzyWrites ((factorWrites 0xFFFF 0xFFFF).reverse ++ [(suzyMatha, 0xFF)])
        (Hw.zeroed ())
      let divided :=
        suzyWrites (divisorWrites 0xFFFF ++ [(suzyMathe, multiplied.suzy.reg suzyMathe)]) multiplied
      mathABCD divided.suzy.reg = 0xFFFF ∧ mathJKLM divided.suzy.reg = 0) ∧
    ∃ reg', suzyWrites [(suzyMathp, 7), (suzyMathn, 0), (suzyMathh, 0xE8), (0x61, 3), (0x62, 0),
        (suzyMathe, 0)] (Hw.zeroed ()) = (Hw.zeroed ()).setSuzyReg reg' ∧
      (mathABCD reg').toNat * 7 + (mathJKLM reg').toNat = 1000 ∧ (mathJKLM reg').toNat < 7 := by
  rcases mathUnit_exact (Hw.zeroed ()) with ⟨-, divide, undo⟩
  constructor
  · exact undo 0xFFFF 0xFFFF (by decide) _ _ (List.reverse_perm _) (.refl _)
  · have np : mathNP (stored [(suzyMathp, 7), (suzyMathn, 0), (suzyMathh, 0xE8), (0x61, 3),
        (0x62, 0), (suzyMathe, 0)] (Hw.zeroed ()).suzy.reg) = 7 := by decide
    have efgh : mathEFGH (stored [(suzyMathp, 7), (suzyMathn, 0), (suzyMathh, 0xE8), (0x61, 3),
        (0x62, 0), (suzyMathe, 0)] (Hw.zeroed ()).suzy.reg) = 1000 := by decide
    rcases divide [(suzyMathp, 7), (suzyMathn, 0), (suzyMathh, 0xE8), (0x61, 3), (0x62, 0)]
      (quiet_perm (.refl _) (by decide)) 0 (np ▸ by decide) with ⟨reg', same, divided⟩
    have sum := divided.quotient
    have small := divided.remainder
    simp only [List.cons_append, List.nil_append, np, efgh] at sum small
    exact ⟨reg', same, sum, small⟩

end Exact

end LynxRecomp
