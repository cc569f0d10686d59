import LynxRecomp.Runtime.Mem

/-!
# CPU helpers

`cpu.c` and the inline helpers of `recomp_rt.h`. A helper that reaches memory is a
program over the bus; the others only change the registers and flags.
-/

namespace LynxRecomp

abbrev Code := BusProgram Addr Byte

def lynxPPack (c : Cpu) : Byte :=
  (if c.n ≠ 0 then 0x80 else 0) ||| (if c.v ≠ 0 then 0x40 else 0) ||| 0x20 ||| 0x10 |||
    (if c.d ≠ 0 then 0x08 else 0) ||| (if c.i ≠ 0 then 0x04 else 0) |||
    (if c.z ≠ 0 then 0x02 else 0) ||| (if c.c ≠ 0 then 0x01 else 0)

def lynxPUnpack (p : Byte) (c : Cpu) : Cpu :=
  { c with
    n := truth (p &&& 0x80 != 0), v := truth (p &&& 0x40 != 0), d := truth (p &&& 0x08 != 0)
    i := truth (p &&& 0x04 != 0), z := truth (p &&& 0x02 != 0), c := truth (p &&& 0x01 != 0) }

def lynxCpuReset (c : Cpu) : Code Cpu := do
  let pc ← lynxMemRead16 vecReset
  pure { c with a := 0, x := 0, y := 0, s := 0xFF, n := 0, v := 0, d := 0, z := 0, c := 0, i := 1,
                pc := pc }

def lynxSetNz (v : Byte) (c : Cpu) : Cpu := { c with z := truth (v == 0), n := (v >>> 7) &&& 1 }

/-- A zero-page pointer; the address of its high byte wraps within the page. -/
def lynxZpPtr (zp : Byte) : Code Addr := do
  let lo ← BusProgram.get (zp.setWidth 16)
  let hi ← BusProgram.get ((zp + 1).setWidth 16)
  pure (word16 lo hi)

section Value

variable (v : Byte) (c : Cpu)

def lynxLda : Cpu := lynxSetNz v { c with a := v }
def lynxLdx : Cpu := lynxSetNz v { c with x := v }
def lynxLdy : Cpu := lynxSetNz v { c with y := v }

def lynxOra : Cpu := lynxSetNz (c.a ||| v) { c with a := c.a ||| v }
def lynxAnd : Cpu := lynxSetNz (c.a &&& v) { c with a := c.a &&& v }
def lynxEor : Cpu := lynxSetNz (c.a ^^^ v) { c with a := c.a ^^^ v }

def lynxBit : Cpu :=
  { c with z := truth (c.a &&& v == 0), n := (v >>> 7) &&& 1, v := (v >>> 6) &&& 1 }

def lynxBitImm : Cpu := { c with z := truth (c.a &&& v == 0) }

def lynxAdc : Cpu :=
  let a : Word := c.a.setWidth 32
  let w : Word := v.setWidth 32
  let cy : Word := c.c.setWidth 32
  if c.d = 0 then
    let sum := a + w + cy
    lynxSetNz (sum.setWidth 8)
      { c with
        v := (((~~~(a ^^^ w) &&& (a ^^^ sum)) >>> 7) &&& 1).setWidth 8
        c := truth (decide (sum > 0xFF))
        a := sum.setWidth 8 }
  else
    let lo := (a &&& 0x0F) + (w &&& 0x0F) + cy
    let hi := (a >>> 4) + (w >>> 4)
    let (lo, hi) := if lo > 9 then (lo + 6, hi + 1) else (lo, hi)
    let bin := a + w + cy
    let hi := if hi > 9 then hi + 6 else hi
    let r := (hi <<< 4 ||| (lo &&& 0x0F)).setWidth 8
    lynxSetNz r
      { c with
        v := (((~~~(a ^^^ w) &&& (a ^^^ bin)) >>> 7) &&& 1).setWidth 8
        c := truth (decide (hi > 0x0F))
        a := r }

def lynxSbc : Cpu :=
  let a : Word := c.a.setWidth 32
  let w : Word := v.setWidth 32
  let cy : Word := c.c.setWidth 32
  let diff := a - w - (1 - cy)
  if c.d = 0 then
    lynxSetNz (diff.setWidth 8)
      { c with
        v := ((((a ^^^ w) &&& (a ^^^ diff)) >>> 7) &&& 1).setWidth 8
        c := truth (decide (diff < 0x100))
        a := diff.setWidth 8 }
  else
    let lo := (a &&& 0x0F) - (w &&& 0x0F) - (1 - cy)
    let hi := (a >>> 4) - (w >>> 4)
    let (lo, hi) := if lo.slt 0 then (lo - 6, hi - 1) else (lo, hi)
    let hi := if hi.slt 0 then hi - 6 else hi
    let r := (hi <<< 4 ||| (lo &&& 0x0F)).setWidth 8
    lynxSetNz r
      { c with
        v := ((((a ^^^ w) &&& (a ^^^ diff)) >>> 7) &&& 1).setWidth 8
        c := truth (decide (diff < 0x100))
        a := r }

def lynxCmpReg (reg : Byte) : Cpu := lynxSetNz (reg - v) { c with c := truth (decide (reg ≥ v)) }
def lynxCmp : Cpu := lynxCmpReg v c c.a
def lynxCpx : Cpu := lynxCmpReg v c c.x
def lynxCpy : Cpu := lynxCmpReg v c c.y

def lynxAluInc : Byte × Cpu := (v + 1, lynxSetNz (v + 1) c)
def lynxAluDec : Byte × Cpu := (v - 1, lynxSetNz (v - 1) c)
def lynxAluAsl : Byte × Cpu := (v <<< 1, lynxSetNz (v <<< 1) { c with c := (v >>> 7) &&& 1 })
def lynxAluLsr : Byte × Cpu := (v >>> 1, lynxSetNz (v >>> 1) { c with c := v &&& 1 })

def lynxAluRol : Byte × Cpu :=
  let r := v <<< 1 ||| c.c
  (r, lynxSetNz r { c with c := (v >>> 7) &&& 1 })

def lynxAluRor : Byte × Cpu :=
  let r := v >>> 1 ||| c.c <<< 7
  (r, lynxSetNz r { c with c := v &&& 1 })

def lynxAluTsb : Byte × Cpu := (v ||| c.a, { c with z := truth (c.a &&& v == 0) })
def lynxAluTrb : Byte × Cpu := (v &&& ~~~c.a, { c with z := truth (c.a &&& v == 0) })

end Value

section Register

variable (c : Cpu)

def lynxInx : Cpu := lynxSetNz (c.x + 1) { c with x := c.x + 1 }
def lynxIny : Cpu := lynxSetNz (c.y + 1) { c with y := c.y + 1 }
def lynxDex : Cpu := lynxSetNz (c.x - 1) { c with x := c.x - 1 }
def lynxDey : Cpu := lynxSetNz (c.y - 1) { c with y := c.y - 1 }
def lynxIncA : Cpu := lynxSetNz (c.a + 1) { c with a := c.a + 1 }
def lynxDecA : Cpu := lynxSetNz (c.a - 1) { c with a := c.a - 1 }

def lynxTax : Cpu := lynxSetNz c.a { c with x := c.a }
def lynxTay : Cpu := lynxSetNz c.a { c with y := c.a }
def lynxTxa : Cpu := lynxSetNz c.x { c with a := c.x }
def lynxTya : Cpu := lynxSetNz c.y { c with a := c.y }
def lynxTsx : Cpu := lynxSetNz c.s { c with x := c.s }
def lynxTxs : Cpu := { c with s := c.x }

end Register

/-- `1u << n`, as a byte. -/
def bitMask (n : Fin 8) : Byte := 1 <<< n.val

section Stack

def stackAddr (s : Byte) : Addr := 0x0100 + s.setWidth 16

theorem stackAddr_inj {s t : Byte} : stackAddr s = stackAddr t ↔ s = t := by
  unfold stackAddr
  constructor
  · intro same
    bv_omega
  · rintro rfl
    rfl

theorem stackAddr_lt (s : Byte) : stackAddr s < suzyBase := by
  unfold stackAddr suzyBase
  bv_omega

def lynxPush (v : Byte) (c : Cpu) : Code Cpu := do
  BusProgram.put (stackAddr c.s) v
  pure { c with s := c.s - 1 }

def lynxPull (c : Cpu) : Code (Byte × Cpu) := do
  let v ← BusProgram.get (stackAddr (c.s + 1))
  pure (v, { c with s := c.s + 1 })

def lynxPha (c : Cpu) : Code Cpu := lynxPush c.a c
def lynxPhx (c : Cpu) : Code Cpu := lynxPush c.x c
def lynxPhy (c : Cpu) : Code Cpu := lynxPush c.y c
def lynxPhp (c : Cpu) : Code Cpu := lynxPush (lynxPPack c) c

def lynxPla (c : Cpu) : Code Cpu := do
  let (v, c) ← lynxPull c
  pure (lynxSetNz v { c with a := v })

def lynxPlx (c : Cpu) : Code Cpu := do
  let (v, c) ← lynxPull c
  pure (lynxSetNz v { c with x := v })

def lynxPly (c : Cpu) : Code Cpu := do
  let (v, c) ← lynxPull c
  pure (lynxSetNz v { c with y := v })

def lynxPlp (c : Cpu) : Code Cpu := do
  let (v, c) ← lynxPull c
  pure (lynxPUnpack v c)

end Stack

section Helpers

/-- The helpers called as statements with a value. -/
inductive ValueHelper where
  | lda | ldx | ldy | ora | and | eor | adc | sbc | cmp | cpx | cpy | bit | bitImm
  deriving DecidableEq, Repr

def ValueHelper.run : ValueHelper → Byte → Cpu → Cpu
  | lda => lynxLda
  | ldx => lynxLdx
  | ldy => lynxLdy
  | ora => lynxOra
  | and => lynxAnd
  | eor => lynxEor
  | adc => lynxAdc
  | sbc => lynxSbc
  | cmp => lynxCmp
  | cpx => lynxCpx
  | cpy => lynxCpy
  | bit => lynxBit
  | bitImm => lynxBitImm

/-- The helpers that transform a value (the accumulator or a memory cell). -/
inductive AluHelper where
  | inc | dec | asl | lsr | rol | ror | tsb | trb
  deriving DecidableEq, Repr

def AluHelper.run : AluHelper → Byte → Cpu → Byte × Cpu
  | inc => lynxAluInc
  | dec => lynxAluDec
  | asl => lynxAluAsl
  | lsr => lynxAluLsr
  | rol => lynxAluRol
  | ror => lynxAluRor
  | tsb => lynxAluTsb
  | trb => lynxAluTrb

/-- The helpers without an argument that stay inside the CPU. -/
inductive RegHelper where
  | inx | iny | dex | dey | incA | decA | tax | tay | txa | tya | tsx | txs
  deriving DecidableEq, Repr

def RegHelper.run : RegHelper → Cpu → Cpu
  | inx => lynxInx
  | iny => lynxIny
  | dex => lynxDex
  | dey => lynxDey
  | incA => lynxIncA
  | decA => lynxDecA
  | tax => lynxTax
  | tay => lynxTay
  | txa => lynxTxa
  | tya => lynxTya
  | tsx => lynxTsx
  | txs => lynxTxs

/-- The helpers that push or pull a byte. -/
inductive StackHelper where
  | pha | phx | phy | php | pla | plx | ply | plp
  deriving DecidableEq, Repr

def StackHelper.run : StackHelper → Cpu → Code Cpu
  | pha => lynxPha
  | phx => lynxPhx
  | phy => lynxPhy
  | php => lynxPhp
  | pla => lynxPla
  | plx => lynxPlx
  | ply => lynxPly
  | plp => lynxPlp

/-- The flags that emitted code assigns directly. -/
inductive Flag where
  | c | i | d | v
  deriving DecidableEq, Repr

def Flag.assign (f : Flag) (b : Bool) (cpu : Cpu) : Cpu :=
  match f with
  | c => { cpu with c := truth b }
  | i => { cpu with i := truth b }
  | d => { cpu with d := truth b }
  | v => { cpu with v := truth b }

end Helpers

/-- Every flag holds 0 or 1, which all the helpers above keep and rely on. -/
structure Cpu.FlagsOk (c : Cpu) : Prop where
  n : c.n ≤ 1
  v : c.v ≤ 1
  d : c.d ≤ 1
  i : c.i ≤ 1
  z : c.z ≤ 1
  c : c.c ≤ 1

section Flags

theorem truth_le_one (b : Bool) : (truth b : Byte) ≤ 1 := by cases b <;> decide

theorem and_one_le_one (v : Byte) : v &&& 1 ≤ 1 := by
  simp only [BitVec.le_def, BitVec.toNat_and]
  exact Nat.and_le_right

theorem setWidth_and_one_le_one (v : Word) : (v &&& 1).setWidth 8 ≤ (1 : Byte) := by
  rw [BitVec.setWidth_and]
  exact and_one_le_one _

theorem lynxPUnpack_flagsOk (p : Byte) (c : Cpu) : (lynxPUnpack p c).FlagsOk := by
  constructor <;> exact truth_le_one _

variable {c : Cpu} (ok : c.FlagsOk) (v : Byte)

include ok

theorem lynxSetNz_flagsOk : (lynxSetNz v c).FlagsOk :=
  { ok with n := and_one_le_one _, z := truth_le_one _ }

theorem lynxAdc_flagsOk : (lynxAdc v c).FlagsOk := by
  simp only [lynxAdc]
  split <;> refine lynxSetNz_flagsOk ?_ _ <;>
    exact { ok with v := setWidth_and_one_le_one _, c := truth_le_one _ }

theorem lynxSbc_flagsOk : (lynxSbc v c).FlagsOk := by
  simp only [lynxSbc]
  split <;> refine lynxSetNz_flagsOk ?_ _ <;>
    exact { ok with v := setWidth_and_one_le_one _, c := truth_le_one _ }

theorem lynxCmpReg_flagsOk (reg : Byte) : (lynxCmpReg v c reg).FlagsOk := by
  refine lynxSetNz_flagsOk ?_ _
  exact { ok with c := truth_le_one _ }

theorem ValueHelper.run_flagsOk (h : ValueHelper) : (h.run v c).FlagsOk := by
  cases h with
  | adc => exact lynxAdc_flagsOk ok v
  | sbc => exact lynxSbc_flagsOk ok v
  | cmp | cpx | cpy => exact lynxCmpReg_flagsOk ok v _
  | bit => exact { ok with z := truth_le_one _, n := and_one_le_one _, v := and_one_le_one _ }
  | bitImm => exact { ok with z := truth_le_one _ }
  | lda | ldx | ldy | ora | and | eor => refine lynxSetNz_flagsOk ?_ _; exact { ok with }

theorem AluHelper.run_flagsOk (h : AluHelper) : (h.run v c).2.FlagsOk := by
  cases h with
  | inc | dec => exact lynxSetNz_flagsOk ok _
  | asl | lsr | rol | ror =>
    refine lynxSetNz_flagsOk ?_ _
    exact { ok with c := and_one_le_one _ }
  | tsb | trb => exact { ok with z := truth_le_one _ }

theorem RegHelper.run_flagsOk (h : RegHelper) : (h.run c).FlagsOk := by
  cases h with
  | txs => exact { ok with }
  | _ => refine lynxSetNz_flagsOk ?_ _; exact { ok with }

theorem Flag.assign_flagsOk (f : Flag) (b : Bool) : (f.assign b c).FlagsOk := by
  cases f
  · exact { ok with c := truth_le_one b }
  · exact { ok with i := truth_le_one b }
  · exact { ok with d := truth_le_one b }
  · exact { ok with v := truth_le_one b }

end Flags

end LynxRecomp
