import LynxRecomp.Runtime.Audio
import LynxRecomp.Runtime.Serial
import LynxRecomp.Runtime.Suzy

/-!
# Mikey registers and the address space

`mikey.c` routes its registers to the timers, the audio channels and the UART;
`mem.c` routes addresses to memory, Suzy and Mikey; `video.c` reads the picture out.
-/

namespace LynxRecomp

variable {η : Type}

def mikeyIntrst : Byte := 0x80
def mikeyIntset : Byte := 0x81
def mikeyDispadrl : Byte := 0x94
def mikeyDispadrh : Byte := 0x95
def mikeyPalgreen : Byte := 0xA0
def mikeyPalblurd : Byte := 0xB0

def lynxMikeyInit (hw : Hw η) : Hw η :=
  lynxSerialInit (lynxAudioInit (lynxTimerInit { hw with mikey := fun _ => 0 }))

def lynxMikeyRead (off : Byte) (hw : Hw η) : Byte × Hw η :=
  if off = mikeyIntrst ∨ off = mikeyIntset then (hw.timer.irqLatch, hw)
  else if off = mikeySerctl ∨ off = mikeySerdat then lynxSerialRead off hw
  else (hw.mikey off, hw)

/-- The audio channel whose shift-register bytes include offset `off`, if any. -/
def reseedChannel (off : Byte) : Option (Fin 4) :=
  if 0x20 ≤ off ∧ off ≤ 0x3F ∧ (off &&& 7 = 3 ∨ off &&& 7 = 7) then
    some (Fin.ofNat 4 ((off - 0x20) >>> 3).toNat)
  else none

def lynxMikeyWrite (hooks : Hooks η) (off val : Byte) (hw : Hw η) : Hw η :=
  let stored : Hw η := { hw with mikey := Function.update hw.mikey off val }
  if off = mikeyIntrst then lynxIrqAck val hw
  else if off = mikeyIntset then lynxIrqRaise val hw
  else if off = mikeyDispadrh then
    match hooks.frame with
    | some hook => hook stored
    | none => stored
  else if off = mikeySerctl ∨ off = mikeySerdat then lynxSerialWrite hooks off val stored
  else
    match reseedChannel off with
    | some c => lynxAudioReseed c stored
    | none => stored

/-- `(uint8_t)(addr - base)` for a 256-byte page of registers. -/
def regOff (addr base : Addr) : Byte := (addr - base).setWidth 8

def lynxMemRead (addr : Addr) (hw : Hw η) : Byte × Hw η :=
  if suzyBase ≤ addr ∧ addr < mikeyBase then (lynxSuzyRead (regOff addr suzyBase) hw, hw)
  else if mikeyBase ≤ addr ∧ addr < bootromBase then lynxMikeyRead (regOff addr mikeyBase) hw
  else (hw.ram addr, hw)

def lynxMemWrite (hooks : Hooks η) (addr : Addr) (val : Byte) (hw : Hw η) : Hw η :=
  if suzyBase ≤ addr ∧ addr < mikeyBase then lynxSuzyWrite (regOff addr suzyBase) val hw
  else if mikeyBase ≤ addr ∧ addr < bootromBase then
    lynxMikeyWrite hooks (regOff addr mikeyBase) val hw
  else { hw with ram := Function.update hw.ram addr val }

/-- The bus that recompiled code and `lynxrun`'s interpreter see. -/
def memBus (hooks : Hooks η) : Bus Addr Byte (Hw η) where
  read := lynxMemRead
  write := lynxMemWrite hooks

def lynxMemRead16 (addr : Addr) : BusProgram Addr Byte Addr := do
  let lo ← BusProgram.get addr
  let hi ← BusProgram.get (addr + 1)
  pure (word16 lo hi)

section Video

def exp4 (v : Byte) : Byte := (v &&& 0x0F) * 17

def lynxPaletteColor (index : Byte) (hw : Hw η) : Word :=
  let index := index &&& 0x0F
  let green := hw.mikey (mikeyPalgreen + index)
  let bluered := hw.mikey (mikeyPalblurd + index)
  let r := exp4 (bluered &&& 0x0F)
  let g := exp4 (green &&& 0x0F)
  let b := exp4 (bluered >>> 4)
  0xFF000000 ||| r.setWidth 32 <<< 16 ||| g.setWidth 32 <<< 8 ||| b.setWidth 32

/-- The colour of a pen as `0xAARRGGBB`: opaque, with red and blue the low and the high nibble of
`$FDB0 + pen` and green the low nibble of `$FDA0 + pen`, each times 17. -/
def paletteArgb (mikey : Byte → Byte) (pen : BitVec 4) : Nat :=
  let green := (mikey (0xA0 + pen.setWidth 8)).toNat
  let bluered := (mikey (0xB0 + pen.setWidth 8)).toNat
  0xFF000000 + 17 * (bluered % 16) * 0x10000 + 17 * (green % 16) * 0x100 + 17 * (bluered / 16)

theorem lowNibble_toNat (v : Byte) : (v &&& 0x0F).toNat = v.toNat % 16 :=
  Nat.and_two_pow_sub_one_eq_mod v.toNat 4

theorem exp4_toNat (v : Byte) : (exp4 v).toNat = 17 * (v.toNat % 16) := by
  have low := lowNibble_toNat v
  have small : v.toNat % 16 < 16 := Nat.mod_lt _ (by decide)
  rw [exp4, BitVec.toNat_mul, low]
  change v.toNat % 16 * 17 % 256 = _
  omega

theorem argb_toNat (r g b : Byte) :
    (0xFF000000 ||| r.setWidth 32 <<< 16 ||| g.setWidth 32 <<< 8 ||| b.setWidth 32 : Word).toNat =
      0xFF000000 + r.toNat * 0x10000 + g.toNat * 0x100 + b.toNat := by
  have alpha : ((0xFF000000 : Nat) : Word) = (0xFF : Byte).setWidth 32 <<< 24 := by decide
  have joined (a : Byte) : (a.setWidth 32 <<< 24 ||| r.setWidth 32 <<< 16 |||
      g.setWidth 32 <<< 8 ||| b.setWidth 32 : Word) = a ++ r ++ g ++ b := by
    ext i h
    simp
    grind
  rw [alpha, joined]
  simp only [BitVec.toNat_append]
  rw [← Nat.shiftLeft_add_eq_or_of_lt r.isLt, ← Nat.shiftLeft_add_eq_or_of_lt g.isLt,
    ← Nat.shiftLeft_add_eq_or_of_lt b.isLt]
  simp only [Nat.shiftLeft_eq]
  change ((0xFF * 256 + _) * 256 + _) * 256 + _ = _
  omega

/-- The palette gives the colour by the nibbles of its registers. -/
theorem lynxPaletteColor_toNat (pen : BitVec 4) (hw : Hw η) :
    (lynxPaletteColor (pen.setWidth 8) hw).toNat = paletteArgb hw.mikey pen := by
  have index : pen.setWidth 8 &&& (0x0F : Byte) = pen.setWidth 8 := by
    have small := pen.isLt
    apply BitVec.eq_of_toNat_eq
    rw [lowNibble_toNat, BitVec.toNat_setWidth]
    omega
  have high (v : Byte) : (v >>> 4).toNat = v.toNat / 16 := by
    rw [BitVec.toNat_ushiftRight, Nat.shiftRight_eq_div_pow]
  have top : (hw.mikey (mikeyPalblurd + pen.setWidth 8)).toNat / 16 < 16 := by
    have small := (hw.mikey (mikeyPalblurd + pen.setWidth 8)).isLt
    omega
  simp only [lynxPaletteColor, index, argb_toNat, exp4_toNat, lowNibble_toNat, high, Nat.mod_mod,
    Nat.mod_eq_of_lt top]
  rfl

/-- The picture: row, then column. -/
def lynxVideoRender (hw : Hw η) : Fin screenH → Fin screenW → Word := fun row col =>
  let base := word16 (hw.mikey mikeyDispadrl) (hw.mikey mikeyDispadrh)
  let line := base + BitVec.ofNat 16 (row.val * screenPitch)
  let byte := hw.ram (line + BitVec.ofNat 16 (col.val / 2))
  let pen := if col.val % 2 = 1 then byte &&& 0x0F else byte >>> 4
  lynxPaletteColor pen hw

end Video

section Bus

variable (hooks : Hooks η)

@[simp] theorem memBus_read (a : Addr) (hw : Hw η) : (memBus hooks).read a hw = lynxMemRead a hw :=
  rfl

@[simp] theorem memBus_write (a : Addr) (v : Byte) (hw : Hw η) :
    (memBus hooks).write a v hw = lynxMemWrite hooks a v hw := rfl

theorem lynxMemRead_ram {a : Addr} (h : a < suzyBase) (hw : Hw η) :
    lynxMemRead a hw = (hw.ram a, hw) := by
  unfold lynxMemRead suzyBase mikeyBase at *
  rw [if_neg (by bv_omega), if_neg (by bv_omega)]

theorem lynxMemWrite_ram {a : Addr} (h : a < suzyBase) (v : Byte) (hw : Hw η) :
    lynxMemWrite hooks a v hw = { hw with ram := Function.update hw.ram a v } := by
  unfold lynxMemWrite suzyBase mikeyBase at *
  rw [if_neg (by bv_omega), if_neg (by bv_omega)]

/-- Below Mikey a read changes nothing. -/
theorem lynxMemRead_below_mikey {a : Addr} (h : a < mikeyBase) (hw : Hw η) :
    (lynxMemRead a hw).2 = hw := by
  unfold lynxMemRead
  split
  · rfl
  · rw [if_neg (by simp only [mikeyBase] at *; bv_omega)]

end Bus

end LynxRecomp
