import LynxRecomp.Lib.BusProgram
import LynxRecomp.Runtime.Hardware

/-!
# Suzy: sprite blitter and math unit

`suzy.c`. The blitter is a DMA engine: it reads control blocks and sprite data and
writes the video buffer in `lynx_ram` itself, so it is a program over plain memory.
Its loops are driven by the bytes they read and bounded by the guard counters and
by the bits left in a line.
-/

namespace LynxRecomp

variable {η : Type}

def screenW : Nat := 160
def screenH : Nat := 102
def screenPitch : Nat := screenW / 2

def suzyHoffl : Byte := 0x04
def suzyVoffl : Byte := 0x06
def suzyVidbasl : Byte := 0x08
def suzyScbnextl : Byte := 0x10
def suzyMathd : Byte := 0x52
def suzyMathc : Byte := 0x53
def suzyMathb : Byte := 0x54
def suzyMatha : Byte := 0x55
def suzyMathp : Byte := 0x56
def suzyMathn : Byte := 0x57
def suzyMathh : Byte := 0x60
def suzyMathe : Byte := 0x63
def suzyMathm : Byte := 0x6C
def suzySprgo : Byte := 0x91
def suzySprsys : Byte := 0x92
def suzyJoystick : Byte := 0xB0
def suzySwitches : Byte := 0xB1

abbrev Dma := BusProgram Addr Byte

def dramRd (a : Addr) : Dma Byte := BusProgram.get a
def dramWr (a : Addr) (v : Byte) : Dma Unit := BusProgram.put a v

def sreg16 (s : Suzy) (off : Byte) : Addr := word16 (s.reg off) (s.reg (off + 1))

/-- A little-endian word of an SCB, as the signed or unsigned 16-bit field it holds. -/
def dramRd16 (a : Addr) : Dma Addr := do
  let lo ← dramRd a
  let hi ← dramRd (a + 1)
  pure (word16 lo hi)

/-- `bitr_t`: the most significant bit of a byte comes first. -/
structure Bitr where
  addr : Addr
  bit : Nat

/-- `bits_get`: append `n` bits to `v`. -/
def bitsGetFrom : Nat → Word → Bitr → Dma (Word × Bitr)
  | 0, v, b => pure (v, b)
  | n + 1, v, b => do
    let byte ← dramRd b.addr
    let v := v <<< 1 ||| (byte.setWidth 32 >>> (7 - b.bit)) &&& 1
    if b.bit + 1 = 8 then bitsGetFrom n v { addr := b.addr + 1, bit := 0 }
    else bitsGetFrom n v { b with bit := b.bit + 1 }

def bitsGet (b : Bitr) (n : Nat) : Dma (Word × Bitr) := bitsGetFrom n 0 b

/-- The pens that a sprite type leaves undrawn. -/
def transparent (pen : Byte) (type : Nat) : Bool :=
  decide (type > 1) && (pen == 0x00 || type == 3 && pen == 0x0F ||
    type == 5 && (pen == 0x0E || pen == 0x0F))

def onScreen (x y : Int) : Bool :=
  decide (0 ≤ x ∧ x < screenW ∧ 0 ≤ y ∧ y < screenH)

/-- The byte of the video buffer that holds pixel `(x, y)`. -/
def pixelAddr (vidbas : Addr) (x y : Int) : Addr :=
  BitVec.ofInt 16 (vidbas.toNat + y * screenPitch + x / 2)

/-- A byte of two pixels with the left (even) or right pixel combined with `pen`. -/
def mixPixel (cur pen : Byte) (type : Nat) (odd : Bool) : Byte :=
  let old := if odd then cur &&& 0x0F else cur >>> 4
  let nw := if type = 7 then old ^^^ pen else pen
  if odd then cur &&& 0xF0 ||| nw &&& 0x0F else cur &&& 0x0F ||| nw <<< 4

def blitPixel (vidbas : Addr) (x y : Int) (pen : Byte) (type : Nat) : Dma Unit :=
  if transparent pen type then pure ()
  else if !onScreen x y then pure ()
  else do
    let a := pixelAddr vidbas x y
    let cur ← dramRd a
    dramWr a (mixPixel cur pen type (x % 2 == 1))

/-- What stays fixed while one line of a sprite is drawn. -/
structure Line where
  vidbas : Addr
  sx : Int
  y : Int
  hflip : Bool
  bpp : Nat
  type : Nat
  pen : Fin 16 → Byte

/-- `pen[v & 15]` -/
def Line.penOf (l : Line) (v : Word) : Byte :=
  l.pen ⟨(v &&& 15).toNat % 16, Nat.mod_lt _ (by decide)⟩

def Line.plot (l : Line) (col : Int) (px : Byte) : Dma Unit :=
  blitPixel l.vidbas (if l.hflip then l.sx - col else l.sx + col) l.y px l.type

/-- Totally literal line: raw pixels while a whole pen index is left. -/
def Line.literal (l : Line) : Nat → Int → Int → Bitr → Dma Unit
  | 0, _, _, _ => pure ()
  | fuel + 1, lineBits, col, br =>
    if lineBits < l.bpp then pure ()
    else do
      let (v, br) ← bitsGet br l.bpp
      l.plot col (l.penOf v)
      l.literal fuel (lineBits - l.bpp) (col + 1) br

/-- The pixels of a literal packet; returns the bits left, the column and the reader. -/
def Line.literalRun (l : Line) : Nat → Int → Int → Bitr → Dma (Int × Int × Bitr)
  | 0, lineBits, col, br => pure (lineBits, col, br)
  | cnt + 1, lineBits, col, br =>
    if lineBits < l.bpp then pure (lineBits, col, br)
    else do
      let (v, br) ← bitsGet br l.bpp
      l.plot col (l.penOf v)
      l.literalRun cnt (lineBits - l.bpp) (col + 1) br

/-- `n` copies of one pixel; returns the column. -/
def Line.copies (l : Line) (px : Byte) : Nat → Int → Dma Int
  | 0, col => pure col
  | n + 1, col => do
    l.plot col px
    l.copies px n (col + 1)

/-- Packed line: packets while bits are left. Each takes at least its flag bit. -/
def Line.packed (l : Line) : Nat → Int → Int → Bitr → Dma Unit
  | 0, _, _, _ => pure ()
  | fuel + 1, lineBits, col, br =>
    if lineBits ≤ 0 then pure ()
    else do
      let (isLit, br) ← bitsGet br 1
      let lineBits := lineBits - 1
      if isLit ≠ 0 then
        let (cnt, br) ← bitsGet br 4
        let (lineBits, col, br) ← l.literalRun (cnt.toNat + 1) (lineBits - 4) col br
        l.packed fuel lineBits col br
      else
        let (cnt, br) ← bitsGet br 4
        let lineBits := lineBits - 4
        if cnt = 0 then pure ()
        else if lineBits < l.bpp then pure ()
        else
          let (v, br) ← bitsGet br l.bpp
          let col ← l.copies (l.penOf v) (cnt.toNat + 1) col
          l.packed fuel (lineBits - l.bpp) col br

/-- One sprite line of `offset - 1` data bytes at `dp + 1`. -/
def Line.draw (l : Line) (literal : Bool) (offset : Byte) (dp : Addr) : Dma Unit :=
  let lineBits : Int := (offset.toNat - 1) * 8
  let br : Bitr := { addr := dp + 1, bit := 0 }
  if offset = 1 then pure ()
  else if literal then l.literal (lineBits.toNat + 1) lineBits 0 br
  else l.packed (lineBits.toNat + 1) lineBits 0 br

/-- The decoded control bytes and position of one SCB. -/
structure Sprite where
  vidbas : Addr
  sx : Int
  sy : Int
  bpp : Nat
  type : Nat
  hflip : Bool
  vflip : Bool
  literal : Bool
  pen : Fin 16 → Byte

/-- The line loop, `guard_lines` turns at most. -/
def Sprite.lines (s : Sprite) : Nat → Nat → Addr → Dma Unit
  | 0, _, _ => pure ()
  | fuel + 1, line, dp => do
    let offset ← dramRd dp
    if offset = 0 then pure ()
    else do
      let y := if s.vflip then s.sy - line else s.sy + line
      let l : Line := { vidbas := s.vidbas, sx := s.sx, y := y, hflip := s.hflip, bpp := s.bpp,
                        type := s.type, pen := s.pen }
      l.draw s.literal offset dp
      s.lines fuel (line + 1) (dp + offset.setWidth 16)

/-- Load the pen palette, two pens a byte from `f` on. -/
def loadPens : Nat → Nat → Addr → (Fin 16 → Byte) → Dma (Fin 16 → Byte)
  | 0, _, _, pen => pure pen
  | n + 1, i, f, pen => do
    let byte ← dramRd f
    let pen := Function.update pen (Fin.ofNat 16 i) (byte >>> 4)
    let pen := Function.update pen (Fin.ofNat 16 (i + 1)) (byte &&& 0x0F)
    loadPens n (i + 2) (f + 1) pen

/-- The SCB loop, `guard_sprites` turns at most. -/
def scbLoop (vidbas : Addr) (hoff voff : Int) : Nat → Addr → (Fin 16 → Byte) → Dma Unit
  | 0, _, _ => pure ()
  | fuel + 1, scb, pen =>
    if scb = 0 then pure ()
    else do
      let ctl0 ← dramRd scb
      let ctl1 ← dramRd (scb + 1)
      let next ← dramRd16 (scb + 3)
      let data ← dramRd16 (scb + 5)
      let hpos ← dramRd16 (scb + 7)
      let vpos ← dramRd16 (scb + 9)
      let bpp := ((ctl0 >>> 6) &&& 3).toNat + 1
      let reload := ((ctl1 >>> 4) &&& 3).toNat
      let f := scb + 11 + BitVec.ofNat 16 (reload * 2 * 2)
      let pen ← if ctl1 &&& 0x08 = 0 then loadPens (2 ^ bpp / 2) 0 f pen else pure pen
      let sprite : Sprite :=
        { vidbas := vidbas, sx := hpos.toInt - hoff, sy := vpos.toInt - voff, bpp := bpp,
          type := (ctl0 &&& 0x07).toNat, hflip := ctl0 &&& 0x20 != 0,
          vflip := ctl0 &&& 0x10 != 0, literal := ctl1 &&& 0x80 != 0, pen := pen }
      if ctl1 &&& 0x04 = 0 then sprite.lines (screenH * 2) 0 data else pure ()
      scbLoop vidbas hoff voff fuel next pen

/-- What `lynx_suzy_blit` does to memory. -/
def blitProgram (s : Suzy) : Dma Unit :=
  scbLoop (sreg16 s suzyVidbasl) (sreg16 s suzyHoffl).toInt (sreg16 s suzyVoffl).toInt 256
    (sreg16 s suzyScbnextl) (fun i => BitVec.ofNat 8 i.val)

def lynxSuzyBlit (hw : Hw η) : Hw η :=
  { hw with
    ram := ((blitProgram hw.suzy).run BusProgram.memory hw.ram).2
    suzy := { hw.suzy with busy := 0 } }

def lynxSuzyInit (hw : Hw η) : Hw η := { hw with suzy := { reg := fun _ => 0, busy := 0 } }

def lynxSuzyRead (off : Byte) (hw : Hw η) : Byte :=
  if off = suzyJoystick then hw.host.joystick
  else if off = suzySwitches then hw.host.switches
  else if off = suzySprsys then truth (hw.suzy.busy != 0)
  else if off = 0x88 then 0x01
  else hw.suzy.reg off

def put32 (loOff : Byte) (v : Word) (reg : Byte → Byte) : Byte → Byte :=
  let reg := Function.update reg loOff (v.setWidth 8)
  let reg := Function.update reg (loOff + 1) ((v >>> 8).setWidth 8)
  let reg := Function.update reg (loOff + 2) ((v >>> 16).setWidth 8)
  Function.update reg (loOff + 3) ((v >>> 24).setWidth 8)

def get32 (loOff : Byte) (reg : Byte → Byte) : Word :=
  (reg loOff).setWidth 32 ||| (reg (loOff + 1)).setWidth 32 <<< 8 |||
    (reg (loOff + 2)).setWidth 32 <<< 16 ||| (reg (loOff + 3)).setWidth 32 <<< 24

/-- Writing MATHA: `EFGH = AB * CD`. -/
def suzyMultiply (reg : Byte → Byte) : Byte → Byte :=
  let ab := word16 (reg suzyMathb) (reg suzyMatha)
  let cd := word16 (reg suzyMathd) (reg suzyMathc)
  put32 suzyMathh (ab.setWidth 32 * cd.setWidth 32) reg

/-- Writing MATHE: `ABCD = EFGH / NP`, `JKLM = EFGH % NP`. -/
def suzyDivide (reg : Byte → Byte) : Byte → Byte :=
  let efgh := get32 suzyMathh reg
  let np := word16 (reg suzyMathp) (reg suzyMathn)
  if np ≠ 0 then
    put32 suzyMathm (efgh % np.setWidth 32) (put32 suzyMathd (efgh / np.setWidth 32) reg)
  else put32 suzyMathm 0 (put32 suzyMathd 0xFFFFFFFF reg)

def lynxSuzyWrite (off val : Byte) (hw : Hw η) : Hw η :=
  let reg := Function.update hw.suzy.reg off val
  if off = suzySprgo then
    if val &&& 1 ≠ 0 then lynxSuzyBlit { hw with suzy := { reg := reg, busy := 1 } }
    else { hw with suzy := { hw.suzy with reg := reg } }
  else if off = suzyMatha then { hw with suzy := { hw.suzy with reg := suzyMultiply reg } }
  else if off = suzyMathe then { hw with suzy := { hw.suzy with reg := suzyDivide reg } }
  else { hw with suzy := { hw.suzy with reg := reg } }

end LynxRecomp
