import LynxRecomp.Recompiler.Decode
import LynxRecomp.Runtime.Cpu

/-!
# The interpreter core

`interp.c`. An instruction is a program over the bus that the embedding tool provides.
The flags are C `int`s, unlike those of `lynx_cpu_t`.
-/

namespace LynxRecomp

/-- `interp_cpu_t` -/
structure InterpCpu where
  a : Byte
  x : Byte
  y : Byte
  s : Byte
  pc : Addr
  n : Word
  v : Word
  d : Word
  i : Word
  z : Word
  c : Word
  deriving DecidableEq, Repr

/-- `interp_event` and `interp_event_addr` -/
inductive InterpEvent where
  | none
  | indjmp (addr : Addr)
  | halt
  deriving DecidableEq, Repr

/-- What executing an instruction leaves: the CPU, the next PC and the event. -/
structure InterpResult where
  cpu : InterpCpu
  next : Addr
  event : InterpEvent
  deriving DecidableEq, Repr

def interpRd16 (a : Addr) : Code Addr := do
  let lo ← BusProgram.get a
  let hi ← BusProgram.get (a + 1)
  pure (word16 lo hi)

section Operations

variable (v : Byte) (c : InterpCpu)

def interpSetnz : InterpCpu :=
  { c with z := truth (v == 0), n := ((v >>> 7) &&& 1).setWidth 32 }

def opAdc : InterpCpu :=
  let a : Word := c.a.setWidth 32
  let w : Word := v.setWidth 32
  if c.d = 0 then
    let s0 := a + w + c.c
    interpSetnz (s0.setWidth 8)
      { c with
        v := ((~~~(a ^^^ w) &&& (a ^^^ s0)) >>> 7) &&& 1
        c := truth (decide (s0 > 0xFF))
        a := s0.setWidth 8 }
  else
    let lo := (a &&& 15) + (w &&& 15) + c.c
    let hi := (a >>> 4) + (w >>> 4)
    let (lo, hi) := if lo > 9 then (lo + 6, hi + 1) else (lo, hi)
    let bin := a + w + c.c
    let hi := if hi > 9 then hi + 6 else hi
    let r := (hi <<< 4 ||| (lo &&& 15)).setWidth 8
    interpSetnz r
      { c with
        v := ((~~~(a ^^^ w) &&& (a ^^^ bin)) >>> 7) &&& 1
        c := truth (decide (hi > 15))
        a := r }

def opSbc : InterpCpu :=
  let a : Word := c.a.setWidth 32
  let w : Word := v.setWidth 32
  let d0 := a - w - (1 - c.c)
  if c.d = 0 then
    interpSetnz (d0.setWidth 8)
      { c with
        v := (((a ^^^ w) &&& (a ^^^ d0)) >>> 7) &&& 1
        c := truth (decide (d0 < 0x100))
        a := d0.setWidth 8 }
  else
    let lo := (a &&& 15) - (w &&& 15) - (1 - c.c)
    let hi := (a >>> 4) - (w >>> 4)
    let (lo, hi) := if lo.slt 0 then (lo - 6, hi - 1) else (lo, hi)
    let hi := if hi.slt 0 then hi - 6 else hi
    let r := (hi <<< 4 ||| (lo &&& 15)).setWidth 8
    interpSetnz r
      { c with
        v := (((a ^^^ w) &&& (a ^^^ d0)) >>> 7) &&& 1
        c := truth (decide (d0 < 0x100))
        a := r }

def interpCmp (r : Byte) : InterpCpu :=
  interpSetnz (r - v) { c with c := truth (decide (r ≥ v)) }

def opAsl : Byte × InterpCpu :=
  (v <<< 1, interpSetnz (v <<< 1) { c with c := ((v >>> 7) &&& 1).setWidth 32 })

def opLsr : Byte × InterpCpu :=
  (v >>> 1, interpSetnz (v >>> 1) { c with c := (v &&& 1).setWidth 32 })

def opRol : Byte × InterpCpu :=
  let r := v <<< 1 ||| c.c.setWidth 8
  (r, interpSetnz r { c with c := ((v >>> 7) &&& 1).setWidth 32 })

def opRor : Byte × InterpCpu :=
  let r := v >>> 1 ||| (c.c <<< 7).setWidth 8
  (r, interpSetnz r { c with c := (v &&& 1).setWidth 32 })

def packP : Byte :=
  (c.n <<< 7 ||| c.v <<< 6 ||| 0x30 ||| c.d <<< 3 ||| c.i <<< 2 ||| c.z <<< 1 ||| c.c).setWidth 8

def unpackP (p : Byte) : InterpCpu :=
  { c with
    n := ((p >>> 7) &&& 1).setWidth 32, v := ((p >>> 6) &&& 1).setWidth 32
    d := ((p >>> 3) &&& 1).setWidth 32, i := ((p >>> 2) &&& 1).setWidth 32
    z := ((p >>> 1) &&& 1).setWidth 32, c := (p &&& 1).setWidth 32 }

end Operations

def interpPush (v : Byte) (c : InterpCpu) : Code InterpCpu := do
  BusProgram.put (stackAddr c.s) v
  pure { c with s := c.s - 1 }

def interpPull (c : InterpCpu) : Code (Byte × InterpCpu) := do
  let v ← BusProgram.get (stackAddr (c.s + 1))
  pure (v, { c with s := c.s + 1 })

/-- A zero-page pointer, as `ea` reads it. -/
def interpZpPtr (p : Byte) : Code Addr := do
  let lo ← BusProgram.get (p.setWidth 16)
  let hi ← BusProgram.get ((p + 1).setWidth 16)
  pure (word16 lo hi)

/-- `ea` -/
def interpEa (i : Insn) (c : InterpCpu) : Code Addr :=
  match i.mode with
  | .zp => pure i.operand
  | .zpx => pure ((i.operand.setWidth 8 + c.x).setWidth 16)
  | .zpy => pure ((i.operand.setWidth 8 + c.y).setWidth 16)
  | .abs => pure i.operand
  | .abx => pure (i.operand + c.x.setWidth 16)
  | .aby => pure (i.operand + c.y.setWidth 16)
  | .izx => interpZpPtr (i.operand.setWidth 8 + c.x)
  | .izy => do pure ((← interpZpPtr (i.operand.setWidth 8)) + c.y.setWidth 16)
  | .izp => interpZpPtr (i.operand.setWidth 8)
  | _ => pure 0

/-- `rdval` -/
def interpRdval (i : Insn) (c : InterpCpu) : Code Byte :=
  if i.mode = .imm then pure (i.operand.setWidth 8)
  else do BusProgram.get (← interpEa i c)

section Step

variable (i : Insn) (c : InterpCpu)

/-- An instruction that goes on with the next one. -/
def goesOn (c : InterpCpu) : InterpResult := { cpu := c, next := i.next, event := .none }

/-- An instruction that works on the value of its operand. -/
def onValue (f : Byte → InterpCpu → InterpCpu) : Code InterpResult := do
  let v ← interpRdval i c
  pure (goesOn i (f v c))

def storeValue (v : Byte) : Code InterpResult := do
  let e ← interpEa i c
  BusProgram.put e v
  pure (goesOn i c)

/-- A read-modify-write instruction. -/
def onCell (f : Byte → InterpCpu → Byte × InterpCpu) : Code InterpResult := do
  let e ← interpEa i c
  let v ← BusProgram.get e
  BusProgram.put e (f v c).1
  pure (goesOn i (f v c).2)

/-- A shift: on the accumulator or on memory. -/
def onAccOrCell (f : Byte → InterpCpu → Byte × InterpCpu) : Code InterpResult :=
  if i.mode = .acc then pure (goesOn i { (f c.a c).2 with a := (f c.a c).1 }) else onCell i c f

/-- A zero-page cell with some bits changed. -/
def onZp (f : Byte → Byte) : Code InterpResult := do
  let z := (i.operand.setWidth 8).setWidth 16
  let v ← BusProgram.get z
  BusProgram.put z (f v)
  pure (goesOn i c)

/-- `BR` -/
def branchIf (taken : Bool) : InterpResult :=
  { cpu := c, next := if taken then i.target else i.next, event := .none }

/-- A branch on a bit of a zero-page cell. -/
def branchOnBit (n : Fin 8) (set : Bool) : Code InterpResult := do
  let v ← BusProgram.get ((i.operand.setWidth 8).setWidth 16)
  pure (branchIf i c ((v &&& bitMask n != 0) == set))

def pushValue (v : Byte) : Code InterpResult := do pure (goesOn i (← interpPush v c))

def onPulled (f : Byte → InterpCpu → InterpCpu) : Code InterpResult := do
  let (v, c) ← interpPull c
  pure (goesOn i (f v c))

/-- The instruction between the fetch and `PC = next`. Every mnemonic has its case. -/
def interpExec : Code InterpResult :=
  match i.mnemonic with
  | .lda => onValue i c fun v c => interpSetnz v { c with a := v }
  | .ldx => onValue i c fun v c => interpSetnz v { c with x := v }
  | .ldy => onValue i c fun v c => interpSetnz v { c with y := v }
  | .sta => storeValue i c c.a
  | .stx => storeValue i c c.x
  | .sty => storeValue i c c.y
  | .stz => storeValue i c 0
  | .ora => onValue i c fun v c => interpSetnz (c.a ||| v) { c with a := c.a ||| v }
  | .and => onValue i c fun v c => interpSetnz (c.a &&& v) { c with a := c.a &&& v }
  | .eor => onValue i c fun v c => interpSetnz (c.a ^^^ v) { c with a := c.a ^^^ v }
  | .adc => onValue i c opAdc
  | .sbc => onValue i c opSbc
  | .cmp => onValue i c fun v c => interpCmp v c c.a
  | .cpx => onValue i c fun v c => interpCmp v c c.x
  | .cpy => onValue i c fun v c => interpCmp v c c.y
  | .bit => onValue i c fun v c =>
      let c := { c with z := truth (c.a &&& v == 0) }
      if i.mode = .imm then c
      else { c with n := ((v >>> 7) &&& 1).setWidth 32, v := ((v >>> 6) &&& 1).setWidth 32 }
  | .inc => onAccOrCell i c fun v c => (v + 1, interpSetnz (v + 1) c)
  | .dec => onAccOrCell i c fun v c => (v - 1, interpSetnz (v - 1) c)
  | .asl => onAccOrCell i c opAsl
  | .lsr => onAccOrCell i c opLsr
  | .rol => onAccOrCell i c opRol
  | .ror => onAccOrCell i c opRor
  | .tsb => onCell i c fun v c => (v ||| c.a, { c with z := truth (c.a &&& v == 0) })
  | .trb => onCell i c fun v c => (v &&& ~~~c.a, { c with z := truth (c.a &&& v == 0) })
  | .rmb n => onZp i c fun v => v &&& ~~~bitMask n
  | .smb n => onZp i c fun v => v ||| bitMask n
  | .bbr n => branchOnBit i c n false
  | .bbs n => branchOnBit i c n true
  | .inx => pure (goesOn i (interpSetnz (c.x + 1) { c with x := c.x + 1 }))
  | .iny => pure (goesOn i (interpSetnz (c.y + 1) { c with y := c.y + 1 }))
  | .dex => pure (goesOn i (interpSetnz (c.x - 1) { c with x := c.x - 1 }))
  | .dey => pure (goesOn i (interpSetnz (c.y - 1) { c with y := c.y - 1 }))
  | .tax => pure (goesOn i (interpSetnz c.a { c with x := c.a }))
  | .tay => pure (goesOn i (interpSetnz c.a { c with y := c.a }))
  | .txa => pure (goesOn i (interpSetnz c.x { c with a := c.x }))
  | .tya => pure (goesOn i (interpSetnz c.y { c with a := c.y }))
  | .tsx => pure (goesOn i (interpSetnz c.s { c with x := c.s }))
  | .txs => pure (goesOn i { c with s := c.x })
  | .clc => pure (goesOn i { c with c := 0 })
  | .sec => pure (goesOn i { c with c := 1 })
  | .cli => pure (goesOn i { c with i := 0 })
  | .sei => pure (goesOn i { c with i := 1 })
  | .cld => pure (goesOn i { c with d := 0 })
  | .sed => pure (goesOn i { c with d := 1 })
  | .clv => pure (goesOn i { c with v := 0 })
  | .pha => pushValue i c c.a
  | .phx => pushValue i c c.x
  | .phy => pushValue i c c.y
  | .php => pushValue i c (packP c ||| 0x10)
  | .pla => onPulled i c fun v c => interpSetnz v { c with a := v }
  | .plx => onPulled i c fun v c => interpSetnz v { c with x := v }
  | .ply => onPulled i c fun v c => interpSetnz v { c with y := v }
  | .plp => onPulled i c fun v c => unpackP c v
  | .bpl => pure (branchIf i c (c.n == 0))
  | .bmi => pure (branchIf i c (c.n != 0))
  | .bvc => pure (branchIf i c (c.v == 0))
  | .bvs => pure (branchIf i c (c.v != 0))
  | .bcc => pure (branchIf i c (c.c == 0))
  | .bcs => pure (branchIf i c (c.c != 0))
  | .bne => pure (branchIf i c (c.z == 0))
  | .beq => pure (branchIf i c (c.z != 0))
  | .bra => pure { cpu := c, next := i.target, event := .none }
  | .nop => pure (goesOn i c)
  | .jmp =>
    if i.mode = .ind then do
      let next ← interpRd16 i.operand
      pure { cpu := c, next := next, event := .indjmp next }
    else if i.mode = .iax then do
      let next ← interpRd16 (i.operand + c.x.setWidth 16)
      pure { cpu := c, next := next, event := .indjmp next }
    else pure { cpu := c, next := i.operand, event := .none }
  | .jsr => do
    let r := i.pc + 2
    let c ← interpPush ((r >>> 8).setWidth 8) c
    let c ← interpPush (r.setWidth 8) c
    pure { cpu := c, next := i.operand, event := .none }
  | .rts => do
    let (lo, c) ← interpPull c
    let (hi, c) ← interpPull c
    pure { cpu := c, next := word16 lo hi + 1, event := .none }
  | .rti => do
    let (p, c) ← interpPull c
    let (lo, c) ← interpPull (unpackP c p)
    let (hi, c) ← interpPull c
    pure { cpu := c, next := word16 lo hi, event := .none }
  | .brk => do
    let r := i.pc + 2
    let c ← interpPush ((r >>> 8).setWidth 8) c
    let c ← interpPush (r.setWidth 8) c
    let c ← interpPush (packP c ||| 0x10) c
    let next ← interpRd16 vecIrq
    pure { cpu := { c with i := 1, d := 0 }, next := next, event := .none }
  | .wai | .stp => pure { cpu := c, next := i.next, event := .halt }

end Step

/-- The three bytes at the PC, decoded. -/
def interpFetch (pc : Addr) : Code Insn := do
  let m0 ← BusProgram.get pc
  let m1 ← BusProgram.get (pc + 1)
  let m2 ← BusProgram.get (pc + 2)
  pure (m65c02Decode m0 m1 m2 pc)

def interpStep (c : InterpCpu) : Code (InterpCpu × InterpEvent) := do
  let i ← interpFetch c.pc
  let r ← interpExec i c
  pure ({ r.cpu with pc := r.next }, r.event)

end LynxRecomp
