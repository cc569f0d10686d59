import LynxRecomp.Lib.Layout
import LynxRecomp.Runtime.Exec

/-!
# Save states

`state.c` with the sections of `timer.c`, `audio.c` and `serial.c`. A section that is
copied with `memcpy` has the layout of the object it copies (little-endian integers,
`int` aligned to four bytes).
-/

namespace LynxRecomp

variable {η : Type}

section Layouts

def u8 : Layout Byte Byte := .cell

def u16 : Layout Byte Addr :=
  (u8.pair u8).as (fun b => word16 b.1 b.2) (fun w => (w.setWidth 8, (w >>> 8).setWidth 8))
    word16_split

def u32 : Layout Byte Word :=
  (u8.pair (u8.pair (u8.pair u8))).as word32
    (fun w => (w.setWidth 8, (w >>> 8).setWidth 8, (w >>> 16).setWidth 8, (w >>> 24).setWidth 8))
    word32_split

/-- An array indexed by an integer type of `w` bits. -/
def bytes (w : Nat) : Layout Byte (BitVec w → Byte) :=
  (Layout.array (2 ^ w) u8).as (fun f a => f a.toFin) (fun m i => m (.ofFin i)) fun _ => rfl

def ramLayout : Layout Byte (Addr → Byte) := bytes 16

def cpuLayout : Layout Byte Cpu :=
  (u8.pair (u8.pair (u8.pair (u8.pair (u16.pair
    (u8.pair (u8.pair (u8.pair (u8.pair (u8.pair u8)))))))))).as
    (fun (a, x, y, s, pc, n, v, d, i, z, c) => ⟨a, x, y, s, pc, n, v, d, i, z, c⟩)
    (fun c => (c.a, c.x, c.y, c.s, c.pc, c.n, c.v, c.d, c.i, c.z, c.c)) fun _ => rfl

def suzyLayout : Layout Byte Suzy :=
  ((bytes 8).pair u32).as (fun (reg, busy) => ⟨reg, busy⟩) (fun s => (s.reg, s.busy)) fun _ => rfl

def mikeyLayout : Layout Byte (Byte → Byte) := bytes 8

def timerLayout : Layout Byte Timer :=
  ((Layout.array 8 u32).pair u8).as (fun (phase, latch) => ⟨phase, latch⟩)
    (fun t => (t.phase, t.irqLatch)) fun _ => rfl

def audChLayout : Layout Byte AudCh :=
  (u16.pair (u16.pair (u32.pair u32))).as (fun (lfsr, pad, dac, phase) => ⟨lfsr, pad, dac, phase⟩)
    (fun c => (c.lfsr, c.pad, c.dac, c.phase)) fun _ => rfl

def audioLayout : Layout Byte (Fin 4 → AudCh) := Layout.array 4 audChLayout

def serialLayout : Layout Byte Serial :=
  (u8.pair (u8.pair (u16.pair (u16.pair (Layout.array rxFifoSize u8))))).as
    (fun (ctrl, err, head, tail, fifo) => ⟨ctrl, err, fifo, head, tail⟩)
    (fun s => (s.ctrl, s.statusErr, s.rxHead, s.rxTail, s.rxFifo)) fun _ => rfl

end Layouts

/-- `"LYNXSAVE"` -/
def stateMagic : List Byte := [0x4C, 0x59, 0x4E, 0x58, 0x53, 0x41, 0x56, 0x45]
def stateVersion : Byte := 2
def stateHeader : List Byte := stateMagic ++ [stateVersion, 0, 0, 0]
def hdr : Nat := 12

/-- `sizeof(lynx_ram)` and so on, in the order of the sections. -/
def lynxStateSize : Nat :=
  hdr + ramLayout.size + cpuLayout.size + suzyLayout.size + mikeyLayout.size
    + timerLayout.size + audioLayout.size + serialLayout.size

/-- The number of bytes written and the bytes themselves. -/
def lynxStateSave (m : Machine η) (cap : Nat) : Nat × List Byte :=
  if cap < lynxStateSize then (0, [])
  else
    let buf := stateHeader ++ ramLayout.enc m.hw.ram ++ cpuLayout.enc m.cpu
      ++ suzyLayout.enc m.hw.suzy ++ mikeyLayout.enc m.hw.mikey ++ timerLayout.enc m.hw.timer
      ++ audioLayout.enc m.hw.audio ++ serialLayout.enc m.hw.serial
    (buf.length, buf)

/-- `buf` as a pointer; past its end it reads 0, which the size check keeps from happening. -/
def bufPtr (buf : List Byte) : Nat → Byte := fun i => buf.getD i 0

/-- The header check of `lynx_state_load`. -/
def stateAccepted (buf : List Byte) : Bool :=
  decide (lynxStateSize ≤ buf.length) && (buf.take 8 == stateMagic && bufPtr buf 8 == stateVersion)

/-- The sections of `lynx_state_load`, read one after the other from `p`. -/
def loadSections (p : Nat → Byte) (m : Machine η) : Machine η :=
  let pCpu := Layout.advance ramLayout.size p
  let pSuzy := Layout.advance cpuLayout.size pCpu
  let pMikey := Layout.advance suzyLayout.size pSuzy
  let pTimer := Layout.advance mikeyLayout.size pMikey
  let pAudio := Layout.advance timerLayout.size pTimer
  let pSerial := Layout.advance audioLayout.size pAudio
  { cpu := cpuLayout.dec pCpu
    hw := { m.hw with
      ram := ramLayout.dec p, suzy := suzyLayout.dec pSuzy, mikey := mikeyLayout.dec pMikey
      timer := timerLayout.dec pTimer, audio := audioLayout.dec pAudio
      serial := serialLayout.dec pSerial } }

def lynxStateLoad (buf : List Byte) (m : Machine η) : Int × Machine η :=
  if stateAccepted buf then (0, loadSections (Layout.advance hdr (bufPtr buf)) m) else (-1, m)

section Sizes

@[simp] theorem ramLayout_size : ramLayout.size = 65536 := rfl
@[simp] theorem cpuLayout_size : cpuLayout.size = 12 := rfl
@[simp] theorem suzyLayout_size : suzyLayout.size = 260 := rfl
@[simp] theorem mikeyLayout_size : mikeyLayout.size = 256 := rfl
@[simp] theorem timerLayout_size : timerLayout.size = 33 := rfl
@[simp] theorem audioLayout_size : audioLayout.size = 48 := rfl
@[simp] theorem serialLayout_size : serialLayout.size = 262 := rfl

theorem lynxStateSize_eq : lynxStateSize = 66419 := by simp [lynxStateSize, hdr]

end Sizes

/-- `m` with the host of `t`: what a save state carries from one machine to another. -/
def Machine.withHost (m : Machine η) (host : Host η) : Machine η :=
  { m with hw := { m.hw with host := host } }

theorem lynxStateSave_length {m : Machine η} {cap : Nat} (room : lynxStateSize ≤ cap) :
    (lynxStateSave m cap).2.length = lynxStateSize ∧ (lynxStateSave m cap).1 = lynxStateSize := by
  have total : (lynxStateSave m cap).2.length = lynxStateSize := by
    rw [lynxStateSave, if_neg (by omega)]
    simp [lynxStateSize, stateHeader, stateMagic, hdr]
  refine ⟨total, ?_⟩
  rw [← total, lynxStateSave, if_neg (by omega)]

/-- The sections of a saved machine, read back in order, are its components. -/
theorem loadSections_saved (s t : Machine η) {p : Nat → Byte}
    (h : Layout.At p (ramLayout.enc s.hw.ram ++ cpuLayout.enc s.cpu ++ suzyLayout.enc s.hw.suzy
      ++ mikeyLayout.enc s.hw.mikey ++ timerLayout.enc s.hw.timer ++ audioLayout.enc s.hw.audio
      ++ serialLayout.enc s.hw.serial)) :
    loadSections p t = s.withHost t.hw.host := by
  simp only [List.append_assoc, Layout.at_append, Layout.length_enc] at h
  obtain ⟨ram, cpu, suzy, mikey, timer, audio, serial⟩ := h
  simp only [loadSections, ramLayout.dec_enc _ _ ram, cpuLayout.dec_enc _ _ cpu,
    suzyLayout.dec_enc _ _ suzy, mikeyLayout.dec_enc _ _ mikey, timerLayout.dec_enc _ _ timer,
    audioLayout.dec_enc _ _ audio, serialLayout.dec_enc _ _ serial, Machine.withHost]

/-- Loading what was saved gives the saved machine, on the loading machine's host. -/
theorem lynxStateLoad_save (s t : Machine η) {cap : Nat} (room : lynxStateSize ≤ cap)
    (trailing : List Byte) :
    lynxStateLoad ((lynxStateSave s cap).2 ++ trailing) t = (0, s.withHost t.hw.host) := by
  have saved := Layout.at_getD (lynxStateSave s cap).2 trailing 0
  have size := (lynxStateSave_length (m := s) room).1
  have accepted : stateAccepted ((lynxStateSave s cap).2 ++ trailing) = true := by
    have long : lynxStateSize ≤ ((lynxStateSave s cap).2 ++ trailing).length := by simp [size]
    simp only [stateAccepted, long, decide_true, Bool.true_and]
    rw [lynxStateSave, if_neg (by omega)]
    simp [stateHeader, stateMagic, stateVersion, bufPtr]
  rw [lynxStateLoad, if_pos accepted, Prod.mk.injEq]
  refine ⟨rfl, loadSections_saved s t ?_⟩
  rw [lynxStateSave, if_neg (by omega)] at saved ⊢
  simp only [List.append_assoc] at saved ⊢
  exact (Layout.at_append.mp saved).2

end LynxRecomp
