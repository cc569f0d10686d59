import Mathlib.Data.BitVec
import Mathlib.Logic.Function.Basic

/-!
# Machine state

The global variables of the runtime, grouped by the module that owns them. The
host side (controls, link hook, and whatever the host program keeps for itself)
sits in a record of its own: it is neither saved nor restored by a save state.
-/

namespace LynxRecomp

variable {η : Type}

abbrev Byte := BitVec 8
abbrev Addr := BitVec 16
/-- C's `int`, `unsigned` and `uint32_t`. -/
abbrev Word := BitVec 32

instance neZero_four : NeZero 4 := ⟨by decide⟩
instance neZero_eight : NeZero 8 := ⟨by decide⟩
instance neZero_sixteen : NeZero 16 := ⟨by decide⟩
instance lawfulBEq_addr : LawfulBEq Addr := inferInstance

/-- The value of a C comparison, stored in an integer of any width. -/
def truth {w : Nat} (b : Bool) : BitVec w := if b then 1 else 0

@[simp] theorem truth_true {w : Nat} : (truth true : BitVec w) = 1 := rfl
@[simp] theorem truth_false {w : Nat} : (truth false : BitVec w) = 0 := rfl

/-- Two bytes as a little-endian 16-bit value, `lo | (hi << 8)`. -/
def word16 (lo hi : Byte) : Addr := lo.setWidth 16 ||| (hi.setWidth 16 <<< 8)

theorem word16_split (w : Addr) : word16 (w.setWidth 8) ((w >>> 8).setWidth 8) = w := by
  unfold word16
  ext i hi
  simp
  grind

theorem word16_low (lo hi : Byte) : (word16 lo hi).setWidth 8 = lo := by
  unfold word16
  ext i inside
  simp

theorem word16_high (lo hi : Byte) : (word16 lo hi >>> 8).setWidth 8 = hi := by
  unfold word16
  ext i inside
  simp
  grind

/-- Four bytes as a little-endian 32-bit value. -/
def word32 (b : Byte × Byte × Byte × Byte) : Word :=
  b.1.setWidth 32 ||| b.2.1.setWidth 32 <<< 8 ||| b.2.2.1.setWidth 32 <<< 16 |||
    b.2.2.2.setWidth 32 <<< 24

theorem word32_split (w : Word) :
    word32 (w.setWidth 8, (w >>> 8).setWidth 8, (w >>> 16).setWidth 8, (w >>> 24).setWidth 8) =
      w := by
  unfold word32
  ext i hi
  simp
  grind

/-- `lynx_cpu_t`: the flags are bytes of their own. -/
structure Cpu where
  a : Byte
  x : Byte
  y : Byte
  s : Byte
  pc : Addr
  n : Byte
  v : Byte
  d : Byte
  i : Byte
  z : Byte
  c : Byte
  deriving DecidableEq, Repr

/-- `lynx_suzy_t`. -/
structure Suzy where
  reg : Byte → Byte
  busy : Word

/-- `timer.c`: the phase accumulators and `lynx_irq_latch`. -/
structure Timer where
  phase : Fin 8 → Word
  irqLatch : Byte

/-- `aud_ch_t`. `pad` is the alignment gap before `dac`, which `memcpy` carries along. -/
structure AudCh where
  lfsr : BitVec 16
  pad : BitVec 16
  dac : Word
  phase : Word
  deriving DecidableEq, Repr

def rxFifoSize : Nat := 256

/-- The UART variables of `serial.c`. -/
structure Serial where
  ctrl : Byte
  statusErr : Byte
  rxFifo : Fin rxFifoSize → Byte
  rxHead : BitVec 16
  rxTail : BitVec 16

/-- What belongs to the host: `input.c`'s two bytes, whether `lynx_serial_tx_hook` is
set, `recomp_rt.c`'s record for the host of the last transfer and opcode that nothing
handled, and the host program's own state. -/
structure Host (η : Type) where
  joystick : Byte
  switches : Byte
  txHook : Bool
  lastExtAddr : Addr
  lastUnimpl : Byte
  own : η

/-- Everything behind the bus: memory, peripherals and host. -/
structure Hw (η : Type) where
  ram : Addr → Byte
  suzy : Suzy
  mikey : Byte → Byte
  timer : Timer
  audio : Fin 4 → AudCh
  serial : Serial
  host : Host η

def Hw.setOwn (own : η) (hw : Hw η) : Hw η := { hw with host := { hw.host with own := own } }

@[simp] theorem Hw.setOwn_serial (own : η) (hw : Hw η) : (hw.setOwn own).serial = hw.serial := rfl

@[simp] theorem Hw.setOwn_own (own : η) (hw : Hw η) : (hw.setOwn own).host.own = own := rfl

@[simp] theorem Hw.setOwn_txHook (own : η) (hw : Hw η) :
    (hw.setOwn own).host.txHook = hw.host.txHook := rfl

/-- The host functions that the runtime calls back: `lynx_serial_tx_hook` (called when
`Host.txHook` says it is set) and `lynx_frame_hook` (`none` for a null pointer). -/
structure Hooks (η : Type) where
  tx : Byte → Hw η → Hw η
  frame : Option (Hw η → Hw η)

/-- No link attached and no display waiting for a frame. -/
def Hooks.none : Hooks η := { tx := fun _ hw => hw, frame := .none }

/-- Static storage before any initialisation. -/
def Hw.zeroed (own : η) : Hw η where
  ram _ := 0
  suzy := { reg := fun _ => 0, busy := 0 }
  mikey _ := 0
  timer := { phase := fun _ => 0, irqLatch := 0 }
  audio _ := { lfsr := 0, pad := 0, dac := 0, phase := 0 }
  serial := { ctrl := 0, statusErr := 0, rxFifo := fun _ => 0, rxHead := 0, rxTail := 0 }
  host := { joystick := 0, switches := 0, txHook := false, lastExtAddr := 0, lastUnimpl := 0,
            own := own }

/-- The whole machine: `lynx_cpu` and what is behind the bus. -/
structure Machine (η : Type) where
  cpu : Cpu
  hw : Hw η

def Machine.zeroed (own : η) : Machine η where
  cpu := { a := 0, x := 0, y := 0, s := 0, pc := 0, n := 0, v := 0, d := 0, i := 0, z := 0, c := 0 }
  hw := .zeroed own

section Map

def suzyBase : Addr := 0xFC00
def mikeyBase : Addr := 0xFD00
def bootromBase : Addr := 0xFE00
def vecReset : Addr := 0xFFFC
def vecIrq : Addr := 0xFFFE

end Map

end LynxRecomp
