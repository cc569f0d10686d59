import LynxRecomp.Lib.Loops
import LynxRecomp.Recompiler.CartBus
import LynxRecomp.Recompiler.Interp

/-!
# The loops of lynxrun

`lynxrun.c` runs the interpreter over the peripherals of the runtime: instruction after
instruction, with a microsecond of time for each and an interrupt where one is due. It sets
neither the link hook nor the frame hook.
-/

namespace LynxRecomp

variable {η : Type}

/-- `interp_reset_pc` -/
def interpResetPc (pc : Addr) : InterpCpu where
  a := 0
  x := 0
  y := 0
  s := 0xFF
  pc := pc
  n := 0
  v := 0
  d := 0
  i := 1
  z := 0
  c := 0

/-- `interp_irq` -/
def interpIrq (c : InterpCpu) : Code InterpCpu := do
  let c ← interpPush ((c.pc >>> 8).setWidth 8) c
  let c ← interpPush (c.pc.setWidth 8) c
  let c ← interpPush (packP c &&& ~~~0x10) c
  let pc ← interpRd16 vecIrq
  pure { c with i := 1, d := 0, pc := pc }

/-- `lynx_input_set` -/
def lynxInputSet (joystick switches : Byte) (hw : Hw η) : Hw η :=
  { hw with host := { hw.host with joystick := joystick, switches := switches } }

namespace Lynxrun

/-- `icpu`, what is behind its bus, and `g_irqs` -/
structure Machine (η : Type) where
  cpu : InterpCpu
  st : State η
  irqs : Nat

def State.setFlip (flip : Bool) (s : State η) : State η := { s with flip := flip }

namespace Machine

def setFlip (flip : Bool) (m : Machine η) : Machine η := { m with st := m.st.setFlip flip }

def setInput (joystick switches : Byte) (m : Machine η) : Machine η :=
  { m with st := { m.st with hw := lynxInputSet joystick switches m.st.hw } }

end Machine

/-- The time that the loops give to an instruction -/
def videoTime (hw : Hw η) : Hw η := (lynxTimerStep 1 hw).2

def audioTime (hw : Hw η) : Hw η := lynxAudioStep 1 (lynxTimerStep 1 hw).2

section Loops

variable (l : Loaded)

/-- What `setup` leaves: the machine at the reset vector of the boot ROM -/
def start (s : State η) : Machine η :=
  let vector := (interpRd16 vecReset).run (bus .none l) (setup s)
  { cpu := interpResetPc vector.1, st := vector.2, irqs := 0 }

/-- What follows an instruction: time passes, and an interrupt is delivered if one is due. -/
def pass (time : Hw η → Hw η) (irqs : Nat) (cpu : InterpCpu) (st : State η) : Machine η :=
  let st := { st with hw := time st.hw }
  if lynxIrqPending st.hw ≠ 0 ∧ cpu.i = 0 then
    let e := (interpIrq cpu).run (bus .none l) st
    { cpu := e.1, st := e.2, irqs := irqs + 1 }
  else { cpu := cpu, st := st, irqs := irqs }

/-- One turn of the loops, with the event of its instruction -/
def turn (time : Hw η → Hw η) (m : Machine η) : InterpEvent × Machine η :=
  let r := (interpStep m.cpu).run (bus .none l) m.st
  (r.1.2, pass l time m.irqs r.1.1 r.2)

def step (time : Hw η → Hw η) (m : Machine η) : Machine η := (turn l time m).2

/-- `run_until_flip` -/
def runUntilFlip (budget : Nat) (m : Machine η) : Nat × Machine η :=
  Loops.untilFlag (step l videoTime) (fun m => m.st.flip) budget (m.setFlip false)

/-- The frames of `run_capture` and `run_snapshot`, with the joystick held in each: the
instructions of a frame and whether it ended with a flip, and the machine after the last one -/
def runFrames (budget : Nat) : List Byte → Machine η → List (Nat × Bool) × Machine η
  | [], m => ([], m)
  | joy :: joys, m =>
    let frame := runUntilFlip l budget (m.setInput joy 0)
    let r := runFrames budget joys frame.2
    ((frame.1, frame.2.st.flip) :: r.1, r.2)

/-- `run_headless`: the first indirect jump, with its place and target, and the machine -/
def runHeadless : Nat → Machine η → Option (Nat × Addr) × Machine η
  | 0, m => (none, m)
  | maxi + 1, m =>
    let r := turn l videoTime m
    let rest := runHeadless maxi r.2
    match r.1 with
    | .indjmp entry => (some (0, entry), rest.2)
    | _ => (rest.1.map fun found => (found.1 + 1, found.2), rest.2)

def audioRate : Nat := 44100

/-- The loop of `run_audio`, with the samples it captures -/
def runAudio (total cap : Nat) (m : Machine η) : List (BitVec 16) × Machine η :=
  Loops.pace audioRate 1000000 (step l audioTime) (fun m => lynxAudioSample m.st.hw) total cap 0 m

end Loops

end Lynxrun

end LynxRecomp
