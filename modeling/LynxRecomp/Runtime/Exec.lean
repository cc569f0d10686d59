import LynxRecomp.Runtime.Cpu

/-!
# Dispatch, time and interrupts

`recomp_rt.c` and `recomp_exec.c`. Recompiled routines and the interpreter that
bridges discovery gaps are host functions of the machine, found in the dispatch
table at run time.
-/

namespace LynxRecomp

variable {η : Type}

/-- `g_dispatch` and `lynx_dispatch_fallback`. -/
structure Dispatch (η : Type) where
  table : Addr → Option (Machine η → Machine η)
  fallback : Option (Addr → Machine η → Machine η)

/-- No routine registered and no fallback. -/
def Dispatch.empty : Dispatch η := { table := fun _ => none, fallback := none }

def lynxRegister (addr : Addr) (fn : Machine η → Machine η) (d : Dispatch η) : Dispatch η :=
  { d with table := Function.update d.table addr (some fn) }

def lynxCallAddr (d : Dispatch η) (addr : Addr) (m : Machine η) : Machine η :=
  match d.table addr with
  | some fn => fn m
  | none =>
    match d.fallback with
    | some interpret => interpret addr m
    | none => { m with hw := { m.hw with host := { m.hw.host with lastExtAddr := addr } } }

/-- Run bus code of the CPU in the machine. -/
def Machine.exec (hooks : Hooks η) (p : Cpu → Code Cpu) (m : Machine η) : Machine η :=
  let r := (p m.cpu).run (memBus hooks) m.hw
  { cpu := r.1, hw := r.2 }

/-- The three pushes of an interrupt entry, and the flags it sets. -/
def irqEntry (c : Cpu) : Code Cpu := do
  let c ← lynxPush 0x00 c
  let c ← lynxPush 0x00 c
  let c ← lynxPush (lynxPPack c &&& ~~~0x10) c
  pure { c with i := 1, d := 0 }

def lynxIrqDeliver (hooks : Hooks η) (d : Dispatch η) (m : Machine η) : Machine η :=
  let vec := (lynxMemRead16 vecIrq).run (memBus hooks) m.hw
  lynxCallAddr d vec.1 (Machine.exec hooks irqEntry { m with hw := vec.2 })

def lynxRti (c : Cpu) : Code Cpu := do
  let (p, c) ← lynxPull c
  let c := lynxPUnpack p c
  let (_, c) ← lynxPull c
  let (_, c) ← lynxPull c
  pure c

def lynxTickUs : Word := 4

def lynxTick (hooks : Hooks η) (d : Dispatch η) (m : Machine η) : Machine η :=
  let m := { m with hw := lynxAudioStep lynxTickUs (lynxTimerStep lynxTickUs m.hw).2 }
  if lynxIrqPending m.hw ≠ 0 ∧ m.cpu.i = 0 then lynxIrqDeliver hooks d m else m

end LynxRecomp
