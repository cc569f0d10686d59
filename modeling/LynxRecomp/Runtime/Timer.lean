import LynxRecomp.Runtime.Hardware

/-!
# Mikey timers and the interrupt latch

`timer.c`. A timer owns four Mikey registers; a linked timer (clock select 7)
counts the underflows of its predecessor in the chain 0, 2, 4, 1, 3, 5, 7.
-/

namespace LynxRecomp

variable {η : Type}

def tctlaInt : Byte := 0x80
/-- On a write: clear TIMER_DONE. No code reads it. -/
def tctlaResetdone : Byte := 0x40
def tctlaReload : Byte := 0x10
def tctlaCount : Byte := 0x08
def tctlaClock : Byte := 0x07
def tctlbDone : Byte := 0x08
def tctlbBorrowout : Byte := 0x01

/-- The Mikey offset of a timer register: 0 backup, 1 control A, 2 count, 3 control B. -/
def treg (i : Fin 8) (field : Nat) : Byte := BitVec.ofNat 8 (i.val * 4 + field)

def lynxTimerInit (hw : Hw η) : Hw η :=
  { hw with timer := { phase := fun _ => 0, irqLatch := 0 } }

def lynxIrqPending (hw : Hw η) : Byte := truth (hw.timer.irqLatch != 0)

def lynxIrqAck (mask : Byte) (hw : Hw η) : Hw η :=
  { hw with timer := { hw.timer with irqLatch := hw.timer.irqLatch &&& ~~~mask } }

def lynxIrqRaise (mask : Byte) (hw : Hw η) : Hw η :=
  { hw with timer := { hw.timer with irqLatch := hw.timer.irqLatch ||| mask } }

/-- `link_succ`: the timer driven by timer `i`'s underflow. -/
def linkSucc : Fin 8 → Option (Fin 8)
  | 0 => some 2
  | 1 => some 3
  | 2 => some 4
  | 3 => some 5
  | 4 => some 1
  | 5 => some 7
  | 6 => none
  | 7 => none

/-- The registers and the timer variables, which is all that `tick` works on. -/
abbrev TimerRegs := (Byte → Byte) × Timer

/-- The effects of an underflow on the timer itself: reload, flags, interrupt. -/
def underflow (i : Fin 8) (s : TimerRegs) : TimerRegs :=
  let ctlA := s.1 (treg i 1)
  let reg := if ctlA &&& tctlaReload ≠ 0 then
    Function.update s.1 (treg i 2) (s.1 (treg i 0)) else s.1
  (Function.update reg (treg i 3) (reg (treg i 3) ||| (tctlbDone ||| tctlbBorrowout)),
    if ctlA &&& tctlaInt ≠ 0 then { s.2 with irqLatch := s.2.irqLatch ||| 1 <<< i.val } else s.2)

/-- Timer `i` counts, and it counts the underflows of its predecessor. -/
def countsLinked (reg : Byte → Byte) (i : Fin 8) : Bool :=
  reg (treg i 1) &&& tctlaCount != 0 && reg (treg i 1) &&& tctlaClock == 7

/-- `tick`, with a bound on the depth of its recursion along the link chain. -/
def tickChain : Nat → Fin 8 → TimerRegs → TimerRegs
  | 0, _, s => s
  | depth + 1, i, s =>
    if s.1 (treg i 2) = 0 then
      match linkSucc i with
      | none => underflow i s
      | some succ =>
        if countsLinked (underflow i s).1 succ then tickChain depth succ (underflow i s)
        else underflow i s
    else (Function.update s.1 (treg i 2) (s.1 (treg i 2) - 1), s.2)

/-- One count of timer `i`. The chain has seven members, so eight levels suffice. -/
def tick (i : Fin 8) (s : TimerRegs) : TimerRegs := tickChain 8 i s

def setPhase (i : Fin 8) (p : Word) (s : TimerRegs) : TimerRegs :=
  (s.1, { s.2 with phase := Function.update s.2.phase i p })

/-- The inner loop of `lynx_timer_step`. The divider is at least 1, so it turns at most
`phase[i]` times. -/
def timerDrain (i : Fin 8) (period : Word) : Nat → TimerRegs → TimerRegs
  | 0, s => s
  | n + 1, s =>
    if period ≤ s.2.phase i then
      timerDrain i period n (tick i (setPhase i (s.2.phase i - period) s))
    else s

/-- One turn of the outer loop of `lynx_timer_step`. -/
def timerStepOne (us : Word) (s : TimerRegs) (i : Fin 8) : TimerRegs :=
  let ctlA := s.1 (treg i 1)
  if ctlA &&& tctlaCount = 0 then s
  else
    let clk := ctlA &&& tctlaClock
    if clk = 7 then s
    else
      let phase := s.2.phase i + us
      timerDrain i (1 <<< clk.toNat) phase.toNat (setPhase i phase s)

def timerStepAll (us : Word) (s : TimerRegs) : TimerRegs :=
  (List.finRange 8).foldl (timerStepOne us) s

def lynxTimerStep (us : Word) (hw : Hw η) : Byte × Hw η :=
  let s := timerStepAll us (hw.mikey, hw.timer)
  (s.2.irqLatch, { hw with mikey := s.1, timer := s.2 })

/-- A count keeps `P`. -/
structure KeptByCounts (P : TimerRegs → Prop) : Prop where
  underflow : ∀ i s, P s → P (underflow i s)
  decrement : ∀ i s, P s → P (Function.update s.1 (treg i 2) (s.1 (treg i 2) - 1), s.2)

namespace KeptByCounts

variable {P : TimerRegs → Prop}

theorem tickChain (kept : KeptByCounts P) (depth : Nat) (i : Fin 8) {s : TimerRegs} (h : P s) :
    P (tickChain depth i s) := by
  induction depth generalizing i s with
  | zero => exact h
  | succ depth ih =>
    have after := kept.underflow i s h
    rw [LynxRecomp.tickChain]
    split
    · split
      · exact after
      · split
        · exact ih _ after
        · exact after
    · exact kept.decrement i s h

theorem timerDrain (kept : KeptByCounts P) (phase : ∀ i p s, P s → P (setPhase i p s)) (i : Fin 8)
    (period : Word) (n : Nat) {s : TimerRegs} (h : P s) : P (timerDrain i period n s) := by
  induction n generalizing s with
  | zero => exact h
  | succ n ih =>
    rw [LynxRecomp.timerDrain]
    split
    · apply ih
      exact kept.tickChain 8 i (phase i _ s h)
    · exact h

/-- What counts and phases keep, the timer step keeps. -/
theorem timerStepAll (kept : KeptByCounts P) (phase : ∀ i p s, P s → P (setPhase i p s))
    (us : Word) {s : TimerRegs} (h : P s) : P (timerStepAll us s) := by
  apply List.foldlRecOn (List.finRange 8) (timerStepOne us) h
  intro s hs i _
  simp only [timerStepOne]
  split
  · exact hs
  · split
    · exact hs
    · exact kept.timerDrain phase i _ _ (phase i _ s hs)

end KeptByCounts

section Latch

@[simp] theorem lynxIrqRaise_serial (mask : Byte) (hw : Hw η) :
    (lynxIrqRaise mask hw).serial = hw.serial := rfl

@[simp] theorem lynxIrqRaise_host (mask : Byte) (hw : Hw η) :
    (lynxIrqRaise mask hw).host = hw.host := rfl

@[simp] theorem lynxIrqRaise_latch (mask : Byte) (hw : Hw η) :
    (lynxIrqRaise mask hw).timer.irqLatch = hw.timer.irqLatch ||| mask := rfl

@[simp] theorem lynxIrqAck_serial (mask : Byte) (hw : Hw η) :
    (lynxIrqAck mask hw).serial = hw.serial := rfl

@[simp] theorem lynxIrqAck_latch (mask : Byte) (hw : Hw η) :
    (lynxIrqAck mask hw).timer.irqLatch = hw.timer.irqLatch &&& ~~~mask := rfl

@[simp] theorem lynxTimerStep_serial (us : Word) (hw : Hw η) :
    (lynxTimerStep us hw).2.serial = hw.serial := rfl

@[simp] theorem lynxTimerStep_host (us : Word) (hw : Hw η) :
    (lynxTimerStep us hw).2.host = hw.host := rfl

/-- A count never clears a latch bit. -/
theorem latch_kept (k : Nat) : KeptByCounts fun s => s.2.irqLatch.getLsbD k = true where
  underflow i s h := by
    simp only [underflow]
    split
    · simp [BitVec.getLsbD_or, h]
    · exact h
  decrement _ _ h := h

/-- Stepping the timers never clears a latch bit. -/
theorem lynxTimerStep_latch (k : Nat) (us : Word) (hw : Hw η)
    (h : hw.timer.irqLatch.getLsbD k = true) :
    (lynxTimerStep us hw).2.timer.irqLatch.getLsbD k = true :=
  (latch_kept k).timerStepAll (fun _ _ _ kept => kept) us (s := (hw.mikey, hw.timer)) h

end Latch

end LynxRecomp
