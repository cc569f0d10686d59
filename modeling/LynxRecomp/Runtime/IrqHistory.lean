import LynxRecomp.Runtime.SerialQueue
import LynxRecomp.Runtime.TimerDone

/-!
# The interrupt latch over whole runs

`lynx_irq_latch` collects the requests of eight timers, of the UART, which shares the bit of
timer 4, and of writes to INTSET, until a write to INTRST takes them back. Here everything that
the CPU and the host do with the hardware is compared with a history of these events.
-/

namespace LynxRecomp

variable {η : Type}

/-- What the CPU and the host do with the hardware -/
inductive HwOp where
  | memRead (addr : Addr)
  | memWrite (addr : Addr) (val : Byte)
  | rxPush (b : Byte)
  | timerStep (us : Word)
  | audioStep (us : Word)
  deriving DecidableEq, Repr

def hwPort (hooks : Hooks η) : CommandMachine (Hw η) HwOp Unit where
  step
    | .memRead addr, hw => ((), (lynxMemRead addr hw).2)
    | .memWrite addr val, hw => ((), lynxMemWrite hooks addr val hw)
    | .rxPush b, hw => ((), lynxSerialRxPush b hw)
    | .timerStep us, hw => ((), (lynxTimerStep us hw).2)
    | .audioStep us, hw => ((), lynxAudioStep us hw)

/-- The hooks leave the latch alone, and the one of the link leaves SERCTL alone as well. -/
structure HooksQuiet (hooks : Hooks η) : Prop where
  tx : ∀ b hw, (hooks.tx b hw).timer = hw.timer ∧ (hooks.tx b hw).serial.ctrl = hw.serial.ctrl
  frame : ∀ hook, hooks.frame = some hook → ∀ hw, (hook hw).timer = hw.timer

inductive IrqEvent where
  | underflow (i : Fin 8)
  | uart
  | intset (mask : Byte)
  | intrst (mask : Byte)
  deriving DecidableEq, Repr

/-- Bit `b` has been requested since it was last acknowledged. The latest event comes first. -/
def requestedSince (b : Fin 8) : List IrqEvent → Bool
  | [] => false
  | .underflow i :: past => i == b || requestedSince b past
  | .uart :: past => b == 4 || requestedSince b past
  | .intset mask :: past => mask.getLsbD b || requestedSince b past
  | .intrst mask :: past => !mask.getLsbD b && requestedSince b past

section Underflows

/-- A relation between the register file before and after, and the underflows in between -/
structure FollowsUnderflows (R : List (Fin 8) → TimerRegs → TimerRegs → Prop) : Prop where
  refl : ∀ s, R [] s s
  append : ∀ us vs s t r, R us s t → R vs t r → R (us ++ vs) s r
  underflow : ∀ i s, R [i] s (underflow i s)
  decrement : ∀ i s, R [] s (Function.update s.1 (treg i 2) (s.1 (treg i 2) - 1), s.2)
  phase : ∀ i p s, R [] s (setPhase i p s)

namespace FollowsUnderflows

variable {R : List (Fin 8) → TimerRegs → TimerRegs → Prop}

theorem tickChain (follows : FollowsUnderflows R) (depth : Nat) (i : Fin 8) (s : TimerRegs) :
    R (tickUnderflows depth i s) s (tickChain depth i s) := by
  induction depth generalizing i s with
  | zero => exact follows.refl s
  | succ depth ih =>
    rw [tickUnderflows, LynxRecomp.tickChain]
    by_cases zero : s.1 (treg i 2) = 0
    · rw [if_pos zero, if_pos zero]
      have own := follows.underflow i s
      cases linkSucc i with
      | none => exact own
      | some succ =>
        simp only
        by_cases linked : countsLinked (LynxRecomp.underflow i s).1 succ = true
        · rw [if_pos linked, if_pos linked]
          exact follows.append [i] _ _ _ _ own (ih succ _)
        · rw [if_neg linked, if_neg linked]
          exact own
    · rw [if_neg zero, if_neg zero]
      exact follows.decrement i s

theorem timerDrain (follows : FollowsUnderflows R) (i : Fin 8) (period : Word) (n : Nat)
    (s : TimerRegs) : R (drainUnderflows i period n s) s (timerDrain i period n s) := by
  induction n generalizing s with
  | zero => exact follows.refl s
  | succ n ih =>
    rw [drainUnderflows, LynxRecomp.timerDrain]
    by_cases due : period ≤ s.2.phase i
    · rw [if_pos due, if_pos due]
      have counting := follows.phase i (s.2.phase i - period) s
      have counted := follows.append [] _ _ _ _ counting (follows.tickChain 8 i _)
      exact follows.append _ _ _ _ _ counted (ih _)
    · rw [if_neg due, if_neg due]
      exact follows.refl s

theorem timerStepOne (follows : FollowsUnderflows R) (us : Word) (s : TimerRegs) (i : Fin 8) :
    R (turnUnderflows us s i) s (timerStepOne us s i) := by
  simp only [turnUnderflows, LynxRecomp.timerStepOne]
  by_cases stopped : s.1 (treg i 1) &&& tctlaCount = 0
  · rw [if_pos stopped, if_pos stopped]
    exact follows.refl s
  · rw [if_neg stopped, if_neg stopped]
    by_cases linked : s.1 (treg i 1) &&& tctlaClock = 7
    · rw [if_pos linked, if_pos linked]
      exact follows.refl s
    · rw [if_neg linked, if_neg linked]
      exact follows.append [] _ _ _ _ (follows.phase i _ s) (follows.timerDrain i _ _ _)

theorem turns (follows : FollowsUnderflows R) (us : Word) (timers : List (Fin 8)) (s : TimerRegs) :
    R (turnsUnderflows us timers s) s (timers.foldl (LynxRecomp.timerStepOne us) s) := by
  induction timers generalizing s with
  | nil => exact follows.refl s
  | cons i rest ih => exact follows.append _ _ _ _ _ (follows.timerStepOne us s i) (ih _)

/-- What relates the register file before and after each count, relates it before and after a
step of the timers. -/
theorem lynxTimerStep (follows : FollowsUnderflows R) (us : Word) (hw : Hw η) :
    R (stepUnderflows us hw) (hw.mikey, hw.timer)
      ((lynxTimerStep us hw).2.mikey, (lynxTimerStep us hw).2.timer) :=
  follows.turns us (List.finRange 8) (hw.mikey, hw.timer)

end FollowsUnderflows

/-- The timer asks for an interrupt when it underflows. -/
def IrqArmed (reg : Byte → Byte) (i : Fin 8) : Prop := reg (treg i 1) &&& tctlaInt ≠ 0

instance (reg : Byte → Byte) (i : Fin 8) : Decidable (IrqArmed reg i) :=
  inferInstanceAs (Decidable (_ ≠ _))

/-- No control A changes, and the latch gets the bits of the armed timers that underflow. -/
structure Latched (us : List (Fin 8)) (s t : TimerRegs) : Prop where
  control : ∀ b, t.1 (treg b 1) = s.1 (treg b 1)
  latch : ∀ b : Fin 8, t.2.irqLatch.getLsbD b = true ↔
    b ∈ us ∧ IrqArmed s.1 b ∨ s.2.irqLatch.getLsbD b = true

theorem latched_underflow (i : Fin 8) (s : TimerRegs) : Latched [i] s (underflow i s) where
  control b := (timerControl_kept b (s.1 (treg b 1))).underflow i s rfl
  latch b := by
    unfold underflow IrqArmed
    simp only [List.mem_singleton]
    by_cases armed : s.1 (treg i 1) &&& tctlaInt ≠ 0
    · rw [if_pos armed]
      have bit : (1 <<< i.val : Byte).getLsbD b = decide (b = i) := irqBit i b
      rw [BitVec.getLsbD_or, bit, Bool.or_eq_true, decide_eq_true_iff, or_comm]
      constructor
      · rintro (rfl | held)
        · exact .inl ⟨rfl, armed⟩
        · exact .inr held
      · rintro (⟨same, -⟩ | held)
        · exact .inl same
        · exact .inr held
    · rw [if_neg armed]
      constructor
      · exact .inr
      · rintro (⟨rfl, asks⟩ | held)
        · exact absurd asks armed
        · exact held

theorem latched_follows : FollowsUnderflows Latched where
  refl s := ⟨fun _ => rfl, fun b => by simp⟩
  append us vs s t r first second := by
    refine ⟨fun b => (second.control b).trans (first.control b), fun b => ?_⟩
    have same : IrqArmed t.1 b ↔ IrqArmed s.1 b := by
      unfold IrqArmed
      rw [first.control b]
    rw [second.latch b, first.latch b, same, List.mem_append, or_and_right, or_left_comm,
      or_assoc]
  underflow := latched_underflow
  decrement i s := by
    refine ⟨fun b => ?_, fun b => by simp⟩
    exact (timerControl_kept b (s.1 (treg b 1))).decrement i s rfl
  phase i p s := ⟨fun _ => rfl, fun b => by simp [setPhase]⟩

end Underflows

section Events

/-- `rx_service` raises the latch bit. -/
def rxAsks (s : Serial) : Bool := !rxEmpty s && s.ctrl &&& serctlRxinten != 0

def whenAsked (asked : Bool) : List IrqEvent := if asked then [.uart] else []

def mikeyReadEvents (off : Byte) (hw : Hw η) : List IrqEvent :=
  whenAsked (off == mikeySerdat && !rxEmpty hw.serial &&
    rxAsks { hw.serial with rxHead := rxNext hw.serial.rxHead })

def mikeyWriteEvents (off val : Byte) (hw : Hw η) : List IrqEvent :=
  if off = mikeyIntrst then [.intrst val]
  else if off = mikeyIntset then [.intset val]
  else if off = mikeySerdat then whenAsked (hw.serial.ctrl &&& serctlTxinten != 0)
  else if off = mikeySerctl then whenAsked (rxAsks { hw.serial with ctrl := val })
  else []

/-- What an operation requests and acknowledges, in order -/
def irqEvents : HwOp → Hw η → List IrqEvent
  | .memRead addr, hw =>
    if mikeyBase ≤ addr ∧ addr < bootromBase then mikeyReadEvents (regOff addr mikeyBase) hw else []
  | .memWrite addr val, hw =>
    if mikeyBase ≤ addr ∧ addr < bootromBase then
      mikeyWriteEvents (regOff addr mikeyBase) val hw else []
  | .rxPush _, hw =>
    whenAsked (rxNext hw.serial.rxTail != hw.serial.rxHead &&
      hw.serial.ctrl &&& serctlRxinten != 0)
  | .timerStep us, hw =>
    ((stepUnderflows us hw).filter fun i => IrqArmed hw.mikey i).map .underflow
  | .audioStep _, _ => []

/-- A history tells what is in the latch. -/
def LatchTold (latch : Byte) (past : List IrqEvent) : Prop :=
  ∀ b : Fin 8, latch.getLsbD b = requestedSince b past

variable {hw : Hw η} {latch : Byte} {past : List IrqEvent}

theorem LatchTold.raise (told : LatchTold latch past) : LatchTold (latch ||| serialIrqBit)
    (.uart :: past) := by
  intro b
  have bit : serialIrqBit.getLsbD b = (b == 4) := by
    revert b
    decide
  rw [BitVec.getLsbD_or, told b, bit, Bool.or_comm]
  rfl

theorem LatchTold.set (told : LatchTold latch past) (mask : Byte) :
    LatchTold (latch ||| mask) (.intset mask :: past) := by
  intro b
  rw [BitVec.getLsbD_or, told b, Bool.or_comm]
  rfl

theorem LatchTold.reset (told : LatchTold latch past) (mask : Byte) :
    LatchTold (latch &&& ~~~mask) (.intrst mask :: past) := by
  intro b
  have inside : b.val < 8 := b.isLt
  rw [BitVec.getLsbD_and, BitVec.getLsbD_not, told b, decide_eq_true inside, Bool.true_and,
    Bool.and_comm]
  rfl

theorem LatchTold.rxService (told : LatchTold hw.timer.irqLatch past) :
    LatchTold (rxService hw).timer.irqLatch
      ((whenAsked (rxAsks hw.serial)).reverse ++ past) := by
  unfold LynxRecomp.rxService whenAsked rxAsks
  by_cases asks : (!rxEmpty hw.serial && hw.serial.ctrl &&& serctlRxinten != 0) = true
  · rw [if_pos asks, if_pos asks]
    exact told.raise
  · rw [if_neg asks, if_neg asks]
    exact told

theorem requestedSince_underflows (b : Fin 8) (timers : List (Fin 8)) (past : List IrqEvent) :
    requestedSince b ((timers.map .underflow).reverse ++ past) = true ↔
      b ∈ timers ∨ requestedSince b past = true := by
  induction timers generalizing past with
  | nil => simp
  | cons i timers ih =>
    have split : ((i :: timers).map IrqEvent.underflow).reverse ++ past =
        (timers.map IrqEvent.underflow).reverse ++ .underflow i :: past := by simp
    rw [split, ih, List.mem_cons]
    simp only [requestedSince, Bool.or_eq_true, beq_iff_eq]
    rw [@eq_comm _ i b]
    exact or_left_comm.trans or_assoc.symm

theorem LatchTold.timerStep (told : LatchTold hw.timer.irqLatch past) (us : Word) :
    LatchTold (lynxTimerStep us hw).2.timer.irqLatch
      ((irqEvents (.timerStep us) hw).reverse ++ past) := by
  intro b
  have counted := (latched_follows.lynxTimerStep us hw).latch b
  rw [Bool.eq_iff_iff]
  refine counted.trans ?_
  rw [irqEvents, requestedSince_underflows, List.mem_filter, decide_eq_true_iff, ← told b]

end Events

section Runs

variable {hooks : Hooks η} {hw : Hw η} {past : List IrqEvent}

theorem lynxMikeyRead_latch (off : Byte) (told : LatchTold hw.timer.irqLatch past) :
    LatchTold (lynxMikeyRead off hw).2.timer.irqLatch
      ((mikeyReadEvents off hw).reverse ++ past) := by
  unfold lynxMikeyRead mikeyReadEvents
  by_cases data : off = mikeySerdat
  · subst data
    rw [if_neg (by decide), if_pos (.inr rfl), lynxSerialRead, if_pos (by decide)]
    by_cases empty : rxEmpty hw.serial = true
    · rw [if_pos empty, empty]
      exact told
    · rw [if_neg empty, Bool.eq_false_of_not_eq_true empty]
      exact LatchTold.rxService told
  · have quiet : (off == mikeySerdat) = false := beq_eq_false_iff_ne.mpr data
    rw [quiet]
    split
    · exact told
    · split
      · rw [lynxSerialRead, if_neg (show off ≠ 0x8D from data)]
        exact told
      · exact told

theorem lynxMemRead_latch (addr : Addr) (told : LatchTold hw.timer.irqLatch past) :
    LatchTold (lynxMemRead addr hw).2.timer.irqLatch
      ((irqEvents (.memRead addr) hw).reverse ++ past) := by
  rw [irqEvents]
  unfold lynxMemRead
  by_cases mikey : mikeyBase ≤ addr ∧ addr < bootromBase
  · have suzy : ¬ (suzyBase ≤ addr ∧ addr < mikeyBase) := by bv_omega
    rw [if_neg suzy, if_pos mikey, if_pos mikey]
    exact lynxMikeyRead_latch _ told
  · rw [if_neg mikey, if_neg mikey]
    split
    · exact told
    · exact told

theorem lynxSuzyWrite_timer (off val : Byte) (hw : Hw η) :
    (lynxSuzyWrite off val hw).timer = hw.timer := by
  unfold lynxSuzyWrite
  split
  · split
    · rfl
    · rfl
  · split
    · rfl
    · split
      · rfl
      · rfl

theorem lynxSerialWrite_latch (quiet : HooksQuiet hooks) (val : Byte)
    (told : LatchTold hw.timer.irqLatch past) :
    LatchTold (lynxSerialWrite hooks mikeySerdat val hw).timer.irqLatch
      ((whenAsked (hw.serial.ctrl &&& serctlTxinten != 0)).reverse ++ past) := by
  let sent := if hw.host.txHook then hooks.tx val hw else hw
  have kept : sent.timer = hw.timer ∧ sent.serial.ctrl = hw.serial.ctrl := by
    unfold sent
    split
    · exact quiet.tx val hw
    · exact ⟨rfl, rfl⟩
  have told' : LatchTold sent.timer.irqLatch past := kept.1 ▸ told
  have written : lynxSerialWrite hooks mikeySerdat val hw =
      if sent.serial.ctrl &&& serctlTxinten ≠ 0 then lynxIrqRaise serialIrqBit sent else sent := rfl
  rw [written, kept.2]
  unfold whenAsked
  by_cases armed : hw.serial.ctrl &&& serctlTxinten ≠ 0
  · rw [if_pos armed, if_pos (bne_iff_ne.mpr armed)]
    exact told'.raise
  · rw [if_neg armed, if_neg (fun asks => armed (bne_iff_ne.mp asks))]
    exact told'

theorem lynxSerialWrite_control (hooks : Hooks η) (val : Byte)
    (told : LatchTold hw.timer.irqLatch past) :
    LatchTold (lynxSerialWrite hooks mikeySerctl val hw).timer.irqLatch
      ((whenAsked (rxAsks { hw.serial with ctrl := val })).reverse ++ past) := by
  let s := { hw.serial with ctrl := val }
  let s' := if val &&& serctlReseterr ≠ 0 then { s with statusErr := 0 } else s
  have asks : rxAsks s' = rxAsks s := by
    unfold s'
    split
    · rfl
    · rfl
  rw [← asks]
  exact @LatchTold.rxService _ { hw with serial := s' } _ told

theorem lynxMikeyWrite_latch (quiet : HooksQuiet hooks) (off val : Byte)
    (told : LatchTold hw.timer.irqLatch past) :
    LatchTold (lynxMikeyWrite hooks off val hw).timer.irqLatch
      ((mikeyWriteEvents off val hw).reverse ++ past) := by
  unfold lynxMikeyWrite mikeyWriteEvents
  by_cases intrst : off = mikeyIntrst
  · rw [if_pos intrst, if_pos intrst]
    exact told.reset val
  rw [if_neg intrst, if_neg intrst]
  by_cases intset : off = mikeyIntset
  · rw [if_pos intset, if_pos intset]
    exact told.set val
  rw [if_neg intset, if_neg intset]
  by_cases data : off = mikeySerdat
  · subst data
    rw [if_neg (by decide), if_pos (.inr rfl), if_pos rfl]
    exact @lynxSerialWrite_latch _ _ { hw with mikey := Function.update hw.mikey mikeySerdat val }
      _ quiet val told
  rw [if_neg data]
  by_cases control : off = mikeySerctl
  · subst control
    rw [if_neg (by decide), if_pos (.inl rfl), if_pos rfl]
    exact @lynxSerialWrite_control _ { hw with mikey := Function.update hw.mikey mikeySerctl val }
      _ hooks val told
  rw [if_neg control]
  have plain : ¬ (off = mikeySerctl ∨ off = mikeySerdat) := not_or.mpr ⟨control, data⟩
  rw [if_neg plain]
  split
  · cases frame : hooks.frame with
    | none => exact told
    | some hook =>
      have kept := quiet.frame hook frame { hw with mikey := Function.update hw.mikey off val }
      exact (congrArg Timer.irqLatch kept) ▸ told
  · split
    · exact told
    · exact told

theorem lynxMemWrite_latch (quiet : HooksQuiet hooks) (addr : Addr) (val : Byte)
    (told : LatchTold hw.timer.irqLatch past) :
    LatchTold (lynxMemWrite hooks addr val hw).timer.irqLatch
      ((irqEvents (.memWrite addr val) hw).reverse ++ past) := by
  rw [irqEvents]
  unfold lynxMemWrite
  by_cases mikey : mikeyBase ≤ addr ∧ addr < bootromBase
  · have suzy : ¬ (suzyBase ≤ addr ∧ addr < mikeyBase) := by bv_omega
    rw [if_neg suzy, if_pos mikey, if_pos mikey]
    exact lynxMikeyWrite_latch quiet _ val told
  · rw [if_neg mikey, if_neg mikey]
    split
    · rw [lynxSuzyWrite_timer]
      exact told
    · exact told

theorem lynxSerialRxPush_latch (b : Byte) (told : LatchTold hw.timer.irqLatch past) :
    LatchTold (lynxSerialRxPush b hw).timer.irqLatch
      ((irqEvents (.rxPush b) hw).reverse ++ past) := by
  rw [irqEvents]
  unfold lynxSerialRxPush
  by_cases full : rxNext hw.serial.rxTail = hw.serial.rxHead
  · rw [bne_eq_false_iff_eq.mpr full]
    simp only
    rw [if_pos full]
    exact told
  · rw [bne_iff_ne.mpr full]
    simp only
    rw [if_neg full]
    let s := { hw.serial.fifoSet hw.serial.rxTail b with rxTail := rxNext hw.serial.rxTail }
    have head : s.rxHead = hw.serial.rxHead := Serial.fifoSet_rxHead ..
    have ctrl : s.ctrl = hw.serial.ctrl := Serial.fifoSet_ctrl ..
    have waiting : rxEmpty s = false := by
      unfold rxEmpty
      rw [head]
      exact beq_eq_false_iff_ne.mpr (Ne.symm full)
    have asks : rxAsks s = (true && hw.serial.ctrl &&& serctlRxinten != 0) := by
      rw [rxAsks, waiting, ctrl, Bool.not_false]
    rw [← asks]
    exact @LatchTold.rxService _ { hw with serial := s } _ told

theorem hwPort_latch (quiet : HooksQuiet hooks) (op : HwOp)
    (told : LatchTold hw.timer.irqLatch past) :
    LatchTold ((hwPort hooks).step op hw).2.timer.irqLatch ((irqEvents op hw).reverse ++ past) := by
  cases op with
  | memRead addr => exact lynxMemRead_latch addr told
  | memWrite addr val => exact lynxMemWrite_latch quiet addr val told
  | rxPush b => exact lynxSerialRxPush_latch b told
  | timerStep us => exact told.timerStep us
  | audioStep us => exact told

/-- In every state of a run from the initialisation, a bit of the latch is set exactly if an
armed timer, the UART or a write to INTSET has requested it since the latest write to INTRST
that names it. -/
theorem irqLatch_told (quiet : HooksQuiet hooks) (ops : List HwOp) (hw : Hw η) :
    ((hwPort hooks).recorded irqEvents).Always
      (fun s => LatchTold s.1.timer.irqLatch s.2) ops (lynxMikeyInit hw, []) := by
  apply CommandMachine.always_of_step
  · exact fun op s told => hwPort_latch quiet op told
  · intro b
    exact BitVec.getLsbD_zero

theorem Hooks.none_quiet : HooksQuiet (Hooks.none : Hooks η) where
  tx _ _ := ⟨rfl, rfl⟩
  frame _ set := absurd set (by simp [Hooks.none])

/-- Timer 0 and the UART are armed. The timer underflows and a byte comes in; then the request of
the timer is acknowledged, and the one of the UART stays. -/
theorem irqLatch_told_uart :
    let ops : List HwOp := [.memWrite 0xFD01 0x98, .memWrite 0xFD8C 0x40, .timerStep 1,
      .rxPush 0x5A, .memWrite 0xFD80 0x01]
    let s := (lynxMikeyInit (Hw.zeroed ()), ([] : List IrqEvent))
    ((hwPort Hooks.none).recorded irqEvents).Always
        (fun s => LatchTold s.1.timer.irqLatch s.2) ops s ∧
      (((hwPort Hooks.none).recorded irqEvents).run ops s).2.2 =
        [.intrst 0x01, .uart, .underflow 0] :=
  ⟨irqLatch_told Hooks.none_quiet _ _, by decide +kernel⟩

end Runs

end LynxRecomp
