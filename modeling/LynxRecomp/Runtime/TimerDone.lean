import LynxRecomp.Runtime.MikeyRuns

/-!
# TIMER_DONE over whole runs

Bit 3 of a control B register says that its timer has underflowed. Here a run of Mikey
keeps a history of underflows and register writes beside its state, and the flags are
compared with what the history says they should be.
-/

namespace LynxRecomp

variable {η : Type}

inductive TimerEvent where
  | underflow (i : Fin 8)
  | write (off val : Byte)
  deriving DecidableEq, Repr

/-- The timer has underflowed since the latest of the initialisation, a write to control A
with RESET_DONE, and a write to control B, which sets the flag to a bit of the value written.
The latest event comes first. -/
def doneSince (i : Fin 8) : List TimerEvent → Bool
  | [] => false
  | .underflow j :: past => j == i || doneSince i past
  | .write off val :: past =>
    if off = treg i 1 ∧ val &&& tctlaResetdone ≠ 0 then false
    else if off = treg i 3 then val &&& tctlbDone != 0
    else doneSince i past

section Underflows

/-- The timers that go through the branch `underflow` of `tick`, in this order. -/
def tickUnderflows : Nat → Fin 8 → TimerRegs → List (Fin 8)
  | 0, _, _ => []
  | depth + 1, i, s =>
    if s.1 (treg i 2) = 0 then
      i :: match linkSucc i with
        | none => []
        | some succ =>
          if countsLinked (underflow i s).1 succ then tickUnderflows depth succ (underflow i s)
          else []
    else []

/-- The underflows in the inner loop of `lynx_timer_step` -/
def drainUnderflows (i : Fin 8) (period : Word) : Nat → TimerRegs → List (Fin 8)
  | 0, _ => []
  | n + 1, s =>
    if period ≤ s.2.phase i then
      let counting := setPhase i (s.2.phase i - period) s
      tickUnderflows 8 i counting ++ drainUnderflows i period n (tick i counting)
    else []

/-- The underflows in one turn of the outer loop -/
def turnUnderflows (us : Word) (s : TimerRegs) (i : Fin 8) : List (Fin 8) :=
  let ctlA := s.1 (treg i 1)
  if ctlA &&& tctlaCount = 0 then []
  else
    let clk := ctlA &&& tctlaClock
    if clk = 7 then []
    else
      let phase := s.2.phase i + us
      drainUnderflows i (1 <<< clk.toNat) phase.toNat (setPhase i phase s)

/-- The underflows in the turns for the timers in a list -/
def turnsUnderflows (us : Word) : List (Fin 8) → TimerRegs → List (Fin 8)
  | [], _ => []
  | i :: rest, s => turnUnderflows us s i ++ turnsUnderflows us rest (timerStepOne us s i)

/-- The underflows in a call of `lynx_timer_step` -/
def stepUnderflows (us : Word) (hw : Hw η) : List (Fin 8) :=
  turnsUnderflows us (List.finRange 8) (hw.mikey, hw.timer)

end Underflows

/-- TIMER_DONE is set. -/
def TimerDone (reg : Byte → Byte) (i : Fin 8) : Prop := reg (treg i 3) &&& tctlbDone ≠ 0

instance (reg : Byte → Byte) (i : Fin 8) : Decidable (TimerDone reg i) :=
  inferInstanceAs (Decidable (_ ≠ _))

section Flags

variable {s : TimerRegs} {i j : Fin 8}

theorem timerDone_underflow : TimerDone (underflow i s).1 j ↔ j = i ∨ TimerDone s.1 j := by
  unfold TimerDone
  rw [underflow_reg i j s (by decide)]
  by_cases here : j = i
  · subst here
    rw [if_pos ⟨rfl, rfl⟩]
    have raised : ∀ ctlB : Byte, (ctlB ||| (tctlbDone ||| tctlbBorrowout)) &&& tctlbDone ≠ 0 := by
      decide
    exact ⟨fun _ => .inl rfl, fun _ => raised _⟩
  · rw [if_neg (fun hit => here hit.1), if_neg (fun hit => here hit.1)]
    exact (or_iff_right here).symm

theorem timerDone_decrement (v : Byte) :
    TimerDone (Function.update s.1 (treg i 2) v) j ↔ TimerDone s.1 j := by
  unfold TimerDone
  rw [update_treg _ _ _ (by decide) (by decide), if_neg (fun hit => absurd hit.2 (by decide))]

/-- A count sets the flags of the timers that it lets underflow, and no other. -/
theorem timerDone_tickChain (depth : Nat) (i : Fin 8) (s : TimerRegs) :
    TimerDone (tickChain depth i s).1 j ↔ j ∈ tickUnderflows depth i s ∨ TimerDone s.1 j := by
  induction depth generalizing i s with
  | zero => simp [tickChain, tickUnderflows]
  | succ depth ih =>
    rw [tickChain, tickUnderflows]
    by_cases zero : s.1 (treg i 2) = 0
    · rw [if_pos zero, if_pos zero]
      have own := @timerDone_underflow s i j
      cases linkSucc i with
      | none =>
        simp only [List.mem_singleton]
        exact own
      | some succ =>
        simp only [List.mem_cons]
        by_cases linked : countsLinked (underflow i s).1 succ = true
        · rw [if_pos linked, if_pos linked, ih succ (underflow i s), own]
          exact or_left_comm.trans or_assoc.symm
        · rw [if_neg linked, if_neg linked, own]
          simp
    · rw [if_neg zero, if_neg zero]
      simp only [List.not_mem_nil, false_or]
      exact timerDone_decrement _

theorem timerDone_timerDrain (period : Word) (n : Nat) (s : TimerRegs) :
    TimerDone (timerDrain i period n s).1 j ↔
      j ∈ drainUnderflows i period n s ∨ TimerDone s.1 j := by
  induction n generalizing s with
  | zero => simp [timerDrain, drainUnderflows]
  | succ n ih =>
    rw [timerDrain, drainUnderflows]
    by_cases due : period ≤ s.2.phase i
    · rw [if_pos due, if_pos due, ih, List.mem_append]
      have count := @timerDone_tickChain j 8 i (setPhase i (s.2.phase i - period) s)
      have ticked : TimerDone (tick i (setPhase i (s.2.phase i - period) s)).1 j ↔ _ := count
      rw [ticked]
      exact or_left_comm.trans or_assoc.symm
    · rw [if_neg due, if_neg due]
      simp

theorem timerDone_timerStepOne (us : Word) (s : TimerRegs) :
    TimerDone (timerStepOne us s i).1 j ↔ j ∈ turnUnderflows us s i ∨ TimerDone s.1 j := by
  simp only [timerStepOne, turnUnderflows]
  by_cases stopped : s.1 (treg i 1) &&& tctlaCount = 0
  · rw [if_pos stopped, if_pos stopped]
    simp
  · rw [if_neg stopped, if_neg stopped]
    by_cases linked : s.1 (treg i 1) &&& tctlaClock = 7
    · rw [if_pos linked, if_pos linked]
      simp
    · rw [if_neg linked, if_neg linked]
      exact timerDone_timerDrain _ _ _

theorem timerDone_turns (us : Word) (timers : List (Fin 8)) (s : TimerRegs) :
    TimerDone (timers.foldl (timerStepOne us) s).1 j ↔
      j ∈ turnsUnderflows us timers s ∨ TimerDone s.1 j := by
  induction timers generalizing s with
  | nil => simp [turnsUnderflows]
  | cons i rest ih =>
    rw [List.foldl_cons, ih, turnsUnderflows, List.mem_append, timerDone_timerStepOne]
    exact or_left_comm.trans or_assoc.symm

/-- A step of the timers sets the flags of the timers that underflow in it, and no other. -/
theorem timerDone_lynxTimerStep (us : Word) (hw : Hw η) :
    TimerDone (lynxTimerStep us hw).2.mikey j ↔ j ∈ stepUnderflows us hw ∨ TimerDone hw.mikey j :=
  timerDone_turns us (List.finRange 8) (hw.mikey, hw.timer)

end Flags

section Runs

/-- Mikey with the history of its timers, the latest event first. -/
abbrev TimerRun (η : Type) := Hw η × List TimerEvent

def timerEvents : MikeyOp → Hw η → List TimerEvent
  | .write off val, _ => [.write off val]
  | .timerStep us, hw => (stepUnderflows us hw).map .underflow
  | .audioStep _, _ => []

/-- The port, with a history that it never reads -/
def recordedPort (hooks : Hooks η) : CommandMachine (TimerRun η) MikeyOp Unit where
  step op s := (((mikeyPort hooks).step op s.1).1,
    (((mikeyPort hooks).step op s.1).2, (timerEvents op s.1).reverse ++ s.2))

/-- Every TIMER_DONE flag says whether its timer has underflowed. -/
def DoneTold (s : TimerRun η) : Prop := ∀ i, TimerDone s.1.mikey i ↔ doneSince i s.2 = true

/-- A write with RESET_DONE finds TIMER_DONE clear already. -/
def NothingToReset : MikeyOp → TimerRun η → Prop
  | .write off val, s =>
    ∀ i, off = treg i 1 → val &&& tctlaResetdone ≠ 0 → ¬ TimerDone s.1.mikey i
  | .timerStep _, _ => True
  | .audioStep _, _ => True

theorem doneSince_underflows (i : Fin 8) (timers : List (Fin 8)) (past : List TimerEvent) :
    doneSince i ((timers.map .underflow).reverse ++ past) = true ↔
      i ∈ timers ∨ doneSince i past = true := by
  induction timers generalizing past with
  | nil => simp
  | cons j timers ih =>
    have split : ((j :: timers).map TimerEvent.underflow).reverse ++ past =
        (timers.map TimerEvent.underflow).reverse ++ .underflow j :: past := by simp
    rw [split, ih, List.mem_cons]
    simp only [doneSince, Bool.or_eq_true, beq_iff_eq]
    rw [@eq_comm _ j i]
    exact or_left_comm.trans or_assoc.symm

/-- A write changes the flag of a timer exactly if it goes to control B. -/
theorem timerDone_write {hooks : Hooks η} (away : FrameHookAway hooks) (off val : Byte)
    {hw : Hw η} (noHook : hw.host.txHook = false) (i : Fin 8) :
    TimerDone (lynxMikeyWrite hooks off val hw).mikey i ↔
      if off = treg i 3 then val &&& tctlbDone ≠ 0 else TimerDone hw.mikey i := by
  have below : treg i 3 < 0x40 := by
    have low : treg i 3 < 0x20 := treg_lt (by decide)
    bv_omega
  unfold TimerDone
  rw [(lynxMikeyWrite_written away off val noHook).low below]
  by_cases here : treg i 3 = off
  · rw [if_pos here, if_pos here.symm]
  · rw [if_neg here, if_neg (fun same => here same.symm)]

theorem controlA_ne_controlB {off : Byte} {i : Fin 8} (control : off = treg i 1) (j : Fin 8) :
    off ≠ treg j 3 := by
  intro same
  have fields := (treg_inj (by decide) (by decide)).mp (control.symm.trans same)
  exact absurd fields.2 (by decide)

theorem doneTold_write {hooks : Hooks η} (away : FrameHookAway hooks) (off val : Byte)
    {s : TimerRun η} (noHook : s.1.host.txHook = false) (told : DoneTold s) :
    DoneTold ((recordedPort hooks).step (.write off val) s).2 ↔
      NothingToReset (.write off val) s := by
  have flag (i : Fin 8) := timerDone_write away off val noHook i
  constructor
  · intro after i control reset done
    have other := controlA_ne_controlB control i
    have kept := (flag i).mpr ((if_neg other).mpr done)
    have cleared : doneSince i (.write off val :: s.2) = false := if_pos ⟨control, reset⟩
    exact Bool.false_ne_true (cleared.symm.trans ((after i).mp kept))
  · intro nothing i
    refine (flag i).trans ?_
    change _ ↔ doneSince i (.write off val :: s.2) = true
    rw [doneSince]
    by_cases reset : off = treg i 1 ∧ val &&& tctlaResetdone ≠ 0
    · rw [if_pos reset, if_neg (controlA_ne_controlB reset.1 i)]
      exact ⟨fun done => absurd done (nothing i reset.1 reset.2), fun h => absurd h (by decide)⟩
    · rw [if_neg reset]
      by_cases direct : off = treg i 3
      · rw [if_pos direct, if_pos direct, bne_iff_ne]
      · rw [if_neg direct, if_neg direct]
        exact told i

/-- One call leaves the flags right exactly if it has no lost reset. -/
theorem doneTold_step {hooks : Hooks η} (away : FrameHookAway hooks) (op : MikeyOp)
    {s : TimerRun η} (noHook : s.1.host.txHook = false) (told : DoneTold s) :
    DoneTold ((recordedPort hooks).step op s).2 ↔ NothingToReset op s := by
  cases op with
  | write off val => exact doneTold_write away off val noHook told
  | timerStep us =>
    refine iff_of_true (fun i => ?_) trivial
    have flag := @timerDone_lynxTimerStep _ i us s.1
    have history := doneSince_underflows i (stepUnderflows us s.1) s.2
    exact flag.trans ((or_congr_right (told i)).trans history.symm)
  | audioStep us =>
    refine iff_of_true (fun i => ?_) trivial
    have same : (lynxAudioStep us s.1).mikey (treg i 3) = s.1.mikey (treg i 3) :=
      audioStepAll_outside (.inl (treg_lt (by decide))) us (s.1.mikey, s.1.audio)
    have flag : TimerDone (lynxAudioStep us s.1).mikey i ↔ TimerDone s.1.mikey i := by
      unfold TimerDone
      rw [same]
    exact flag.trans (told i)

/-- The flags tell of the underflows in every state of a run after `lynx_mikey_init` exactly if
no write of the run has a flag to reset. -/
theorem timerDone_told_iff {hooks : Hooks η} (away : FrameHookAway hooks) (ops : List MikeyOp)
    (hw : Hw η) :
    (recordedPort hooks).Always DoneTold ops (lynxMikeyInit hw, []) ↔
      (recordedPort hooks).Permitted NothingToReset ops (lynxMikeyInit hw, []) := by
  apply @CommandMachine.always_iff_permitted _ _ _ (recordedPort hooks)
    (fun s => s.1.host.txHook = false)
  · exact fun op s noHook => mikeyPort_noHook away op noHook
  · exact fun op s noHook told => doneTold_step away op noHook told
  · rfl
  · intro i
    have clear : ¬ TimerDone (lynxMikeyInit hw).mikey i := fun done => done BitVec.zero_and
    exact iff_of_false clear Bool.false_ne_true

/-- Timer 0 underflows, and its flag is cleared through control B before the next write with
RESET_DONE. -/
theorem timerDone_told_frames :
    (recordedPort frameCounter).Always DoneTold
      [.write 0x01 0x18, .timerStep 1, .write 0x03 0x00, .write 0x01 0x58, .timerStep 2]
      (lynxMikeyInit (Hw.zeroed 0), []) := by
  apply (timerDone_told_iff frameCounter_away _ _).mpr
  refine ⟨?_, trivial, ?_, ?_, trivial, trivial⟩
  all_goals
    unfold NothingToReset
    decide +kernel

/-- Timer 0 underflows, and the write with RESET_DONE leaves its flag set. -/
theorem timerDone_not_reset :
    ¬ (recordedPort Hooks.none).Always DoneTold
      [.write 0x01 0x18, .timerStep 1, .write 0x01 0x58] (lynxMikeyInit (Hw.zeroed ()), []) := by
  intro always
  have told := always.last 0
  revert told
  decide +kernel

end Runs

end LynxRecomp
