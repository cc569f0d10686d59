import LynxRecomp.Runtime.AudioChannels
import LynxRecomp.Runtime.Exec

/-!
# Time may be split and batched

The timers and the audio channels own registers of their own, and each lets time pass in
its cascade. So the steps of the two commute, and ticks that deliver no interrupt add up.
-/

namespace LynxRecomp

variable {η : Type}

/-- The time `t` brings no phase accumulator to an overflow. -/
def PhasesFit (t : Nat) (hw : Hw η) : Prop :=
  (∀ i, (hw.timer.phase i).toNat + t < 2 ^ 32) ∧ ∀ c, (hw.audio c).phase.toNat + t < 2 ^ 32

theorem PhasesFit.mono {t t' : Nat} {hw : Hw η} (fit : PhasesFit t hw) (less : t' ≤ t) :
    PhasesFit t' hw :=
  ⟨fun i => by have small := fit.1 i; omega, fun c => by have small := fit.2 c; omega⟩

section Steps

variable {hw : Hw η} {a b : Word}

theorem lynxTimerStep_add
    (fits : ∀ i, (hw.timer.phase i).toNat + (a.toNat + b.toNat) < 2 ^ 32) :
    lynxTimerStep b (lynxTimerStep a hw).2 = lynxTimerStep (a + b) hw := by
  have split := timerStepAll_add (s := (hw.mikey, hw.timer)) fits
  unfold lynxTimerStep
  simp only [split]

theorem lynxAudioStep_add
    (fits : ∀ c, (hw.audio c).phase.toNat + (a.toNat + b.toNat) < 2 ^ 32) :
    lynxAudioStep b (lynxAudioStep a hw) = lynxAudioStep (a + b) hw := by
  have split := audioStepAll_add (s := (hw.mikey, hw.audio)) fits
  unfold lynxAudioStep
  simp only [split]

/-- The timers do not see the channels, nor the channels the timers. -/
theorem lynxTimerStep_lynxAudioStep_comm (hw : Hw η)
    (fits_a : ∀ i, (hw.timer.phase i).toNat + a.toNat < 2 ^ 32)
    (fits_b : ∀ c, (hw.audio c).phase.toNat + b.toNat < 2 ^ 32) :
    lynxAudioStep b (lynxTimerStep a hw).2 = (lynxTimerStep a (lynxAudioStep b hw)).2 := by
  have timers : timerBank (hw.mikey, hw.timer) =
      timerBank ((audioStepAll b (hw.mikey, hw.audio)).1, hw.timer) := by
    apply timerBank_eq_iff.mpr
    exact ⟨fun r below => (audioStepAll_outside (.inl below) b (hw.mikey, hw.audio)).symm, rfl⟩
  have channels : audioBank (hw.mikey, hw.audio) =
      audioBank ((timerStepAll a (hw.mikey, hw.timer)).1, hw.audio) := by
    apply audioBank_eq_iff.mpr
    exact ⟨fun r low _ => (timerStepAll_above a (hw.mikey, hw.timer) low).symm, rfl⟩
  rcases timerBank_eq_iff.mp (timerStepAll_congr fits_a timers) with ⟨low, timer⟩
  rcases audioBank_eq_iff.mp (audioStepAll_congr fits_b channels) with ⟨mid, audio⟩
  have regs : (audioStepAll b ((timerStepAll a (hw.mikey, hw.timer)).1, hw.audio)).1 =
      (timerStepAll a ((audioStepAll b (hw.mikey, hw.audio)).1, hw.timer)).1 := by
    funext r
    by_cases below : r < 0x20
    · rw [audioStepAll_outside (.inl below)]
      exact low r below
    · have above : 0x20 ≤ r := by bv_omega
      rw [timerStepAll_above a _ above]
      by_cases high : r < 0x40
      · exact (mid r above high).symm
      · have outside : r < 0x20 ∨ 0x40 ≤ r := by bv_omega
        rw [audioStepAll_outside outside, audioStepAll_outside outside,
          timerStepAll_above a _ above]
  unfold lynxTimerStep lynxAudioStep
  simp only [regs, ← timer, ← audio]

/-- A phase grows by the time passed at most. -/
theorem lynxTimerStep_phase_le (fits : ∀ i, (hw.timer.phase i).toNat + a.toNat < 2 ^ 32)
    (i : Fin 8) :
    ((lynxTimerStep a hw).2.timer.phase i).toNat ≤ (hw.timer.phase i).toNat + a.toNat := by
  rcases timerStepAll_elapsed (s := (hw.mikey, hw.timer)) fits with ⟨N, elapsed⟩
  exact elapsed.phase_le i

/-- The hardware after the steps of `lynx_tick`. -/
def tickedHw (us : Word) (hw : Hw η) : Hw η := lynxAudioStep us (lynxTimerStep us hw).2

theorem tickedHw_add (fit : PhasesFit (a.toNat + b.toNat) hw) :
    tickedHw b (tickedHw a hw) = tickedHw (a + b) hw := by
  have fits_a : PhasesFit a.toNat hw := fit.mono (Nat.le_add_right _ _)
  have fits_b (i : Fin 8) :
      ((lynxTimerStep a hw).2.timer.phase i).toNat + b.toNat < 2 ^ 32 := by
    have passed := lynxTimerStep_phase_le fits_a.1 i
    have small := fit.1 i
    omega
  have swap := lynxTimerStep_lynxAudioStep_comm (lynxTimerStep a hw).2 fits_b fits_a.2
  have audio : lynxAudioStep b (lynxAudioStep a (lynxTimerStep b (lynxTimerStep a hw).2).2) = _ :=
    lynxAudioStep_add fit.2
  unfold tickedHw
  rw [← swap, audio, lynxTimerStep_add fit.1]

end Steps

/-- `lynx_tick` delivers an interrupt. -/
def TickDelivers (m : Machine η) : Prop :=
  lynxIrqPending (tickedHw lynxTickUs m.hw) ≠ 0 ∧ m.cpu.i = 0

theorem lynxTick_quiet (hooks : Hooks η) (d : Dispatch η) {m : Machine η}
    (quiet : ¬ TickDelivers m) : lynxTick hooks d m = { m with hw := tickedHw lynxTickUs m.hw } :=
  if_neg quiet

/-- Ticks that deliver no interrupt can be made at once. -/
theorem lynxTick_iterate (hooks : Hooks η) (d : Dispatch η) {n : Nat} {m : Machine η}
    (positive : 0 < n) (fit : PhasesFit (4 * n) m.hw)
    (quiet : ∀ k < n, ¬ TickDelivers ((lynxTick hooks d)^[k] m)) :
    (lynxTick hooks d)^[n] m = { m with hw := tickedHw (BitVec.ofNat 32 (4 * n)) m.hw } := by
  induction n, positive using Nat.le_induction with
  | base => exact lynxTick_quiet hooks d (quiet 0 Nat.one_pos)
  | succ n positive ih =>
    have before := ih (fit.mono (by omega)) fun k below => quiet k (Nat.lt_succ_of_lt below)
    have small := fit.1 0
    have value : (BitVec.ofNat 32 (4 * n)).toNat = 4 * n := by
      rw [BitVec.toNat_ofNat]
      omega
    have next : BitVec.ofNat 32 (4 * (n + 1)) = BitVec.ofNat 32 (4 * n) + lynxTickUs :=
      BitVec.ofNat_add ..
    have fit' : PhasesFit ((BitVec.ofNat 32 (4 * n)).toNat + lynxTickUs.toNat) m.hw :=
      fit.mono (by rw [value]; rfl)
    have last := quiet n (Nat.lt_succ_self n)
    rw [Function.iterate_succ_apply', lynxTick_quiet hooks d last, before, tickedHw_add fit', next]

/-- Time may be split and batched, and the timers and the audio channels may be served in
either order; so ticks that deliver no interrupt can be made at once. -/
theorem time_splits (hooks : Hooks η) (d : Dispatch η) :
    (∀ (hw : Hw η) (a b : Word), PhasesFit (a.toNat + b.toNat) hw →
      lynxTimerStep b (lynxTimerStep a hw).2 = lynxTimerStep (a + b) hw ∧
      lynxAudioStep b (lynxAudioStep a hw) = lynxAudioStep (a + b) hw ∧
      lynxAudioStep b (lynxTimerStep a hw).2 = (lynxTimerStep a (lynxAudioStep b hw)).2) ∧
    ∀ (n : Nat) (m : Machine η), 0 < n → PhasesFit (4 * n) m.hw →
      (∀ k < n, ¬ TickDelivers ((lynxTick hooks d)^[k] m)) →
      (lynxTick hooks d)^[n] m =
        { m with
          hw := lynxAudioStep (BitVec.ofNat 32 (4 * n))
            (lynxTimerStep (BitVec.ofNat 32 (4 * n)) m.hw).2 } := by
  constructor
  · intro hw a b fit
    have comm := lynxTimerStep_lynxAudioStep_comm hw (fit.mono (Nat.le_add_right _ _)).1
      (fit.mono (Nat.le_add_left _ _)).2
    exact ⟨lynxTimerStep_add fit.1, lynxAudioStep_add fit.2, comm⟩
  · intro n m positive fit quiet
    exact lynxTick_iterate hooks d positive fit quiet

/-- A timer that counts microseconds, with the phase left over from a larger divider. -/
def staleTimer : Machine Unit where
  cpu := (Machine.zeroed ()).cpu
  hw :=
    { Hw.zeroed () with
      mikey := fun a => if a = 1 then 0x08 else if a = 2 then 5 else 0
      timer := { phase := fun i => if i = 0 then 3 else 0, irqLatch := 0 } }

theorem staleTimer_fit (n : Nat) (small : n < 2 ^ 31) : PhasesFit n staleTimer.hw := by
  constructor
  · intro i
    have phase : (staleTimer.hw.timer.phase i).toNat ≤ 3 := by
      revert i
      decide
    omega
  · intro c
    have phase : (staleTimer.hw.audio c).phase.toNat = 0 := rfl
    omega

theorem staleTimer_splits :
    PhasesFit ((4 : Word).toNat + (8 : Word).toNat) staleTimer.hw ∧
      lynxTimerStep 8 (lynxTimerStep 4 staleTimer.hw).2 = lynxTimerStep (4 + 8) staleTimer.hw ∧
      PhasesFit (4 * 1) staleTimer.hw ∧
      (∀ k < 1, ¬ TickDelivers ((lynxTick Hooks.none Dispatch.empty)^[k] staleTimer)) ∧
      (lynxTick Hooks.none Dispatch.empty)^[1] staleTimer =
        { staleTimer with
          hw := lynxAudioStep (BitVec.ofNat 32 (4 * 1))
            (lynxTimerStep (BitVec.ofNat 32 (4 * 1)) staleTimer.hw).2 } := by
  have fit : PhasesFit ((4 : Word).toNat + (8 : Word).toNat) staleTimer.hw :=
    staleTimer_fit _ (by decide)
  have fit' : PhasesFit (4 * 1) staleTimer.hw := staleTimer_fit _ (by decide)
  have quiet : ∀ k < 1, ¬ TickDelivers ((lynxTick Hooks.none Dispatch.empty)^[k] staleTimer) := by
    intro k below
    rw [Nat.lt_one_iff.mp below]
    have pending : lynxIrqPending (tickedHw lynxTickUs staleTimer.hw) = 0 := by decide
    exact fun delivers => delivers.1 pending
  have splits := time_splits (Hooks.none : Hooks Unit) Dispatch.empty
  exact ⟨fit, (splits.1 _ 4 8 fit).1, fit', quiet, splits.2 1 _ Nat.one_pos fit' quiet⟩

/-- A step of no time at all still counts what a phase holds. -/
theorem noTicks_not_batched :
    ¬ ∀ (n : Nat) (m : Machine Unit), PhasesFit (4 * n) m.hw →
      (∀ k < n, ¬ TickDelivers ((lynxTick Hooks.none Dispatch.empty)^[k] m)) →
      (lynxTick Hooks.none Dispatch.empty)^[n] m =
        { m with
          hw := lynxAudioStep (BitVec.ofNat 32 (4 * n))
            (lynxTimerStep (BitVec.ofNat 32 (4 * n)) m.hw).2 } := by
  intro batched
  have none := batched 0 staleTimer (staleTimer_fit _ (by decide))
    fun k below => absurd below (Nat.not_lt_zero k)
  have count := congrArg (fun m => m.hw.mikey 2) none
  revert count
  decide

end LynxRecomp
