import LynxRecomp.Runtime.MikeyRuns

/-!
# Clocks and their dividers

A phase accumulator is meant to hold less than a count. A step keeps it so, and a register
write does unless it sets a divider that the phase has already passed.
-/

namespace LynxRecomp

open Cascade

variable {η : Type}

/-- The phase of every clock is below the divider in force. -/
structure PhasesBelow (hw : Hw η) : Prop where
  timer : ∀ i p, divider (hw.mikey (treg i 1)) = some p → (hw.timer.phase i).toNat < p
  channel : ∀ c p, divider (hw.mikey (aregAddr c aControl)) = some p →
    (hw.audio c).phase.toNat < p

/-- A step of `us` microseconds counts at most once more than the time holds the divider. -/
structure KeepsPace (us : Word) (hw : Hw η) : Prop where
  timer : ∀ i p, divider (hw.mikey (treg i 1)) = some p →
    turns us (hw.timer.phase i) p ≤ us.toNat / p + 1 ∧
      (lynxTimerStep us hw).2.timerCell i =
        TimerCell.counted^[turns us (hw.timer.phase i) p] (hw.timerCell i)
  channel : ∀ c p, divider (hw.mikey (aregAddr c aControl)) = some p →
    turns us (hw.audio c).phase p ≤ us.toNat / p + 1 ∧
      (lynxAudioStep us hw).channel c =
        AudioCell.counted^[turns us (hw.audio c).phase p] (hw.channel c)

/-- The write sets no divider that the phase of its clock has already passed. -/
def DividerFits : MikeyOp → Hw η → Prop
  | .write off val, hw => ∀ p ∈ divider val,
      (∀ i, off = treg i 1 → (hw.timer.phase i).toNat < p) ∧
        ∀ c, off = aregAddr c aControl → (hw.audio c).phase.toNat < p
  | .timerStep _, _ => True
  | .audioStep _, _ => True

instance (op : MikeyOp) (hw : Hw η) : Decidable (DividerFits op hw) :=
  match op with
  | .write _ val => inferInstanceAs (Decidable (∀ p ∈ divider val, _ ∧ _))
  | .timerStep _ => inferInstanceAs (Decidable True)
  | .audioStep _ => inferInstanceAs (Decidable True)

theorem turns_le {us phase : Word} {p : Nat} (below : phase.toNat < p) :
    turns us phase p ≤ us.toNat / p + 1 := by
  have wrapped : (phase + us).toNat ≤ phase.toNat + us.toNat := by
    rw [BitVec.toNat_add]
    exact Nat.mod_le _ _
  calc turns us phase p ≤ (phase.toNat + us.toNat) / p := Nat.div_le_div_right wrapped
    _ ≤ us.toNat / p + 1 := div_le_of_below below _

theorem PhasesBelow.keepsPace {hw : Hw η} (below : PhasesBelow hw) (us : Word) :
    KeepsPace us hw where
  timer i p free := ⟨turns_le (below.timer i p free), (lynxTimerStep_free us hw free).1⟩
  channel c p free := ⟨turns_le (below.channel c p free), (lynxAudioStep_free us hw free).1⟩

theorem Written.phasesBelow_iff {off val : Byte} {hw hw' : Hw η} (written : Written off val hw hw')
    (below : PhasesBelow hw) : PhasesBelow hw' ↔ DividerFits (.write off val) hw := by
  have timer (i : Fin 8) := written.low (Nat.lt_trans (@treg_lt i 1 (by decide)) (by decide))
  have channel (c : Fin 4) : hw'.mikey (aregAddr c aControl) =
      if aregAddr c aControl = off then val else hw.mikey (aregAddr c aControl) :=
    written.low (aregAddr_range c 5).2
  constructor
  · intro after p free
    constructor
    · rintro i rfl
      have set_ := timer i
      rw [if_pos rfl] at set_
      have small := after.timer i p (set_.symm ▸ free)
      rwa [written.phase] at small
    · rintro c rfl
      have set_ := channel c
      rw [if_pos rfl] at set_
      have small := after.channel c p (set_.symm ▸ free)
      rwa [written.channelPhase] at small
  · intro fits
    constructor
    · intro i p free
      rw [written.phase]
      rw [timer i] at free
      split at free
      · rename_i here
        exact (fits p free).1 i here.symm
      · exact below.timer i p free
    · intro c p free
      rw [written.channelPhase]
      rw [channel c] at free
      split at free
      · rename_i here
        exact (fits p free).2 c here.symm
      · exact below.channel c p free

/-- Exactly the writes that `DividerFits` excludes leave a phase that the divider has passed. -/
theorem mikeyPort_phasesBelow_iff {hooks : Hooks η} (away : FrameHookAway hooks) (op : MikeyOp)
    {hw : Hw η} (noHook : hw.host.txHook = false) (below : PhasesBelow hw) :
    PhasesBelow ((mikeyPort hooks).step op hw).2 ↔ DividerFits op hw := by
  cases op with
  | write off val => exact (lynxMikeyWrite_written away off val noHook).phasesBelow_iff below
  | timerStep us =>
    refine iff_of_true ⟨?_, ?_⟩ trivial
    · intro i p free
      change divider ((lynxTimerStep us hw).2.mikey (treg i 1)) = some p at free
      rw [lynxTimerStep_control] at free
      have left := (lynxTimerStep_free us hw free).2
      exact left.trans_lt (Nat.mod_lt _ (divider_pos free))
    · intro c p free
      change divider ((lynxTimerStep us hw).2.mikey (aregAddr c aControl)) = some p at free
      rw [lynxTimerStep_channelControl] at free
      exact below.channel c p free
  | audioStep us =>
    refine iff_of_true ⟨?_, ?_⟩ trivial
    · intro i p free
      change divider ((lynxAudioStep us hw).mikey (treg i 1)) = some p at free
      rw [lynxAudioStep_timerControl] at free
      exact below.timer i p free
    · intro c p free
      change divider ((lynxAudioStep us hw).mikey (aregAddr c aControl)) = some p at free
      rw [lynxAudioStep_control] at free
      have left := (lynxAudioStep_free us hw free).2
      exact left.trans_lt (Nat.mod_lt _ (divider_pos free))

/-- From `lynx_mikey_init` on, no clock of a run ever carries a whole count into a step, and so
none races, exactly if no register write of the run sets a divider that the phase of its clock
has already passed. -/
theorem clocks_keepPace_iff (hooks : Hooks η) (away : FrameHookAway hooks) (hw : Hw η)
    (ops : List MikeyOp) :
    (mikeyPort hooks).Always (fun hw => PhasesBelow hw ∧ ∀ us, KeepsPace us hw) ops
        (lynxMikeyInit hw) ↔
      (mikeyPort hooks).Permitted DividerFits ops (lynxMikeyInit hw) := by
  have start : PhasesBelow (lynxMikeyInit hw) := by
    constructor
    · intro i p free
      exact divider_pos free
    · intro c p free
      exact divider_pos free
  rw [← CommandMachine.always_iff_permitted (I := fun hw => hw.host.txHook = false)
    (fun op _ => mikeyPort_noHook away op)
    (fun op _ noHook below => mikeyPort_phasesBelow_iff away op noHook below) rfl start]
  constructor
  · exact CommandMachine.Always.mono fun _ both => both.1
  · exact CommandMachine.Always.mono fun _ below => ⟨below, below.keepsPace⟩

/-- Timer 0 counts every 64 microseconds; 63 have passed when its divider becomes `val`. -/
def reprogrammed (val : Byte) : List MikeyOp :=
  [.write 0x01 0x0E, .timerStep 63, .write 0x01 val, .write mikeyDispadrh 0x20, .audioStep 4]

theorem reprogrammed_keepsPace :
    FrameHookAway frameCounter ∧
      (mikeyPort frameCounter).Permitted DividerFits (reprogrammed 0x8E)
        (lynxMikeyInit (Hw.zeroed 0)) ∧
      (mikeyPort frameCounter).Always (fun hw => PhasesBelow hw ∧ ∀ us, KeepsPace us hw)
        (reprogrammed 0x8E) (lynxMikeyInit (Hw.zeroed 0)) := by
  have fits : (mikeyPort frameCounter).Permitted DividerFits (reprogrammed 0x8E)
      (lynxMikeyInit (Hw.zeroed 0)) := by
    refine ⟨by decide, trivial, by decide, by decide, trivial, trivial⟩
  have pace := clocks_keepPace_iff frameCounter frameCounter_away (Hw.zeroed 0)
    (reprogrammed 0x8E)
  exact ⟨frameCounter_away, fits, pace.mpr fits⟩

/-- Set to count microseconds, the timer counts 63 times in no time. -/
theorem reprogrammed_races :
    ¬ (mikeyPort frameCounter).Always PhasesBelow (reprogrammed 0x08)
        (lynxMikeyInit (Hw.zeroed 0)) ∧
      ¬ (mikeyPort frameCounter).Always (fun hw => ∀ us, KeepsPace us hw) (reprogrammed 0x08)
        (lynxMikeyInit (Hw.zeroed 0)) := by
  constructor
  · intro always
    have below := always.last.timer 0 1 (by decide)
    revert below
    decide
  · intro always
    have turns := (always.last 0).timer 0 1 (by decide)
    have most := turns.1
    revert most
    decide

end LynxRecomp
