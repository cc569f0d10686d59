import LynxRecomp.Lib.CommandMachine
import LynxRecomp.Runtime.AudioChannels
import LynxRecomp.Runtime.Mem

/-!
# Runs of Mikey: register writes and time

What a register write and a step of the timers or of the audio channels leave of the
timers, the channels and their phase accumulators, however much time a step passes.
-/

namespace LynxRecomp

open Cascade

variable {η : Type}

inductive MikeyOp where
  | write (off val : Byte)
  | timerStep (us : Word)
  | audioStep (us : Word)
  deriving DecidableEq, Repr

def mikeyPort (hooks : Hooks η) : CommandMachine (Hw η) MikeyOp Unit where
  step
    | .write off val, hw => ((), lynxMikeyWrite hooks off val hw)
    | .timerStep us, hw => ((), (lynxTimerStep us hw).2)
    | .audioStep us, hw => ((), lynxAudioStep us hw)

/-- The frame hook has no part in what the run is about: the registers, the phases of the
timers and the channels, and whether a link is attached. -/
structure FrameHookAway (hooks : Hooks η) : Prop where
  mikey : ∀ hook, hooks.frame = some hook → ∀ hw, (hook hw).mikey = hw.mikey
  phase : ∀ hook, hooks.frame = some hook → ∀ hw, (hook hw).timer.phase = hw.timer.phase
  audio : ∀ hook, hooks.frame = some hook → ∀ hw, (hook hw).audio = hw.audio
  txHook : ∀ hook, hooks.frame = some hook → ∀ hw, (hook hw).host.txHook = hw.host.txHook

/-- A host that counts frames -/
def frameCounter : Hooks Nat where
  tx _ hw := hw
  frame := some fun hw => hw.setOwn (hw.host.own + 1)

theorem frameCounter_away : FrameHookAway frameCounter := by
  constructor
  all_goals
    rintro hook ⟨⟩ hw
    rfl

/-- How often the inner loop of a step of `us` microseconds turns for a clock with divider `p`
and the phase `phase`. -/
def turns (us phase : Word) (p : Nat) : Nat := (phase + us).toNat / p

/-- A phase accumulator after the time `us` has been added, as a number -/
def charged (us : Word) (phase : Nat) : Nat := (phase + us.toNat) % 2 ^ 32

theorem charged_toNat (us phase : Word) : charged us phase.toNat = (phase + us).toNat :=
  (BitVec.toNat_add phase us).symm

section Write

/-- What a register write leaves, of what the timers and channels work on. -/
structure Written (off val : Byte) (hw hw' : Hw η) : Prop where
  mikey : hw'.mikey =
    if off = mikeyIntrst ∨ off = mikeyIntset then hw.mikey else Function.update hw.mikey off val
  phase : hw'.timer.phase = hw.timer.phase
  audio : hw'.audio = match reseedChannel off with
    | some c => (lynxAudioReseed c { hw with mikey := Function.update hw.mikey off val }).audio
    | none => hw.audio
  txHook : hw'.host.txHook = hw.host.txHook

theorem rxService_away (hw : Hw η) :
    (rxService hw).mikey = hw.mikey ∧ (rxService hw).timer.phase = hw.timer.phase ∧
      (rxService hw).audio = hw.audio ∧ (rxService hw).host = hw.host := by
  unfold rxService
  split
  · exact ⟨rfl, rfl, rfl, rfl⟩
  · exact ⟨rfl, rfl, rfl, rfl⟩

/-- Without a link, the UART changes its own variables and the interrupt latch. -/
theorem lynxSerialWrite_away (hooks : Hooks η) (off val : Byte) {hw : Hw η}
    (noHook : hw.host.txHook = false) :
    (lynxSerialWrite hooks off val hw).mikey = hw.mikey ∧
      (lynxSerialWrite hooks off val hw).timer.phase = hw.timer.phase ∧
      (lynxSerialWrite hooks off val hw).audio = hw.audio ∧
      (lynxSerialWrite hooks off val hw).host = hw.host := by
  unfold lynxSerialWrite
  by_cases transmit : off = 0x8D
  · rw [if_pos transmit]
    simp only [noHook, Bool.false_eq_true, if_false]
    split
    · exact ⟨rfl, rfl, rfl, rfl⟩
    · exact ⟨rfl, rfl, rfl, rfl⟩
  · rw [if_neg transmit]
    exact rxService_away _

theorem reseedChannel_high {off : Byte} (high : 0x40 ≤ off) : reseedChannel off = none := by
  apply if_neg
  rintro ⟨-, low, -⟩
  bv_omega

/-- Above the channels' registers no write seeds a shift register. -/
theorem written_high {off val : Byte} {hw hw' : Hw η} (high : 0x40 ≤ off)
    (mikey : hw'.mikey =
      if off = mikeyIntrst ∨ off = mikeyIntset then hw.mikey else Function.update hw.mikey off val)
    (phase : hw'.timer.phase = hw.timer.phase) (audio : hw'.audio = hw.audio)
    (txHook : hw'.host.txHook = hw.host.txHook) : Written off val hw hw' where
  mikey := mikey
  phase := phase
  audio := by
    rw [reseedChannel_high high]
    exact audio
  txHook := txHook

theorem lynxMikeyWrite_written {hooks : Hooks η} (away : FrameHookAway hooks) (off val : Byte)
    {hw : Hw η} (noHook : hw.host.txHook = false) :
    Written off val hw (lynxMikeyWrite hooks off val hw) := by
  unfold lynxMikeyWrite
  simp only
  by_cases intrst : off = mikeyIntrst
  · rw [if_pos intrst]
    exact written_high (intrst ▸ by decide) (if_pos (.inl intrst)).symm rfl rfl rfl
  rw [if_neg intrst]
  by_cases intset : off = mikeyIntset
  · rw [if_pos intset]
    exact written_high (intset ▸ by decide) (if_pos (.inr intset)).symm rfl rfl rfl
  rw [if_neg intset]
  have plain : ¬ (off = mikeyIntrst ∨ off = mikeyIntset) := not_or.mpr ⟨intrst, intset⟩
  by_cases flip : off = mikeyDispadrh
  · have high : 0x40 ≤ off := flip ▸ (by decide)
    rw [if_pos flip]
    cases frame : hooks.frame with
    | none => exact written_high high (if_neg plain).symm rfl rfl rfl
    | some hook =>
      apply written_high high
      · rw [away.mikey hook frame, if_neg plain]
      · rw [away.phase hook frame]
      · rw [away.audio hook frame]
      · rw [away.txHook hook frame]
  rw [if_neg flip]
  by_cases uart : off = mikeySerctl ∨ off = mikeySerdat
  · have high : 0x40 ≤ off := by rcases uart with rfl | rfl <;> decide
    rw [if_pos uart]
    rcases @lynxSerialWrite_away _ hooks off val
      { hw with mikey := Function.update hw.mikey off val } noHook
      with ⟨mikey, phase, audio, host⟩
    exact written_high high (mikey.trans (if_neg plain).symm) phase audio
      (congrArg Host.txHook host)
  rw [if_neg uart]
  cases reseed : reseedChannel off with
  | none =>
    refine ⟨(if_neg plain).symm, rfl, ?_, rfl⟩
    rw [reseed]
  | some c =>
    refine ⟨(if_neg plain).symm, rfl, ?_, rfl⟩
    rw [reseed]

namespace Written

variable {off val : Byte} {hw hw' : Hw η}

theorem low (written : Written off val hw hw') {a : Byte} (low : a < 0x40) :
    hw'.mikey a = if a = off then val else hw.mikey a := by
  rw [written.mikey]
  split
  · rename_i special
    have other : a ≠ off := by
      rintro rfl
      rcases special with rfl | rfl
      · exact absurd low (by decide)
      · exact absurd low (by decide)
    rw [if_neg other]
  · exact Function.update_apply ..

/-- A channel keeps all its variables, or all but the shift register, which is seeded. -/
theorem channel (written : Written off val hw hw') (c : Fin 4) :
    hw'.audio c = hw.audio c ∨ ∃ lo other : Byte, hw'.audio c =
      { hw.audio c with lfsr := lo.setWidth 16 ||| (other >>> 4).setWidth 16 <<< 8 } := by
  have audio := congrFun written.audio c
  cases reseed : reseedChannel off with
  | none =>
    rw [reseed] at audio
    exact .inl audio
  | some d =>
    rw [reseed] at audio
    by_cases here : c = d
    · subst here
      exact .inr ⟨_, _, audio.trans (Function.update_self ..)⟩
    · exact .inl (audio.trans (Function.update_of_ne here ..))

theorem channelPhase (written : Written off val hw hw') (c : Fin 4) :
    (hw'.audio c).phase = (hw.audio c).phase := by
  rcases written.channel c with same | ⟨lo, other, seeded⟩
  · rw [same]
  · rw [seeded]

end Written

end Write

section Timers

variable {us : Word} {s : TimerRegs} {i : Fin 8}

/-- A timer with its phase -/
def timerAt (i : Fin 8) (s : TimerRegs) : TimerCell × Nat := (timerCell s i, (s.2.phase i).toNat)

/-- A timer that is not linked is not driven by any other. -/
theorem unlinked_alone {linked : Fin 8 → Bool} (unlinked : linked i = false) (j : Fin 8) :
    (timerChain linked).next j ≠ some i := by
  intro drives
  have follows := (Option.filter_eq_some_iff.mp drives).2
  rw [unlinked] at follows
  cases follows

/-- A turn of the outer loop of `lynx_timer_step`, seen from a timer that is not linked. -/
theorem timerStepOne_at (unlinked : (timerCell s i).linked = false) (j : Fin 8) :
    timerAt i (timerStepOne us s j) =
      if j = i then serve TimerCell.period TimerCell.counted (charged us) (timerAt i s)
      else timerAt i s := by
  cases period : (timerCell s j).period with
  | none =>
    rw [timerStepOne_none period]
    split
    · rename_i here
      subst here
      exact (serve_none period).symm
    · rfl
  | some p =>
    rcases timerStepOne_some (timerCell_linked s) us period with ⟨N, moves, phases⟩
    rw [← charged_toNat] at moves phases
    have alone : countsLinked s.1 i = false := unlinked
    exact @Moves.serve_at _ _ _ _ _ _ (timerBank s) (timerBank (timerStepOne us s j)) _ _ _ _ _
      period moves phases (unlinked_alone alone)

/-- The cell of a timer -/
def Hw.timerCell (hw : Hw η) (i : Fin 8) : TimerCell := LynxRecomp.timerCell (hw.mikey, hw.timer) i

/-- A timer that counts by itself makes the turns of its loop, and is left below its divider. -/
theorem lynxTimerStep_free (us : Word) (hw : Hw η) {i : Fin 8} {p : Nat}
    (free : divider (hw.mikey (treg i 1)) = some p) :
    (lynxTimerStep us hw).2.timerCell i =
        TimerCell.counted^[turns us (hw.timer.phase i) p] (hw.timerCell i) ∧
      ((lynxTimerStep us hw).2.timer.phase i).toNat = (hw.timer.phase i + us).toNat % p := by
  have unlinked : (hw.timerCell i).linked = false := by
    have clock := (divider_some free).2.1
    unfold TimerCell.linked
    rw [Bool.and_eq_false_iff]
    exact .inr (beq_eq_false_iff_ne.mpr clock)
  have period : (hw.timerCell i).period = some p := free
  have loop : timerAt i (timerStepAll us (hw.mikey, hw.timer)) =
      serve TimerCell.period TimerCell.counted (charged us) (timerAt i (hw.mikey, hw.timer)) := by
    apply @foldl_turn _ _ _ _ (fun x => x.1.linked = false)
    case own => exact fun s alone => (timerStepOne_at alone i).trans (if_pos rfl)
    case other => exact fun s j other alone => (timerStepOne_at alone j).trans (if_neg other)
    case kept => exact fun x => serve_kept fun a h => (TimerCell.counted_linked a).trans h
    case nodup => exact List.nodup_finRange 8
    case member => exact List.mem_finRange i
    case holds => exact unlinked
  have served := loop.trans (serve_some period)
  rw [charged_toNat] at served
  exact Prod.ext_iff.mp served

theorem timerControl_kept (i : Fin 8) (ctl : Byte) :
    KeptByCounts fun s => s.1 (treg i 1) = ctl where
  underflow j s h := by
    rw [underflow_reg j i s (by decide), if_neg (fun hit => absurd hit.2 (by decide)),
      if_neg (fun hit => absurd hit.2.1 (by decide))]
    exact h
  decrement j s h := by
    refine (update_treg _ _ _ (by decide) (by decide) _).trans ?_
    rw [if_neg (fun hit => absurd hit.2 (by decide))]
    exact h

theorem lynxTimerStep_control (us : Word) (hw : Hw η) (i : Fin 8) :
    (lynxTimerStep us hw).2.mikey (treg i 1) = hw.mikey (treg i 1) :=
  (timerControl_kept i _).timerStepAll (fun _ _ _ kept => kept) us rfl

end Timers

section Channels

variable {us : Word} {s : AudioRegs} {c : Fin 4}

/-- A channel with its phase -/
def channelAt (c : Fin 4) (s : AudioRegs) : AudioCell × Nat :=
  (audioCell s c, (s.2 c).phase.toNat)

/-- A turn of the outer loop of `lynx_audio_step`, seen from a channel. -/
theorem audioStepOne_at (d : Fin 4) :
    channelAt c (audioStepOne us s d) =
      if d = c then serve AudioCell.period AudioCell.counted (charged us) (channelAt c s)
      else channelAt c s := by
  cases period : (audioCell s d).period with
  | none =>
    rw [audioStepOne_none period]
    split
    · rename_i here
      subst here
      exact (serve_none period).symm
    · rfl
  | some p =>
    rcases audioStepOne_some us period with ⟨N, moves, phases⟩
    rw [← charged_toNat] at moves phases
    exact @Moves.serve_at _ _ _ _ _ _ (audioBank s) (audioBank (audioStepOne us s d)) _ _ _ _ _
      period moves phases fun _ drives => Option.some_ne_none c drives.symm

theorem lynxAudioStep_at (us : Word) (hw : Hw η) (c : Fin 4) :
    channelAt c ((lynxAudioStep us hw).mikey, (lynxAudioStep us hw).audio) =
      serve AudioCell.period AudioCell.counted (charged us) (channelAt c (hw.mikey, hw.audio)) := by
  apply @foldl_turn _ _ _ _ (fun _ => True)
  case own => exact fun s _ => (audioStepOne_at c).trans (if_pos rfl)
  case other => exact fun s d other _ => (audioStepOne_at d).trans (if_neg other)
  case kept => exact fun _ _ => trivial
  case nodup => exact List.nodup_finRange 4
  case member => exact List.mem_finRange c
  case holds => trivial

/-- The cell of a channel -/
def Hw.channel (hw : Hw η) (c : Fin 4) : AudioCell := audioCell (hw.mikey, hw.audio) c

/-- A channel that counts makes the turns of its loop, and is left below its divider. -/
theorem lynxAudioStep_free (us : Word) (hw : Hw η) {c : Fin 4} {p : Nat}
    (free : divider (hw.mikey (aregAddr c aControl)) = some p) :
    (lynxAudioStep us hw).channel c =
        AudioCell.counted^[turns us (hw.audio c).phase p] (hw.channel c) ∧
      ((lynxAudioStep us hw).audio c).phase.toNat = ((hw.audio c).phase + us).toNat % p := by
  have period : (hw.channel c).period = some p := free
  have served := (lynxAudioStep_at us hw c).trans (serve_some period)
  rw [charged_toNat] at served
  exact Prod.ext_iff.mp served

theorem lynxAudioStep_idle (us : Word) (hw : Hw η) {c : Fin 4}
    (idle : divider (hw.mikey (aregAddr c aControl)) = none) :
    (lynxAudioStep us hw).channel c = hw.channel c := by
  have period : (hw.channel c).period = none := idle
  exact congrArg Prod.fst ((lynxAudioStep_at us hw c).trans (serve_none period))

/-- How often a channel counts in a step of `us` microseconds. -/
def channelTurns (us : Word) (hw : Hw η) (c : Fin 4) : Nat :=
  (divider (hw.mikey (aregAddr c aControl))).elim 0 (turns us (hw.audio c).phase)

theorem channel_audioStep (us : Word) (hw : Hw η) (c : Fin 4) :
    (lynxAudioStep us hw).channel c =
      AudioCell.counted^[channelTurns us hw c] (hw.channel c) := by
  unfold channelTurns
  cases free : divider (hw.mikey (aregAddr c aControl)) with
  | none => exact lynxAudioStep_idle us hw free
  | some p => exact (lynxAudioStep_free us hw free).1

theorem channel_timerStep (us : Word) (hw : Hw η) (c : Fin 4) :
    (lynxTimerStep us hw).2.channel c = hw.channel c := by
  have above (f : Fin 8) : (lynxTimerStep us hw).2.mikey (aregAddr c f) = hw.mikey (aregAddr c f) :=
    timerStepAll_above us (hw.mikey, hw.timer) (aregAddr_range c f).1
  ext1
  case reg => exact funext above
  all_goals rfl

theorem lynxTimerStep_channelControl (us : Word) (hw : Hw η) (c : Fin 4) :
    (lynxTimerStep us hw).2.mikey (aregAddr c aControl) = hw.mikey (aregAddr c aControl) :=
  timerStepAll_above us (hw.mikey, hw.timer) (aregAddr_range c 5).1

theorem lynxAudioStep_control (us : Word) (hw : Hw η) (c : Fin 4) :
    (lynxAudioStep us hw).mikey (aregAddr c aControl) = hw.mikey (aregAddr c aControl) := by
  have control (n : Nat) (x : AudioCell) : (AudioCell.counted^[n] x).reg 5 = x.reg 5 :=
    Function.Iterate.rec (fun y : AudioCell => y.reg 5 = x.reg 5) rfl
      (fun y same => y.counted_control.trans same) n
  have step := congrArg (fun x => x.reg 5) (channel_audioStep us hw c)
  exact step.trans (control _ _)

theorem lynxAudioStep_timerControl (us : Word) (hw : Hw η) (i : Fin 8) :
    (lynxAudioStep us hw).mikey (treg i 1) = hw.mikey (treg i 1) :=
  audioStepAll_outside (.inl (treg_lt (by decide))) us (hw.mikey, hw.audio)

end Channels

/-- No link is attached after `lynx_mikey_init`, and none is later. -/
theorem mikeyPort_noHook {hooks : Hooks η} (away : FrameHookAway hooks) (op : MikeyOp) {hw : Hw η}
    (noHook : hw.host.txHook = false) :
    ((mikeyPort hooks).step op hw).2.host.txHook = false := by
  cases op with
  | write off val => exact (lynxMikeyWrite_written away off val noHook).txHook.trans noHook
  | timerStep us => exact noHook
  | audioStep us => exact noHook

end LynxRecomp
