import LynxRecomp.Lib.Cascade
import LynxRecomp.Runtime.Audio
import LynxRecomp.Runtime.TimerChain

/-!
# The audio channels as a cascade without links

Each channel owns eight registers, its shift register and its DAC, and counts for itself.
-/

namespace LynxRecomp

open Cascade

/-- What a channel owns, but for its phase. The registers have the numbers of `audio.c`:
0 volume, 1 feedback, 2 DAC, 4 reload, 5 control, 6 count. -/
@[ext]
structure AudioCell where
  reg : Fin 8 → Byte
  lfsr : BitVec 16
  pad : BitVec 16
  dac : Word

namespace AudioCell

def setReg (f : Fin 8) (v : Byte) (x : AudioCell) : AudioCell :=
  { x with reg := Function.update x.reg f v }

/-- A clock of the shift register. -/
def clocked (x : AudioCell) : AudioCell :=
  let r := feedbackBit (feedbackSwitches (x.reg 5) (x.reg 1)) x.lfsr
  let lfsr := (x.lfsr <<< 1 ||| r) &&& 0x0FFF
  let vol : Word := (x.reg 0).signExtend 32
  let dac := dacLevel (x.reg 5 &&& actlIntegrate != 0) x.dac vol (lfsr &&& 1 != 0)
  setReg 2 (dac.setWidth 8) { x with lfsr := lfsr, dac := dac }

/-- One count -/
def counted (x : AudioCell) : AudioCell :=
  if x.reg 6 = 0 then
    (if x.reg 5 &&& actlReload ≠ 0 then setReg 6 (x.reg 4) x else x).clocked
  else setReg 6 (x.reg 6 - 1) x

/-- The divider of a channel that is on and not linked, in microseconds. -/
def period (x : AudioCell) : Option Nat :=
  if x.reg 5 &&& actlCount = 0 then none
  else if x.reg 5 &&& actlClock = 7 then none
  else some (2 ^ (x.reg 5 &&& actlClock).toNat)

theorem counted_control (x : AudioCell) : x.counted.reg 5 = x.reg 5 := by
  simp only [counted]
  split
  · split
    · simp [clocked, setReg]
    · simp [clocked, setReg]
  · simp [setReg]

theorem counted_period (x : AudioCell) : x.counted.period = x.period := by
  rw [period, counted_control]
  rfl

end AudioCell

def audioChannels : Cascade (Fin 4) AudioCell where
  step := AudioCell.counted
  carry _ := false
  next _ := none

theorem audioChannels_acyclic (i j : Fin 4) (drives : audioChannels.next i = some j) :
    (0 : Nat) < 0 := (Option.some_ne_none j drives.symm).elim

theorem aregAddr_inj {c d : Fin 4} {f g : Fin 8} :
    aregAddr c f = aregAddr d g ↔ c = d ∧ f = g := by
  have hc := c.isLt
  have hd := d.isLt
  have hf := f.isLt
  have hg := g.isLt
  unfold aregAddr
  constructor
  · intro same
    have values := congrArg BitVec.toNat same
    simp only [BitVec.toNat_ofNat] at values
    constructor <;> omega
  · rintro ⟨rfl, rfl⟩
    rfl

/-- The registers of the channels are the 32 after those of the timers. -/
theorem aregAddr_range (c : Fin 4) (f : Fin 8) : 0x20 ≤ aregAddr c f ∧ aregAddr c f < 0x40 := by
  have hc := c.isLt
  have hf := f.isLt
  unfold aregAddr
  constructor <;> bv_omega

theorem exists_aregAddr {a : Byte} (low : 0x20 ≤ a) (high : a < 0x40) :
    ∃ (c : Fin 4) (f : Fin 8), a = aregAddr c f := by
  have small : a.toNat < 0x40 := high
  have large : 0x20 ≤ a.toNat := low
  refine ⟨⟨(a.toNat - 0x20) / 8, by omega⟩, ⟨a.toNat % 8, by omega⟩, ?_⟩
  unfold aregAddr
  simp only
  bv_omega

def audioCell (s : AudioRegs) (c : Fin 4) : AudioCell where
  reg f := areg c f s
  lfsr := (s.2 c).lfsr
  pad := (s.2 c).pad
  dac := (s.2 c).dac

section Count

variable (c : Fin 4) (s : AudioRegs)

theorem audioCell_asetreg (f : Fin 8) (v : Byte) :
    audioCell (asetreg c f v s) = Function.update (audioCell s) c ((audioCell s c).setReg f v) := by
  funext d
  by_cases same : d = c
  · subst same
    rw [Function.update_self]
    ext1
    case reg =>
      funext g
      simp [audioCell, AudioCell.setReg, areg, asetreg, Function.update_apply, aregAddr_inj]
    all_goals rfl
  · rw [Function.update_of_ne same]
    ext1
    case reg =>
      funext g
      simp [audioCell, areg, asetreg, aregAddr_inj, same]
    all_goals rfl

theorem audioCell_setChannel (ch : AudCh) :
    audioCell (setChannel c ch s) = Function.update (audioCell s) c
      { audioCell s c with lfsr := ch.lfsr, pad := ch.pad, dac := ch.dac } := by
  funext d
  by_cases same : d = c
  · subst same
    rw [Function.update_self]
    simp [audioCell, setChannel, areg]
  · rw [Function.update_of_ne same]
    simp [audioCell, setChannel, areg, same]

theorem audioCell_clockLfsr :
    audioCell (clockLfsr c s) = Function.update (audioCell s) c (audioCell s c).clocked := by
  unfold clockLfsr
  simp only
  rw [show aDac = ((2 : Fin 8) : Nat) from rfl, audioCell_asetreg, audioCell_setChannel,
    Function.update_self, Function.update_idem]
  rfl

theorem audioCell_count :
    audioCell (audioCount c s) = Function.update (audioCell s) c (audioCell s c).counted := by
  unfold audioCount
  simp only
  by_cases zero : areg c aCount s = 0
  · have counted : (audioCell s c).counted = _ := if_pos zero
    rw [if_pos zero, counted, audioCell_clockLfsr]
    by_cases reload : areg c aControl s &&& actlReload ≠ 0
    · have reload' : (audioCell s c).reg 5 &&& actlReload ≠ 0 := reload
      rw [if_pos reload, if_pos reload', show aCount = ((6 : Fin 8) : Nat) from rfl,
        audioCell_asetreg, Function.update_self, Function.update_idem]
      rfl
    · have reload' : ¬ (audioCell s c).reg 5 &&& actlReload ≠ 0 := reload
      rw [if_neg reload, if_neg reload']
  · have counted : (audioCell s c).counted = _ := if_neg zero
    rw [if_neg zero, counted, show aCount = ((6 : Fin 8) : Nat) from rfl, audioCell_asetreg]
    rfl

theorem audioCount_phase (d : Fin 4) : ((audioCount c s).2 d).phase = (s.2 d).phase := by
  have clock (s : AudioRegs) : ((clockLfsr c s).2 d).phase = (s.2 d).phase := by
    by_cases same : d = c
    · subst same
      simp [clockLfsr, asetreg, setChannel]
    · simp [clockLfsr, asetreg, setChannel, same]
  unfold audioCount
  simp only
  split
  · rw [clock]
    split <;> rfl
  · rfl

variable {c s} {a : Byte}

theorem asetreg_outside (outside : a < 0x20 ∨ 0x40 ≤ a) (f : Fin 8) (v : Byte) :
    (asetreg c f v s).1 a = s.1 a := by
  apply Function.update_of_ne
  rintro rfl
  have range := aregAddr_range c f
  bv_omega

theorem audioCount_outside (outside : a < 0x20 ∨ 0x40 ≤ a) : (audioCount c s).1 a = s.1 a := by
  have clock (s : AudioRegs) : (clockLfsr c s).1 a = s.1 a := asetreg_outside outside 2 _
  unfold audioCount
  simp only
  split
  · rw [clock]
    split
    · exact asetreg_outside outside 6 _
    · rfl
  · exact asetreg_outside outside 6 _

theorem audioDrain_outside (outside : a < 0x20 ∨ 0x40 ≤ a) (period : Word) (n : Nat) :
    (audioDrain c period n s).1 a = s.1 a := by
  induction n generalizing s with
  | zero => rfl
  | succ n ih =>
    rw [audioDrain]
    split
    · rw [ih, audioCount_outside outside]
      rfl
    · rfl

/-- The other registers belong to no channel. -/
theorem audioStepAll_outside (outside : a < 0x20 ∨ 0x40 ≤ a) (us : Word) (s : AudioRegs) :
    (audioStepAll us s).1 a = s.1 a := by
  have start : s.1 a = s.1 a := rfl
  apply List.foldlRecOn (motive := fun s' => s'.1 a = s.1 a) (List.finRange 4) (audioStepOne us)
    start
  intro s' kept c _
  unfold audioStepOne
  simp only
  split
  · exact kept
  · split
    · exact kept
    · rw [audioDrain_outside outside]
      exact kept

end Count

/-- The channels with the time since the last count of each. -/
def audioBank (s : AudioRegs) : Bank (Fin 4) AudioCell where
  cells := audioCell s
  phase c := (s.2 c).phase.toNat

section Step

variable {c : Fin 4} {s : AudioRegs}

theorem audioBank_setPhase (c : Fin 4) (p : Word) (s : AudioRegs) :
    (audioBank (setChannel c { s.2 c with phase := p } s)).phase =
      Function.update (audioBank s).phase c p.toNat := by
  funext d
  by_cases same : d = c
  · subst same
    simp [audioBank, setChannel]
  · simp [audioBank, setChannel, same]

theorem audioCell_setPhase (c : Fin 4) (p : Word) (s : AudioRegs) :
    audioCell (setChannel c { s.2 c with phase := p } s) = audioCell s := by
  rw [audioCell_setChannel]
  exact Function.update_eq_self c (audioCell s)

/-- Counts as often as the divider fits into the phase, and leaves the rest of the phase. -/
theorem audioDrain_moves {period : Word} (positive : 0 < period.toNat) {n : Nat}
    (enough : (s.2 c).phase.toNat ≤ n) :
    ∃ N, audioChannels.Moves (Pi.single c ((s.2 c).phase.toNat / period.toNat)) 0 N
        (audioCell s) (audioCell (audioDrain c period n s)) ∧
      (audioBank (audioDrain c period n s)).phase =
        Function.update (audioBank s).phase c ((s.2 c).phase.toNat % period.toNat) := by
  apply drained audioBank (fun _ => True) (audioDrain c period) positive (fun _ => rfl)
  case due =>
    intro n s _ due
    have less : ((s.2 c).phase - period).toNat = (s.2 c).phase.toNat - period.toNat :=
      BitVec.toNat_sub_of_le due
    refine ⟨_, Pi.single c 1, if_pos due, trivial, ?_, ?_⟩
    · change audioChannels.Moves _ _ _ (audioCell s) (audioCell (audioCount c _))
      rw [audioCell_count, audioCell_setPhase]
      exact moves_step_quiet (.inr rfl)
    · have kept : (audioBank (audioCount c
          (setChannel c { s.2 c with phase := (s.2 c).phase - period } s))).phase =
          (audioBank (setChannel c { s.2 c with phase := (s.2 c).phase - period } s)).phase :=
        funext fun d => congrArg BitVec.toNat (audioCount_phase c _ d)
      rw [kept, audioBank_setPhase, less]
      rfl
  case done =>
    intro n s below
    exact if_neg (Nat.not_le_of_lt below)
  case holds => trivial
  case enough => exact enough

theorem audioStepOne_none {us : Word} (idle : (audioCell s c).period = none) :
    audioStepOne us s c = s := by
  unfold audioStepOne
  simp only
  by_cases stopped : areg c aControl s &&& actlCount = 0
  · rw [if_pos stopped]
  rw [if_neg stopped]
  by_cases link : areg c aControl s &&& actlClock = 7
  · rw [if_pos link]
  have free : (audioCell s c).period = some _ := (if_neg stopped).trans (if_neg link)
  rw [free] at idle
  cases idle

/-- One turn of the outer loop of `lynx_audio_step`, for a channel with the divider `p`: the
counts are as many as fit into the phase, which has wrapped around if it had to. -/
theorem audioStepOne_some (us : Word) {p : Nat} (free : (audioCell s c).period = some p) :
    ∃ N, audioChannels.Moves (Pi.single c (((s.2 c).phase + us).toNat / p)) 0 N (audioCell s)
        (audioCell (audioStepOne us s c)) ∧
      (audioBank (audioStepOne us s c)).phase =
        Function.update (audioBank s).phase c (((s.2 c).phase + us).toNat % p) := by
  rcases divider_some free with ⟨counts, unlinked, value⟩
  have divider := (divider_toNat _ (clock_le (areg c aControl s))).trans value
  have phase : ((setChannel c { s.2 c with phase := (s.2 c).phase + us } s).2 c).phase =
      (s.2 c).phase + us := by simp [setChannel]
  have loops : audioStepOne us s c = _ := (if_neg counts).trans (if_neg unlinked)
  rcases @audioDrain_moves c (setChannel c { s.2 c with phase := (s.2 c).phase + us } s) _
    (divider ▸ value ▸ Nat.two_pow_pos _) _ (Nat.le_of_eq (congrArg BitVec.toNat phase))
    with ⟨N, moves, phases⟩
  rw [phase, divider] at moves phases
  rw [audioBank_setPhase, Function.update_idem] at phases
  rw [audioCell_setPhase] at moves
  rw [loops]
  exact ⟨N, moves, phases⟩

/-- One turn of the outer loop of `lynx_audio_step`. -/
theorem audioStepOne_turn {us : Word} (fits : (s.2 c).phase.toNat + us.toNat < 2 ^ 32) :
    ∃ N, audioChannels.Turn AudioCell.period us.toNat c (audioBank s)
      (audioBank (audioStepOne us s c)) N := by
  cases period : (audioCell s c).period with
  | none =>
    have idle : ((audioBank s).cells c).period = none := period
    rw [audioStepOne_none period]
    exact ⟨0, turn_idle _ _ idle _⟩
  | some p =>
    have value : ((audioBank s).cells c).period = some p := period
    have total : (audioBank s).phase c + us.toNat = ((s.2 c).phase + us).toNat :=
      (BitVec.toNat_add_of_lt fits).symm
    rcases audioStepOne_some us period with ⟨N, moves, phases⟩
    refine ⟨N, ?_, ?_⟩
    · rw [due_some value, total]
      exact moves
    · rw [rest_some value, total]
      exact phases

/-- The loops of `lynx_audio_step` let the time pass in the channels. -/
theorem audioStepAll_elapsed {us : Word}
    (fits : ∀ c, (s.2 c).phase.toNat + us.toNat < 2 ^ 32) :
    ∃ N, audioChannels.Elapsed AudioCell.period us.toNat (audioBank s)
      (audioBank (audioStepAll us s)) N := by
  have turn : ∀ S s' N c,
      audioChannels.Served AudioCell.period us.toNat S (audioBank s) (audioBank s') N → c ∉ S →
      ∃ M, audioChannels.Turn AudioCell.period us.toNat c (audioBank s')
        (audioBank (audioStepOne us s' c)) M := by
    intro S s' N c served waiting
    have phase : (s'.2 c).phase.toNat = (s.2 c).phase.toNat := (served.2 c).trans (if_neg waiting)
    apply audioStepOne_turn
    rw [phase]
    exact fits c
  have start := served_empty audioChannels AudioCell.period us.toNat (audioBank s)
  rcases start.foldl AudioCell.counted_period turn (List.nodup_finRange 4) (by simp) with ⟨N, all⟩
  rw [List.toFinset_finRange, Finset.empty_union] at all
  exact ⟨N, all.elapsed⟩

/-- The cells and phases are the registers and variables of the channels. -/
theorem audioBank_eq_iff {s s' : AudioRegs} :
    audioBank s = audioBank s' ↔
      (∀ a, 0x20 ≤ a → a < 0x40 → s.1 a = s'.1 a) ∧ s.2 = s'.2 := by
  constructor
  · intro bank
    have cells (c : Fin 4) : audioCell s c = audioCell s' c :=
      congrFun (congrArg Bank.cells bank) c
    constructor
    · intro a low high
      rcases exists_aregAddr low high with ⟨c, f, rfl⟩
      exact congrFun (congrArg AudioCell.reg (cells c)) f
    · funext c
      have phase : (s.2 c).phase = (s'.2 c).phase :=
        BitVec.eq_of_toNat_eq (congrFun (congrArg Bank.phase bank) c)
      have lfsr : (s.2 c).lfsr = (s'.2 c).lfsr := congrArg AudioCell.lfsr (cells c)
      have pad : (s.2 c).pad = (s'.2 c).pad := congrArg AudioCell.pad (cells c)
      have dac : (s.2 c).dac = (s'.2 c).dac := congrArg AudioCell.dac (cells c)
      rcases h : s.2 c with ⟨_, _, _, _⟩
      rcases h' : s'.2 c with ⟨_, _, _, _⟩
      simp_all
  · rintro ⟨regs, channels⟩
    have same (c : Fin 4) (f : Fin 8) : s.1 (aregAddr c f) = s'.1 (aregAddr c f) :=
      regs _ (aregAddr_range c f).1 (aregAddr_range c f).2
    unfold audioBank audioCell areg
    simp only [channels, same]

/-- Where the channels end up depends on nothing but the channels. -/
theorem audioStepAll_congr {us : Word} (fits : ∀ c, (s.2 c).phase.toNat + us.toNat < 2 ^ 32)
    {s' : AudioRegs} (same : audioBank s = audioBank s') :
    audioBank (audioStepAll us s) = audioBank (audioStepAll us s') := by
  have fits' : ∀ c, (s'.2 c).phase.toNat + us.toNat < 2 ^ 32 :=
    (audioBank_eq_iff.mp same).2 ▸ fits
  rcases audioStepAll_elapsed fits with ⟨N, one⟩
  rcases audioStepAll_elapsed fits' with ⟨M, other⟩
  rw [← same] at other
  exact (one.unique audioChannels_acyclic other).2

/-- Time can be split. -/
theorem audioStepAll_add {a b : Word}
    (fits : ∀ c, (s.2 c).phase.toNat + (a.toNat + b.toNat) < 2 ^ 32) :
    audioStepAll b (audioStepAll a s) = audioStepAll (a + b) s := by
  have sum : (a + b).toNat = a.toNat + b.toNat := by
    have small := fits 0
    apply BitVec.toNat_add_of_lt
    omega
  have fits_a (c : Fin 4) : (s.2 c).phase.toNat + a.toNat < 2 ^ 32 := by
    have small := fits c
    omega
  rcases audioStepAll_elapsed fits_a with ⟨N, first⟩
  have fits_b (c : Fin 4) : ((audioStepAll a s).2 c).phase.toNat + b.toNat < 2 ^ 32 := by
    have passed := first.phase_le c
    have small := fits c
    change ((audioStepAll a s).2 c).phase.toNat ≤ (s.2 c).phase.toNat + a.toNat at passed
    omega
  have fits_ab : ∀ c, (s.2 c).phase.toNat + (a + b).toNat < 2 ^ 32 := sum ▸ fits
  rcases audioStepAll_elapsed fits_b with ⟨M, second⟩
  rcases audioStepAll_elapsed fits_ab with ⟨K, whole⟩
  rw [sum] at whole
  have bank := ((first.trans AudioCell.counted_period second).unique audioChannels_acyclic whole).2
  rcases audioBank_eq_iff.mp bank with ⟨regs, channels⟩
  apply Prod.ext
  · funext r
    by_cases inside : 0x20 ≤ r ∧ r < 0x40
    · exact regs r inside.1 inside.2
    · have outside : r < 0x20 ∨ 0x40 ≤ r := by bv_omega
      rw [audioStepAll_outside outside b, audioStepAll_outside outside a,
        audioStepAll_outside outside (a + b)]
  · exact channels

end Step

end LynxRecomp
