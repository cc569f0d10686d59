import LynxRecomp.Runtime.MikeyRuns

/-!
# The range of the audio channels

A channel's level is a signed byte as long as the volume -128 is not negated: the mode that
integrates clamps its sum, the other one does not.
-/

namespace LynxRecomp

variable {η : Type}

section Level

/-- The low byte of a level, read as a signed byte, is the level if and only if that fits. -/
theorem signedByte_iff (d : Word) :
    (d.setWidth 8).toInt = d.toInt ↔ -128 ≤ d.toInt ∧ d.toInt ≤ 127 := by
  rw [BitVec.toInt_setWidth, BitVec.toInt_eq_toNat_cond, Int.bmod_def]
  split
  · split
    · omega
    · omega
  · split
    · omega
    · omega

theorem toInt_range (v : Byte) : -128 ≤ v.toInt ∧ v.toInt ≤ 127 := by
  rw [BitVec.toInt_eq_toNat_cond]
  have small := v.isLt
  split <;> omega

theorem toInt_add_small {a b : Word} (low : -2 ^ 31 ≤ a.toInt + b.toInt)
    (high : a.toInt + b.toInt < 2 ^ 31) : (a + b).toInt = a.toInt + b.toInt := by
  rw [BitVec.toInt_add]
  apply Int.bmod_eq_of_le
  · omega
  · omega

theorem toInt_neg_small {a : Word} (low : -2 ^ 31 < a.toInt) (high : a.toInt < 2 ^ 31) :
    (-a).toInt = -a.toInt := by
  rw [BitVec.toInt_neg]
  apply Int.bmod_eq_of_le
  · omega
  · omega

theorem toInt_volume (v : Byte) : ((v.signExtend 32 : Word)).toInt = v.toInt :=
  BitVec.toInt_signExtend_of_le (by decide)

/-- The volume as the level, as it is or negated -/
theorem toInt_signed (v : Byte) (bit : Bool) :
    (if bit then v.signExtend 32 else -v.signExtend 32 : Word).toInt =
      if bit then v.toInt else -v.toInt := by
  have range := toInt_range v
  cases bit with
  | true => exact toInt_volume v
  | false =>
    have negated := toInt_neg_small (a := v.signExtend 32) (by rw [toInt_volume]; omega)
      (by rw [toInt_volume]; omega)
    rw [toInt_volume] at negated
    exact negated

theorem clamp_range (x : Word) :
    let y := if (127 : Word).slt x then 127 else x
    let z := if y.slt (-128) then -128 else y
    (-128) ≤ z.toInt ∧ z.toInt ≤ 127 := by
  simp only [BitVec.slt_iff_toInt_lt]
  by_cases above : (127 : Word).toInt < x.toInt
  · rw [if_pos above, if_neg (by decide)]
    decide
  · rw [if_neg above]
    have high : x.toInt ≤ 127 := Int.not_lt.mp above
    by_cases below : x.toInt < (-128 : Word).toInt
    · rw [if_pos below]
      decide
    · rw [if_neg below]
      exact ⟨Int.not_lt.mp below, high⟩

/-- The clamped sum is in range. -/
theorem dacLevel_integrated (dac vol : Word) (bit : Bool) :
    -128 ≤ (dacLevel true dac vol bit).toInt ∧ (dacLevel true dac vol bit).toInt ≤ 127 :=
  clamp_range (dac + if bit then vol else -vol)

/-- Without integration the level is a signed byte unless -128 is negated. -/
theorem dacLevel_plain (dac : Word) (v : Byte) (bit : Bool) :
    (-128 ≤ (dacLevel false dac (v.signExtend 32) bit).toInt ∧
      (dacLevel false dac (v.signExtend 32) bit).toInt ≤ 127) ↔ ¬ (v = 0x80 ∧ bit = false) := by
  have range := toInt_range v
  have level : (dacLevel false dac (v.signExtend 32) bit).toInt = _ := toInt_signed v bit
  rw [level]
  cases bit with
  | true => simp [range]
  | false =>
    have edge : v = 0x80 ↔ v.toInt = -128 := by
      rw [← BitVec.toInt_inj]
      rfl
    rw [edge]
    simp
    omega

end Level

section Shift

theorem feedbackBit_cases (sw : Word) (lfsr : BitVec 16) :
    feedbackBit sw lfsr = 0 ∨ feedbackBit sw lfsr = 1 := by
  unfold feedbackBit
  simp only
  split
  · exact .inl rfl
  · exact .inr rfl

theorem masked_small (x : BitVec 16) : x &&& 0x0FFF < 0x1000 := by
  have below : (x &&& 0x0FFF).toNat ≤ 0x0FFF := by
    rw [BitVec.toNat_and]
    exact Nat.and_le_right
  exact Nat.lt_succ_of_le below

/-- The bit shifted in is the low bit of the register. -/
theorem shiftedIn_bit (lfsr : BitVec 16) {r : BitVec 16} (cases : r = 0 ∨ r = 1) :
    ((lfsr <<< 1 ||| r) &&& 0x0FFF) &&& 1 = r := by
  rcases cases with rfl | rfl
  · ext k hk
    simp
    grind
  · ext k hk
    simp
    grind

theorem reseed_small (lo other : Byte) :
    lo.setWidth 16 ||| (other >>> 4).setWidth 16 <<< 8 < (0x1000 : BitVec 16) := by
  have low : (lo.setWidth 16).toNat < 2 ^ 12 := by
    rw [BitVec.toNat_setWidth]
    omega
  have high : ((other >>> 4).setWidth 16 <<< 8 : BitVec 16).toNat < 2 ^ 12 := by
    rw [BitVec.toNat_shiftLeft, BitVec.toNat_setWidth, BitVec.toNat_ushiftRight,
      Nat.shiftRight_eq_div_pow, Nat.shiftLeft_eq]
    omega
  have both := Nat.or_lt_two_pow low high
  rw [← BitVec.toNat_or] at both
  exact both

end Shift

namespace AudioCell

/-- The level is a signed byte, and the shift register has twelve bits. -/
structure InRange (x : AudioCell) : Prop where
  dac : -128 ≤ x.dac.toInt ∧ x.dac.toInt ≤ 127
  lfsr : x.lfsr < 0x1000

/-- The DAC register, read as a signed byte, is the level. -/
def Mirrored (x : AudioCell) : Prop := (x.reg 2).toInt = x.dac.toInt

/-- The bit that the next clock shifts in -/
def nextBit (x : AudioCell) : BitVec 16 := feedbackBit (feedbackSwitches (x.reg 5) (x.reg 1)) x.lfsr

theorem nextBit_cases (x : AudioCell) : x.nextBit = 0 ∨ x.nextBit = 1 := feedbackBit_cases _ _

/-- The next clock negates the volume -128, and nothing clamps the outcome. -/
def NegatesMinimum (x : AudioCell) : Prop :=
  x.reg 5 &&& actlIntegrate = 0 ∧ x.reg 0 = 0x80 ∧ x.nextBit = 0

theorem clocked_mirrored (x : AudioCell) :
    x.clocked.Mirrored ↔ -128 ≤ x.clocked.dac.toInt ∧ x.clocked.dac.toInt ≤ 127 := by
  have register : x.clocked.reg 2 = x.clocked.dac.setWidth 8 := rfl
  rw [Mirrored, register]
  exact signedByte_iff _

theorem clocked_inRange_iff (x : AudioCell) : x.clocked.InRange ↔ x.clocked.Mirrored := by
  rw [clocked_mirrored]
  exact ⟨fun range => range.dac, fun range => ⟨range, masked_small _⟩⟩

/-- A clock leaves a signed byte, and mirrors it, unless it negates -128 without clamping. -/
theorem clocked_mirrored_iff (x : AudioCell) : x.clocked.Mirrored ↔ ¬ x.NegatesMinimum := by
  have level : x.clocked.dac = dacLevel (x.reg 5 &&& actlIntegrate != 0) x.dac
      ((x.reg 0).signExtend 32) (((x.lfsr <<< 1 ||| x.nextBit) &&& 0x0FFF) &&& 1 != 0) := rfl
  rw [clocked_mirrored, level, shiftedIn_bit x.lfsr x.nextBit_cases]
  by_cases integrate : x.reg 5 &&& actlIntegrate = 0
  · have plain : (x.reg 5 &&& actlIntegrate != 0) = false := by
      rw [integrate]
      rfl
    rw [plain, dacLevel_plain, NegatesMinimum, bne_eq_false_iff_eq]
    exact not_congr (and_iff_right integrate).symm
  · have clamps : (x.reg 5 &&& actlIntegrate != 0) = true := bne_iff_ne.mpr integrate
    rw [clamps]
    exact iff_of_true (dacLevel_integrated _ _ _) fun negates => integrate negates.1

/-- The next count clocks the channel. -/
def Underflows (x : AudioCell) : Prop := x.reg 6 = 0

/-- The cell that `counted` clocks -/
def reloaded (x : AudioCell) : AudioCell :=
  if x.reg 5 &&& actlReload ≠ 0 then setReg 6 (x.reg 4) x else x

theorem counted_underflow {x : AudioCell} (zero : x.Underflows) :
    x.counted = x.reloaded.clocked := if_pos zero

theorem reloaded_negates (x : AudioCell) : x.reloaded.NegatesMinimum ↔ x.NegatesMinimum := by
  unfold reloaded
  split
  · simp [NegatesMinimum, nextBit, setReg]
  · rfl

theorem counted_quiet {x : AudioCell} (some_ : ¬ x.Underflows) :
    x.counted = setReg 6 (x.reg 6 - 1) x := if_neg some_

/-- A count that clocks the channel mirrors its level unless it negates -128 without clamping. -/
theorem counted_mirrored_iff {x : AudioCell} (zero : x.Underflows) :
    x.counted.Mirrored ↔ ¬ x.NegatesMinimum := by
  rw [counted_underflow zero, clocked_mirrored_iff, reloaded_negates]

/-- A count that does not clock the channel leaves its level and the DAC register. -/
theorem Mirrored.counted {x : AudioCell} (mirrored : x.Mirrored) (some_ : ¬ x.Underflows) :
    x.counted.Mirrored := by
  rw [counted_quiet some_]
  simpa [Mirrored, setReg] using mirrored

theorem InRange.counted {x : AudioCell} (range : x.InRange)
    (clock : x.Underflows → x.counted.Mirrored) : x.counted.InRange := by
  by_cases zero : x.Underflows
  · have mirrored := clock zero
    rw [counted_underflow zero] at mirrored ⊢
    exact (clocked_inRange_iff _).mpr mirrored
  · rw [counted_quiet zero]
    exact ⟨range.dac, range.lfsr⟩

instance (x : AudioCell) : Decidable x.Underflows := inferInstanceAs (Decidable (x.reg 6 = 0))

instance (x : AudioCell) : Decidable x.NegatesMinimum :=
  inferInstanceAs (Decidable (_ ∧ _ ∧ _))

/-- Every clock in the first `n` counts mirrors the level. -/
def ClocksMirrored (n : Nat) (x : AudioCell) : Prop :=
  ∀ k < n, (AudioCell.counted^[k] x).Underflows → (AudioCell.counted^[k + 1] x).Mirrored

/-- No clock in the first `n` counts negates -128 without clamping. -/
def NeverNegates (n : Nat) (x : AudioCell) : Prop :=
  ∀ k < n, (AudioCell.counted^[k] x).Underflows → ¬ (AudioCell.counted^[k] x).NegatesMinimum

instance (n : Nat) (x : AudioCell) : Decidable (x.NeverNegates n) :=
  inferInstanceAs (Decidable (∀ k < n, _ → _))

theorem clocksMirrored_iff (n : Nat) (x : AudioCell) : x.ClocksMirrored n ↔ x.NeverNegates n := by
  refine forall₂_congr fun k _ => forall_congr' fun zero => ?_
  rw [Function.iterate_succ_apply']
  exact counted_mirrored_iff zero

theorem InRange.iterate {x : AudioCell} (range : x.InRange) {n : Nat}
    (clocks : x.ClocksMirrored n) : (AudioCell.counted^[n] x).InRange := by
  induction n with
  | zero => exact range
  | succ n ih =>
    have before := ih fun k below => clocks k (Nat.lt_succ_of_lt below)
    rw [Function.iterate_succ_apply']
    apply before.counted
    intro zero
    have clock := clocks n (Nat.lt_succ_self n) zero
    rwa [Function.iterate_succ_apply'] at clock

/-- After the last clock nothing parts the register from the level. -/
theorem ClocksMirrored.last {x : AudioCell} {n : Nat} (clocks : x.ClocksMirrored n)
    (clocked : ∃ k < n, (AudioCell.counted^[k] x).Underflows) :
    (AudioCell.counted^[n] x).Mirrored := by
  induction n with
  | zero =>
    rcases clocked with ⟨k, below, _⟩
    exact absurd below (Nat.not_lt_zero k)
  | succ n ih =>
    by_cases zero : (AudioCell.counted^[n] x).Underflows
    · exact clocks n (Nat.lt_succ_self n) zero
    · rw [Function.iterate_succ_apply']
      apply Mirrored.counted _ zero
      apply ih fun k below => clocks k (Nat.lt_succ_of_lt below)
      rcases clocked with ⟨k, below, underflow⟩
      have earlier : k ≠ n := by
        rintro rfl
        exact zero underflow
      exact ⟨k, by omega, underflow⟩

end AudioCell

/-- Every level is a signed byte, every shift register has twelve bits, and the mix is in the
range that `lynx_audio_sample` assumes. -/
structure SignedBytes (hw : Hw η) : Prop where
  dac : ∀ c, -128 ≤ (hw.audio c).dac.toInt ∧ (hw.audio c).dac.toInt ≤ 127
  lfsr : ∀ c, (hw.audio c).lfsr < 0x1000
  mix : -512 ≤ ((hw.audio 0).dac + (hw.audio 1).dac + (hw.audio 2).dac + (hw.audio 3).dac).toInt ∧
    ((hw.audio 0).dac + (hw.audio 1).dac + (hw.audio 2).dac + (hw.audio 3).dac).toInt ≤ 511

/-- In a step, every clock of a channel leaves the level in the DAC register, and so does the
step if it has clocked the channel. -/
def ClocksShown : MikeyOp → Hw η → Prop
  | .audioStep us, hw => ∀ c, (hw.channel c).ClocksMirrored (channelTurns us hw c) ∧
      ((∃ k < channelTurns us hw c, (AudioCell.counted^[k] (hw.channel c)).Underflows) →
        ((lynxAudioStep us hw).mikey (aregAddr c aDac)).toInt =
          ((lynxAudioStep us hw).audio c).dac.toInt)
  | _, _ => True

/-- No clock in the step negates the volume -128 without clamping. -/
def MinimumKept : MikeyOp → Hw η → Prop
  | .audioStep us, hw => ∀ c, (hw.channel c).NeverNegates (channelTurns us hw c)
  | _, _ => True

theorem signedBytes_iff {hw : Hw η} : SignedBytes hw ↔ ∀ c, (hw.channel c).InRange := by
  constructor
  · exact fun bytes c => ⟨bytes.dac c, bytes.lfsr c⟩
  · intro range
    have level (c : Fin 4) : -128 ≤ (hw.audio c).dac.toInt ∧ (hw.audio c).dac.toInt ≤ 127 :=
      (range c).dac
    refine ⟨level, fun c => (range c).lfsr, ?_⟩
    rcases level 0, level 1, level 2, level 3 with ⟨l0, l1, l2, l3⟩
    have two := @toInt_add_small (hw.audio 0).dac (hw.audio 1).dac (by omega) (by omega)
    have three := @toInt_add_small ((hw.audio 0).dac + (hw.audio 1).dac) (hw.audio 2).dac
      (by omega) (by omega)
    have four := @toInt_add_small ((hw.audio 0).dac + (hw.audio 1).dac + (hw.audio 2).dac)
      (hw.audio 3).dac (by omega) (by omega)
    omega

/-- Seeding a shift register keeps the level, and leaves twelve bits. -/
theorem Written.inRange {off val : Byte} {hw hw' : Hw η} (written : Written off val hw hw')
    {c : Fin 4} (range : (hw.channel c).InRange) : (hw'.channel c).InRange := by
  rcases written.channel c with same | ⟨lo, other, seeded⟩
  · constructor
    · change -128 ≤ (hw'.audio c).dac.toInt ∧ (hw'.audio c).dac.toInt ≤ 127
      rw [same]
      exact range.dac
    · change (hw'.audio c).lfsr < 0x1000
      rw [same]
      exact range.lfsr
  · constructor
    · change -128 ≤ (hw'.audio c).dac.toInt ∧ (hw'.audio c).dac.toInt ≤ 127
      rw [seeded]
      exact range.dac
    · change (hw'.audio c).lfsr < 0x1000
      rw [seeded]
      exact reseed_small lo other

/-- What a command leaves: the levels and registers are in range, as long as no clock negates
the volume -128 without clamping. -/
theorem mikeyPort_signedBytes {hooks : Hooks η} (away : FrameHookAway hooks) (op : MikeyOp)
    {hw : Hw η} (noHook : hw.host.txHook = false) (bytes : SignedBytes hw) :
    SignedBytes ((mikeyPort hooks).step op hw).2 ∧ ClocksShown op hw ↔ MinimumKept op hw := by
  rw [signedBytes_iff] at bytes
  rw [signedBytes_iff]
  cases op with
  | write off val =>
    have written := lynxMikeyWrite_written away off val noHook
    exact iff_of_true ⟨fun c => written.inRange (bytes c), trivial⟩ trivial
  | timerStep us =>
    refine iff_of_true ⟨fun c => ?_, trivial⟩ trivial
    exact (channel_timerStep us hw c).symm ▸ bytes c
  | audioStep us =>
    constructor
    · rintro ⟨-, shown⟩ c
      exact (AudioCell.clocksMirrored_iff _ _).mp (shown c).1
    · intro kept
      have clocks (c : Fin 4) : (hw.channel c).ClocksMirrored (channelTurns us hw c) :=
        (AudioCell.clocksMirrored_iff _ _).mpr (kept c)
      constructor
      · intro c
        exact channel_audioStep us hw c ▸ (bytes c).iterate (clocks c)
      · intro c
        refine ⟨clocks c, fun clocked => ?_⟩
        have last := (clocks c).last clocked
        rw [← channel_audioStep] at last
        exact last

/-- From `lynx_mikey_init` on, all levels of a run are signed bytes and every clock shows its
level in the DAC register exactly if no clock of the run negates the volume -128 while the
channel does not integrate. -/
theorem audio_signedBytes_iff (hooks : Hooks η) (away : FrameHookAway hooks) (hw : Hw η)
    (ops : List MikeyOp) :
    (mikeyPort hooks).Always SignedBytes ops (lynxMikeyInit hw) ∧
        (mikeyPort hooks).Permitted ClocksShown ops (lynxMikeyInit hw) ↔
      (mikeyPort hooks).Permitted MinimumKept ops (lynxMikeyInit hw) := by
  apply CommandMachine.always_and_permitted_iff (I := fun hw => hw.host.txHook = false)
  case invariant => exact fun op hw noHook => mikeyPort_noHook away op noHook
  case step => exact fun op hw noHook bytes => mikeyPort_signedBytes away op noHook bytes
  case initially => rfl
  case holds =>
    apply signedBytes_iff.mpr
    intro c
    have level : ((lynxMikeyInit hw).channel c).dac = 0 := rfl
    have shift : ((lynxMikeyInit hw).channel c).lfsr = 0 := rfl
    constructor
    · rw [level]
      decide
    · rw [shift]
      decide

/-- Channel 0 with the volume -128 and a tap at bit 0, so that it shifts in ones and zeros in
turn. -/
def loudChannel (integrate : Byte) : List MikeyOp :=
  [.write 0x20 0x80, .write 0x21 0x01, .write 0x25 (0x18 ||| integrate), .audioStep 2,
    .write mikeyDispadrh 0x20]

theorem loudChannel_clamped :
    FrameHookAway frameCounter ∧
      (mikeyPort frameCounter).Permitted MinimumKept (loudChannel actlIntegrate)
        (lynxMikeyInit (Hw.zeroed 0)) ∧
      (mikeyPort frameCounter).Always SignedBytes (loudChannel actlIntegrate)
        (lynxMikeyInit (Hw.zeroed 0)) ∧
      (mikeyPort frameCounter).Permitted ClocksShown (loudChannel actlIntegrate)
        (lynxMikeyInit (Hw.zeroed 0)) := by
  have kept : (mikeyPort frameCounter).Permitted MinimumKept (loudChannel actlIntegrate)
      (lynxMikeyInit (Hw.zeroed 0)) := by
    refine ⟨trivial, trivial, trivial, ?_, trivial, trivial⟩
    intro c
    revert c
    decide
  have signed := audio_signedBytes_iff frameCounter frameCounter_away (Hw.zeroed 0)
    (loudChannel actlIntegrate)
  exact ⟨frameCounter_away, kept, signed.mpr kept⟩

/-- Without integration the second clock negates -128: the level is 128, and the register -128. -/
theorem loudChannel_exceeds :
    ¬ (mikeyPort frameCounter).Always SignedBytes (loudChannel 0) (lynxMikeyInit (Hw.zeroed 0)) ∧
      ¬ (mikeyPort frameCounter).Permitted ClocksShown (loudChannel 0)
        (lynxMikeyInit (Hw.zeroed 0)) := by
  constructor
  · intro always
    have level := (always.last.dac 0).2
    revert level
    decide
  · intro shown
    have mirrored := (shown.2.2.2.1 0).1 1 (by decide) (by decide)
    revert mirrored
    unfold AudioCell.Mirrored
    decide

end LynxRecomp
