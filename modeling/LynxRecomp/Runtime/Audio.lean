import LynxRecomp.Runtime.Hardware

/-!
# Mikey audio

`audio.c`: four channels, each a 12-bit shift register clocked by a reload timer.
-/

namespace LynxRecomp

variable {η : Type}

def aVolume : Nat := 0
def aFeedback : Nat := 1
def aDac : Nat := 2
def aShiftlo : Nat := 3
def aReload : Nat := 4
def aControl : Nat := 5
def aCount : Nat := 6
def aOther : Nat := 7

def actlClock : Byte := 0x07
def actlCount : Byte := 0x08
def actlReload : Byte := 0x10
def actlIntegrate : Byte := 0x20

/-- The Mikey offset of a channel register. -/
def aregAddr (c : Fin 4) (field : Nat) : Byte := BitVec.ofNat 8 (0x20 + c.val * 8 + field)

/-- The registers and the channels, which is all that the audio code works on. -/
abbrev AudioRegs := (Byte → Byte) × (Fin 4 → AudCh)

def areg (c : Fin 4) (field : Nat) (s : AudioRegs) : Byte := s.1 (aregAddr c field)

def asetreg (c : Fin 4) (field : Nat) (v : Byte) (s : AudioRegs) : AudioRegs :=
  (Function.update s.1 (aregAddr c field) v, s.2)

def setChannel (c : Fin 4) (ch : AudCh) (s : AudioRegs) : AudioRegs :=
  (s.1, Function.update s.2 c ch)

def lynxAudioInit (hw : Hw η) : Hw η :=
  { hw with audio := fun c => { hw.audio c with lfsr := 0, dac := 0, phase := 0 } }

/-- Seed a channel's shift register from its registers. -/
def lynxAudioReseed (c : Fin 4) (hw : Hw η) : Hw η :=
  let lo := hw.mikey (aregAddr c aShiftlo)
  let other := hw.mikey (aregAddr c aOther)
  let ch := { hw.audio c with lfsr := lo.setWidth 16 ||| (other >>> 4).setWidth 16 <<< 8 }
  { hw with audio := Function.update hw.audio c ch }

/-- The shift-register taps of the nine feedback switches, in switch order. -/
def audioTaps : List Nat := [7, 0, 1, 2, 3, 4, 5, 10, 11]

/-- The nine feedback switches of a channel, one bit each. -/
def feedbackSwitches (ctl fb : Byte) : Word :=
  (ctl.setWidth 32 >>> 7) &&& 1 ||| (fb &&& 0x3F).setWidth 32 <<< 1 |||
    ((fb.setWidth 32 >>> 6) &&& 3) <<< 7

/-- The inverted parity of the selected taps. -/
def feedbackBit (sw : Word) (lfsr : BitVec 16) : BitVec 16 :=
  let r := audioTaps.zipIdx.foldl
    (fun (r : Word) (tap : Nat × Nat) => if (sw >>> tap.2) &&& 1 ≠ 0 then
      r ^^^ ((lfsr.setWidth 32 >>> tap.1) &&& 1) else r) 0
  if r ≠ 0 then 0 else 1

/-- The DAC level after a clock: the new level, or the clamped running sum. -/
def dacLevel (integrate : Bool) (dac vol : Word) (bit : Bool) : Word :=
  let signed := if bit then vol else -vol
  if integrate then
    let dac := dac + signed
    let dac := if (127 : Word).slt dac then 127 else dac
    if dac.slt (-128) then -128 else dac
  else signed

/-- Clock one channel's shift register and update its DAC. -/
def clockLfsr (c : Fin 4) (s : AudioRegs) : AudioRegs :=
  let ch := s.2 c
  let ctl := areg c aControl s
  let r := feedbackBit (feedbackSwitches ctl (areg c aFeedback s)) ch.lfsr
  let lfsr := (ch.lfsr <<< 1 ||| r) &&& 0x0FFF
  let vol : Word := (areg c aVolume s).signExtend 32
  let dac := dacLevel (ctl &&& actlIntegrate != 0) ch.dac vol (lfsr &&& 1 != 0)
  asetreg c aDac (dac.setWidth 8) (setChannel c { ch with lfsr := lfsr, dac := dac } s)

/-- One turn of the inner loop of `lynx_audio_step`. -/
def audioCount (c : Fin 4) (s : AudioRegs) : AudioRegs :=
  let cnt := areg c aCount s
  if cnt = 0 then
    clockLfsr c (if areg c aControl s &&& actlReload ≠ 0 then
      asetreg c aCount (areg c aReload s) s else s)
  else asetreg c aCount (cnt - 1) s

/-- The inner loop. The divider is at least 1, so it turns at most `phase` times. -/
def audioDrain (c : Fin 4) (period : Word) : Nat → AudioRegs → AudioRegs
  | 0, s => s
  | n + 1, s =>
    if period ≤ (s.2 c).phase then
      audioDrain c period n
        (audioCount c (setChannel c { s.2 c with phase := (s.2 c).phase - period } s))
    else s

/-- One turn of the outer loop of `lynx_audio_step`. -/
def audioStepOne (us : Word) (s : AudioRegs) (c : Fin 4) : AudioRegs :=
  let ctl := areg c aControl s
  if ctl &&& actlCount = 0 then s
  else
    let clk := ctl &&& actlClock
    if clk = 7 then s
    else
      let phase := (s.2 c).phase + us
      audioDrain c (1 <<< clk.toNat) phase.toNat (setChannel c { s.2 c with phase := phase } s)

def audioStepAll (us : Word) (s : AudioRegs) : AudioRegs :=
  (List.finRange 4).foldl (audioStepOne us) s

def lynxAudioStep (us : Word) (hw : Hw η) : Hw η :=
  let s := audioStepAll us (hw.mikey, hw.audio)
  { hw with mikey := s.1, audio := s.2 }

/-- The mixed output as a 16-bit sample. -/
def lynxAudioSample (hw : Hw η) : BitVec 16 :=
  let mix := (hw.audio 0).dac + (hw.audio 1).dac + (hw.audio 2).dac + (hw.audio 3).dac
  let s := mix * 48
  let s := if (32767 : Word).slt s then 32767 else s
  let s := if s.slt (-32768) then -32768 else s
  s.setWidth 16

end LynxRecomp
