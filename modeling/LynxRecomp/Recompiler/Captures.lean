import LynxRecomp.Lib.Netpbm
import LynxRecomp.Lib.Riff
import LynxRecomp.Recompiler.LynxRun
import LynxRecomp.Runtime.State

/-!
# Captures

`lynxrun` writes what a game shows and plays to files: a pixmap for some of the frames, and a
WAVE file of the mix. A reader of these formats finds in them what the machine has rendered.
-/

namespace LynxRecomp

variable {η : Type}

section Ppm

/-- Red, green and blue of a pixel -/
def rgb (c : Word) : List Byte := [(c >>> 16).setWidth 8, (c >>> 8).setWidth 8, c.setWidth 8]

/-- `fb[i]` -/
def frameBuffer (hw : Hw η) (i : Nat) : Word :=
  lynxVideoRender hw ⟨i / screenW % screenH, Nat.mod_lt _ (by decide)⟩
    ⟨i % screenW, Nat.mod_lt _ (by decide)⟩

def pixelBytes (hw : Hw η) : List Byte :=
  (List.range (screenW * screenH)).flatMap fun i => rgb (frameBuffer hw i)

/-- `lynx_video_write_ppm`: the contents of the file -/
def lynxVideoWritePpm (hw : Hw η) : List Byte :=
  (Netpbm.printHeader screenW screenH 255).map Netpbm.octet ++ pixelBytes hw

example : Netpbm.printHeader screenW screenH 255 = "P6\n160 102\n255\n".toList := by decide

/-- What the machine shows, as a pixmap -/
def screenshot (hw : Hw η) : Netpbm.Pixmap := ⟨screenW, screenH, 255, pixelBytes hw⟩

theorem read_lynxVideoWritePpm (hw : Hw η) :
    Netpbm.read (lynxVideoWritePpm hw) = some (screenshot hw) := by
  apply Netpbm.read_print (by decide) (by decide)
  have three : ∀ i, (rgb (frameBuffer hw i)).length = 3 := fun _ => rfl
  rw [pixelBytes, List.length_flatMap]
  simp only [three, List.map_const', List.length_range, List.sum_replicate_nat]
  exact Nat.mul_comm ..

theorem screenshot_pixel (hw : Hw η) (row : Fin screenH) (col : Fin screenW) :
    (screenshot hw).pixel row.val col.val = rgb (lynxVideoRender hw row col) := by
  have across : (row.val * screenW + col.val) / screenW = row.val := by
    rw [Nat.mul_comm, Nat.mul_add_div (by decide), Nat.div_eq_of_lt col.isLt, Nat.add_zero]
  have down : (row.val * screenW + col.val) % screenW = col.val := by
    rw [Nat.mul_comm, Nat.mul_add_mod, Nat.mod_eq_of_lt col.isLt]
  have inside : row.val % screenH = row.val := Nat.mod_eq_of_lt row.isLt
  rw [screenshot, pixelBytes, Netpbm.pixel_flatMap 255 (fun _ => rfl) row.isLt col.isLt,
    frameBuffer]
  simp only [across, down, inside]

end Ppm

section Wav

/-- `lynx_audio_write_wav`: the contents of the file -/
def lynxAudioWriteWav (pcm : List (BitVec 16)) (rate : Word) : List Byte :=
  let datasz : Word := BitVec.ofNat 32 pcm.length * 2
  let byterate := rate * 2
  Riff.riffId ++ u32.enc (36 + datasz) ++ Riff.waveForm ++ Riff.fmtId ++ u32.enc 16 ++
    u16.enc 1 ++ u16.enc 1 ++ u32.enc rate ++ u32.enc byterate ++ u16.enc 2 ++ u16.enc 16 ++
    Riff.dataId ++ u32.enc datasz ++ pcm.flatMap u16.enc

theorem u32_enc (w : Word) : u32.enc w = Riff.octets 4 w.toNat := by
  have byte (k : Nat) : (w >>> k).setWidth 8 = BitVec.ofNat 8 (w.toNat / 2 ^ k) := by
    apply BitVec.eq_of_toNat_eq
    simp [Nat.shiftRight_eq_div_pow]
  have low : w.setWidth 8 = BitVec.ofNat 8 w.toNat := rfl
  change [w.setWidth 8, (w >>> 8).setWidth 8, (w >>> 16).setWidth 8, (w >>> 24).setWidth 8] = _
  rw [low, byte, byte, byte]
  simp [Riff.octets, Nat.div_div_eq_div_mul]

theorem samples_u16 (pcm : List (BitVec 16)) : Riff.Wave.samples (pcm.flatMap u16.enc) = pcm := by
  induction pcm with
  | nil => rfl
  | cons w pcm ih =>
    have whole : (w >>> 8).setWidth 8 ++ w.setWidth 8 = w := by
      ext i h
      simp
      grind
    have step : (w :: pcm).flatMap u16.enc =
        w.setWidth 8 :: (w >>> 8).setWidth 8 :: pcm.flatMap u16.enc := rfl
    rw [step, Riff.Wave.samples, whole, ih]

/-- The chunks of the file -/
def wavChunks (pcm : List (BitVec 16)) (rate : Word) : List Riff.Chunk :=
  [⟨Riff.fmtId, u16.enc 1 ++ u16.enc 1 ++ u32.enc rate ++ u32.enc (rate * 2) ++ u16.enc 2 ++
      u16.enc 16⟩,
    ⟨Riff.dataId, pcm.flatMap u16.enc⟩]

variable {pcm : List (BitVec 16)}

theorem length_pcm : (pcm.flatMap u16.enc).length = 2 * pcm.length := by
  have two : u16.size = 2 := rfl
  simp [List.length_flatMap, two, Nat.mul_comm]

theorem datasz_toNat (small : 2 * pcm.length + 36 < 2 ^ 31) :
    (BitVec.ofNat 32 pcm.length * 2 : Word).toNat = 2 * pcm.length := by
  rw [BitVec.toNat_mul, BitVec.toNat_ofNat]
  change pcm.length % 2 ^ 32 * 2 % 2 ^ 32 = _
  omega

theorem print_data : (Riff.Chunk.mk Riff.dataId (pcm.flatMap u16.enc)).print =
    Riff.dataId ++ Riff.octets 4 (2 * pcm.length) ++ pcm.flatMap u16.enc := by
  have even : 2 * pcm.length % 2 = 0 := by omega
  rw [Riff.Chunk.print, length_pcm, even, List.replicate_zero, List.append_nil]

theorem print_wavChunks (rate : Word) :
    (wavChunks pcm rate).flatMap Riff.Chunk.print =
      Riff.fmtId ++ u32.enc 16 ++ (u16.enc 1 ++ u16.enc 1 ++ u32.enc rate ++
        u32.enc (rate * 2) ++ u16.enc 2 ++ u16.enc 16) ++
        (Riff.dataId ++ Riff.octets 4 (2 * pcm.length) ++ pcm.flatMap u16.enc) := by
  have fmt : (Riff.Chunk.mk Riff.fmtId (u16.enc 1 ++ u16.enc 1 ++ u32.enc rate ++
      u32.enc (rate * 2) ++ u16.enc 2 ++ u16.enc 16)).print =
      Riff.fmtId ++ u32.enc 16 ++ (u16.enc 1 ++ u16.enc 1 ++ u32.enc rate ++
        u32.enc (rate * 2) ++ u16.enc 2 ++ u16.enc 16) := by
    have length : (u16.enc 1 ++ u16.enc 1 ++ u32.enc rate ++ u32.enc (rate * 2) ++ u16.enc 2 ++
      u16.enc 16).length = 16 := rfl
    rw [Riff.Chunk.print, length, List.replicate_zero, List.append_nil, u32_enc 16]
    rfl
  rw [wavChunks, List.flatMap_cons, List.flatMap_singleton, fmt, print_data]

theorem length_wavChunks (rate : Word) :
    (Riff.waveForm ++ (wavChunks pcm rate).flatMap Riff.Chunk.print).length =
      36 + 2 * pcm.length := by
  rw [print_wavChunks]
  simp only [List.length_append, length_pcm, Riff.length_octets, Layout.length_enc]
  change 4 + (4 + 4 + (2 + 2 + 4 + 4 + 2 + 2) + (4 + 4 + 2 * pcm.length)) = _
  omega

/-- The writer writes two chunks in a RIFF chunk. -/
theorem lynxAudioWriteWav_eq (rate : Word) (small : 2 * pcm.length + 36 < 2 ^ 31) :
    lynxAudioWriteWav pcm rate = (Riff.Chunk.mk Riff.riffId
      (Riff.waveForm ++ (wavChunks pcm rate).flatMap Riff.Chunk.print)).print := by
  have length := @length_wavChunks pcm rate
  have size : u32.enc (36 + BitVec.ofNat 32 pcm.length * 2) =
      Riff.octets 4 (36 + 2 * pcm.length) := by
    have whole : (36 + BitVec.ofNat 32 pcm.length * 2 : Word).toNat = 36 + 2 * pcm.length := by
      rw [BitVec.toNat_add, datasz_toNat small]
      change (36 + 2 * pcm.length) % 2 ^ 32 = _
      omega
    rw [u32_enc, whole]
  have even : (36 + 2 * pcm.length) % 2 = 0 := by omega
  have data : u32.enc (BitVec.ofNat 32 pcm.length * 2) = Riff.octets 4 (2 * pcm.length) := by
    rw [u32_enc, datasz_toNat small]
  rw [Riff.Chunk.print, length, even, List.replicate_zero, List.append_nil, print_wavChunks]
  simp only [lynxAudioWriteWav, size, data, List.append_assoc]

/-- A reader of WAVE files finds the samples in the file, and that they are those of a channel,
in 16 bits each, at the rate. -/
theorem lynxAudioWriteWav_reads (rate : Word) (small : 2 * pcm.length + 36 < 2 ^ 31)
    (slow : 2 * rate.toNat < 2 ^ 31) :
    ∃ w, Riff.wave (lynxAudioWriteWav pcm rate) = some w ∧ w.Pcm ∧ w.channels = 1 ∧
      w.bits = 16 ∧ w.rate = rate.toNat ∧ Riff.Wave.samples w.data = pcm := by
  have fits : ∀ c ∈ wavChunks pcm rate, c.Fits := by
    intro c member
    rcases List.mem_pair.mp member with rfl | rfl
    · exact ⟨rfl, (by decide : 16 < 2 ^ 32)⟩
    · refine ⟨rfl, ?_⟩
      rw [length_pcm]
      omega
  have total : (Riff.waveForm ++ (wavChunks pcm rate).flatMap Riff.Chunk.print).length =
      36 + 2 * pcm.length := length_wavChunks rate
  have read := @Riff.read_print Riff.waveForm _ rfl fits (by omega) []
  rw [List.append_nil, ← lynxAudioWriteWav_eq rate small] at read
  have double : (rate * 2).toNat = rate.toNat * 2 := by
    rw [BitVec.toNat_mul]
    change rate.toNat * 2 % 2 ^ 32 = _
    omega
  have word (w : Word) : Riff.number (u32.enc w) = w.toNat := by
    rw [u32_enc]
    exact Riff.number_octets w.isLt
  have file : Riff.wave (lynxAudioWriteWav pcm rate) = some {
      format := 1
      channels := 1
      rate := Riff.number (u32.enc rate)
      byteRate := Riff.number (u32.enc (rate * 2))
      align := 2
      bits := 16
      data := pcm.flatMap u16.enc } := by
    rw [Riff.wave, read]
    rfl
  refine ⟨_, file, ⟨rfl, rfl, ?_⟩, rfl, rfl, word rate, samples_u16 pcm⟩
  rw [word, word, double]

/-- Two samples at 44100 Hz -/
theorem lynxAudioWriteWav_reads_two :
    ∃ w, Riff.wave (lynxAudioWriteWav [1, -2] 44100) = some w ∧ w.rate = 44100 ∧
      Riff.Wave.samples w.data = [1, -2] := by
  rcases @lynxAudioWriteWav_reads [1, -2] 44100 (by decide) (by decide) with
    ⟨w, file, -, -, -, rate, samples⟩
  exact ⟨w, file, rate, samples⟩

end Wav

namespace Lynxrun

variable (l : Loaded)

/-- The joystick in a frame: `(btn && f >= at_frame && f < at_frame + hold) ? btn : 0x00` -/
def captureJoy (btn : Byte) (atFrame hold : Int) (f : Nat) : Byte :=
  if btn ≠ 0 ∧ atFrame ≤ f ∧ (f : Int) < atFrame + hold then btn else 0

/-- The frames of `run_capture` from frame `f` on, with the files it writes -/
def captureFrom (budget stride : Nat) (joy : Nat → Byte) : Nat → Nat → Machine η → List (List Byte)
  | 0, _, _ => []
  | n + 1, f, m =>
    let frame := (runUntilFlip l budget (m.setInput (joy f) 0)).2
    (if f % stride = 0 then [lynxVideoWritePpm frame.st.hw] else []) ++
      captureFrom budget stride joy n (f + 1) frame

/-- `run_capture` -/
def runCapture (nframes stride : Nat) (btn : Byte) (atFrame hold : Int) (m : Machine η) :
    List (List Byte) :=
  captureFrom l 2000000 stride (captureJoy btn atFrame hold) nframes 0 m

section Capture

variable (budget stride : Nat) (joy : Nat → Byte)

/-- The machine after frame `g`, from the start of frame `f` on -/
def afterFrame (f g : Nat) (m : Machine η) : Machine η :=
  (runFrames l budget ((List.range' f (g + 1 - f)).map joy) m).2

theorem afterFrame_self (f : Nat) (m : Machine η) :
    afterFrame l budget joy f f m = (runUntilFlip l budget (m.setInput (joy f) 0)).2 := by
  rw [afterFrame, Nat.add_sub_cancel_left]
  rfl

theorem afterFrame_later {f g : Nat} (later : f + 1 ≤ g) (m : Machine η) :
    afterFrame l budget joy f g m =
      afterFrame l budget joy (f + 1) g (runUntilFlip l budget (m.setInput (joy f) 0)).2 := by
  have count : g + 1 - f = g + 1 - (f + 1) + 1 := by omega
  rw [afterFrame, count, List.range'_succ, List.map_cons, runFrames, afterFrame]

theorem captureFrom_eq (n f : Nat) (m : Machine η) :
    captureFrom l budget stride joy n f m = ((List.range' f n).filter (· % stride = 0)).map
      fun g => lynxVideoWritePpm (afterFrame l budget joy f g m).st.hw := by
  induction n generalizing f m with
  | zero => rfl
  | succ n ih =>
    have rest : ((List.range' (f + 1) n).filter (· % stride = 0)).map
        (fun g => lynxVideoWritePpm (afterFrame l budget joy f g m).st.hw) =
        captureFrom l budget stride joy n (f + 1)
          (runUntilFlip l budget (m.setInput (joy f) 0)).2 := by
      rw [ih]
      apply List.map_congr_left
      intro g member
      have later : f + 1 ≤ g := (List.mem_range'_1.mp (List.mem_of_mem_filter member)).1
      rw [afterFrame_later l budget joy later]
    rw [captureFrom, List.range'_succ, List.filter_cons]
    by_cases dumped : f % stride = 0
    · rw [if_pos dumped, if_pos (decide_eq_true dumped), List.map_cons, rest, afterFrame_self]
      rfl
    · rw [if_neg dumped, if_neg (by simpa using dumped), rest]
      rfl

/-- The multiples of a number, up to a bound -/
theorem filter_multiples (n : Nat) :
    (List.range n).filter (· % (stride + 1) = 0) =
      (List.range ((n + stride) / (stride + 1))).map (· * (stride + 1)) := by
  induction n with
  | zero =>
    rw [Nat.zero_add, Nat.div_eq_of_lt (Nat.lt_succ_self stride)]
    rfl
  | succ n ih =>
    rw [List.range_succ, List.filter_append, ih]
    by_cases multiple : n % (stride + 1) = 0
    · obtain ⟨k, rfl⟩ := Nat.dvd_of_mod_eq_zero multiple
      have before : ((stride + 1) * k + stride) / (stride + 1) = k := by
        rw [Nat.mul_add_div (Nat.succ_pos _), Nat.div_eq_of_lt (Nat.lt_succ_self stride)]
        rfl
      have after : ((stride + 1) * k + 1 + stride) / (stride + 1) = k + 1 := by
        rw [Nat.add_assoc, Nat.add_comm 1 stride, Nat.mul_add_div (Nat.succ_pos _),
          Nat.div_self (Nat.succ_pos _)]
      rw [before, after, List.range_succ, List.map_append]
      simp [Nat.mul_comm]
    · have same : (n + 1 + stride) / (stride + 1) = (n + stride) / (stride + 1) := by
        have below : n % (stride + 1) < stride + 1 := Nat.mod_lt n (Nat.zero_lt_succ stride)
        have up (t : Nat) (low : stride < t) (high : t ≤ 2 * stride + 1) :
            ((stride + 1) * (n / (stride + 1)) + t) / (stride + 1) = n / (stride + 1) + 1 := by
          have one : t / (stride + 1) = 1 := Nat.div_eq_of_lt_le (by omega) (by omega)
          rw [Nat.mul_add_div (Nat.succ_pos _), one]
        have whole := Nat.div_add_mod n (stride + 1)
        have first := up (n % (stride + 1) + stride) (by omega) (by omega)
        have second := up (n % (stride + 1) + (1 + stride)) (by omega) (by omega)
        rw [← Nat.add_assoc, whole] at first second
        rw [Nat.add_assoc, first, second]
      rw [same]
      simp [multiple]

/-- The files of the frames, as they are read -/
theorem captureFrom_read (n : Nat) (m : Machine η) :
    (captureFrom l budget (stride + 1) joy n 0 m).map Netpbm.read =
      (List.range ((n + stride) / (stride + 1))).map fun k => some (screenshot
        (runFrames l budget ((List.range (k * (stride + 1) + 1)).map joy) m).2.st.hw) := by
  have each (f : Nat) : Netpbm.read (lynxVideoWritePpm (afterFrame l budget joy 0 f m).st.hw) =
      some (screenshot (runFrames l budget ((List.range (f + 1)).map joy) m).2.st.hw) := by
    rw [read_lynxVideoWritePpm, afterFrame, Nat.sub_zero, ← List.range_eq_range']
  rw [captureFrom_eq, ← List.range_eq_range', filter_multiples]
  simp only [List.map_map, Function.comp_def, each]

end Capture

end Lynxrun

end LynxRecomp
