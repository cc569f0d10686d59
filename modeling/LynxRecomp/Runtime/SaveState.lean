import Mathlib.Tactic.IntervalCases
import LynxRecomp.Lib.CommandMachine
import LynxRecomp.Runtime.SerialQueue
import LynxRecomp.Runtime.State

/-!
# What a save state carries, and what it lets in

A loaded state is the saved machine on the loading host, so the machines cannot be
told apart by anything that is done with them later. The load checks the header
and nothing else; which accepted buffers give a machine that meets the invariants
of its own modules is a condition on a few bytes of the buffer.
-/

namespace LynxRecomp

variable {η : Type}

section Console

/-- What the host does with the machine: it accesses the bus, lets time pass, delivers
link bytes, takes sound and picture, and changes its own side (inputs, hooks). -/
inductive ConsoleOp (η : Type) where
  | memRead (addr : Addr)
  | memWrite (addr : Addr) (val : Byte)
  | tick
  | rxPush (b : Byte)
  | audioSample
  | videoRender
  | host (f : Host η → Host η)

inductive Observation where
  | none
  | byte (b : Byte)
  | sample (s : BitVec 16)
  | picture (p : Fin screenH → Fin screenW → Word)

def console (hooks : Hooks η) (d : Dispatch η) :
    CommandMachine (Machine η) (ConsoleOp η) Observation where
  step
    | .memRead addr, m =>
      (.byte (lynxMemRead addr m.hw).1, { m with hw := (lynxMemRead addr m.hw).2 })
    | .memWrite addr val, m => (.none, { m with hw := lynxMemWrite hooks addr val m.hw })
    | .tick, m => (.none, lynxTick hooks d m)
    | .rxPush b, m => (.none, { m with hw := lynxSerialRxPush b m.hw })
    | .audioSample, m => (.sample (lynxAudioSample m.hw), m)
    | .videoRender, m => (.picture (lynxVideoRender m.hw), m)
    | .host f, m => (.none, m.withHost (f m.hw.host))

/-- Every component of the machine, all but the host's side. -/
structure Machine.SameComponents (m m' : Machine η) : Prop where
  cpu : m.cpu = m'.cpu
  ram : m.hw.ram = m'.hw.ram
  suzy : m.hw.suzy = m'.hw.suzy
  mikey : m.hw.mikey = m'.hw.mikey
  timer : m.hw.timer = m'.hw.timer
  audio : m.hw.audio = m'.hw.audio
  serial : m.hw.serial = m'.hw.serial

@[simp] theorem Machine.withHost_withHost (m : Machine η) (h h' : Host η) :
    (m.withHost h).withHost h' = m.withHost h' := rfl

/-- With room, `lynx_state_save` writes `lynx_state_size()` bytes; loading them, whatever
follows them, gives every component of the saved machine, and from then on the same
results under the same host. A failed load and a refused save change nothing. -/
theorem saved_state_is_complete_and_atomic (hooks : Hooks η) (d : Dispatch η) (s t : Machine η) :
    (∀ cap, lynxStateSize ≤ cap →
      (lynxStateSave s cap).1 = lynxStateSize ∧
      (lynxStateSave s cap).2.length = lynxStateSize ∧
      ∀ trailing, (lynxStateLoad ((lynxStateSave s cap).2 ++ trailing) t).1 = 0 ∧
        (lynxStateLoad ((lynxStateSave s cap).2 ++ trailing) t).2.SameComponents s ∧
        ∀ host ops,
          ((console hooks d).run ops
            ((lynxStateLoad ((lynxStateSave s cap).2 ++ trailing) t).2.withHost host)).1 =
          ((console hooks d).run ops (s.withHost host)).1) ∧
    (∀ cap, cap < lynxStateSize → lynxStateSave s cap = (0, [])) ∧
    (∀ buf, (lynxStateLoad buf t).1 = -1 → (lynxStateLoad buf t).2 = t) := by
  refine ⟨fun cap room => ?_, fun cap small => ?_, fun buf failed => ?_⟩
  · obtain ⟨written, size⟩ := lynxStateSave_length (m := s) room
    refine ⟨size, written, fun trailing => ?_⟩
    rw [lynxStateLoad_save s t room trailing]
    exact ⟨rfl, ⟨rfl, rfl, rfl, rfl, rfl, rfl, rfl⟩, fun host ops => rfl⟩
  · rw [lynxStateSave, if_pos small]
  · rw [lynxStateLoad] at failed ⊢
    split at failed
    · simp at failed
    · rename_i rejected
      rw [if_neg rejected]

/-- A machine in the middle of a game: three bytes wait across the end of the FIFO, and the
timers and channels are between two of their clocks. -/
def playedMachine : Machine Unit where
  cpu := { a := 0x12, x := 0x34, y := 0x56, s := 0xF3, pc := 0x0245, n := 1, v := 0, d := 1, i := 0,
           z := 0, c := 1 }
  hw :=
    { Hw.zeroed () with
      ram := fun a => a.setWidth 8 ^^^ 0x5A
      suzy := { reg := fun r => r + 1, busy := 1 }
      mikey := fun r => r ^^^ 0xFF
      timer := { phase := fun i => BitVec.ofNat 32 (i.val + 3), irqLatch := 0x04 }
      audio := fun c => { lfsr := 0x0ABC, pad := 0, dac := 0x40, phase := BitVec.ofNat 32 c.val }
      serial := { ctrl := 0x40, statusErr := 0x08, rxFifo := fun i => BitVec.ofNat 8 i.val,
                  rxHead := 0x00FE, rxTail := 0x0001 } }

/-- Loaded into the machine at power-on, the state goes on with its own bytes. -/
theorem played_state_saved :
    (lynxStateSave playedMachine 66419).1 = 66419 ∧
      (lynxStateLoad ((lynxStateSave playedMachine 66419).2 ++ [0x99])
        (Machine.zeroed ())).2.SameComponents playedMachine ∧
      ((console Hooks.none Dispatch.empty).run [.memRead 0x1234, .memRead 0xFD8D]
        ((lynxStateLoad ((lynxStateSave playedMachine 66419).2 ++ [0x99])
          (Machine.zeroed ())).2.withHost (Hw.zeroed ()).host)).1 = [.byte 0x6E, .byte 0xFE] ∧
      lynxStateSave playedMachine 66418 = (0, []) ∧
      (lynxStateLoad [] playedMachine).2 = playedMachine := by
  have whole := saved_state_is_complete_and_atomic Hooks.none Dispatch.empty playedMachine
    (Machine.zeroed ())
  have kept := saved_state_is_complete_and_atomic Hooks.none Dispatch.empty playedMachine
    playedMachine
  have room : lynxStateSize ≤ 66419 := Nat.le_of_eq lynxStateSize_eq
  have small : 66418 < lynxStateSize := by rw [lynxStateSize_eq]; decide
  have rejected : stateAccepted [] = false := by simp [stateAccepted, lynxStateSize_eq]
  obtain ⟨size, _, loads⟩ := whole.1 66419 room
  obtain ⟨_, same, goesOn⟩ := loads [0x99]
  refine ⟨size.trans lynxStateSize_eq, same, ?_, whole.2.1 _ small, kept.2.2 [] ?_⟩
  · rw [goesOn]
    rfl
  · simp [lynxStateLoad, rejected]

end Console

section Accepted

/-- The helpers of `cpu.c` and `recomp_rt.h`. -/
inductive CpuHelper where
  | value (h : ValueHelper) (v : Byte)
  | alu (h : AluHelper) (v : Byte)
  | reg (h : RegHelper)
  | stack (h : StackHelper)
  | assign (f : Flag) (b : Bool)
  | setNz (v : Byte)
  | push (v : Byte)
  | pull
  | pUnpack (p : Byte)
  | rti
  | reset

def CpuHelper.run : CpuHelper → Cpu → Code Cpu
  | value h v, c => pure (h.run v c)
  | alu h v, c => pure (h.run v c).2
  | reg h, c => pure (h.run c)
  | stack h, c => h.run c
  | assign f b, c => pure (f.assign b c)
  | setNz v, c => pure (lynxSetNz v c)
  | push v, c => lynxPush v c
  | pull, c => do
    let (_, c) ← lynxPull c
    pure c
  | pUnpack p, c => pure (lynxPUnpack p c)
  | rti, c => lynxRti c
  | reset, c => lynxCpuReset c

/-- What is done with a machine after a state was loaded into it. -/
inductive GuestOp where
  | rxPush (b : Byte)
  | readSerctl
  | readSerdat
  | writeSerctl (val : Byte)
  | writeSerdat (val : Byte)
  | helper (h : CpuHelper)

def guest (hooks : Hooks η) : CommandMachine (Machine η) GuestOp Unit where
  step
    | .rxPush b, m => ((), { m with hw := lynxSerialRxPush b m.hw })
    | .readSerctl, m => ((), { m with hw := (lynxMikeyRead mikeySerctl m.hw).2 })
    | .readSerdat, m => ((), { m with hw := (lynxMikeyRead mikeySerdat m.hw).2 })
    | .writeSerctl val, m => ((), { m with hw := lynxMikeyWrite hooks mikeySerctl val m.hw })
    | .writeSerdat val, m => ((), { m with hw := lynxMikeyWrite hooks mikeySerdat val m.hw })
    | .helper h, m => ((), m.exec hooks h.run)

/-- A link hook delivers bytes through `lynx_serial_rx_push` and changes the host's own
side, and touches nothing else. -/
def Hooks.LinkOnly (hooks : Hooks η) : Prop :=
  ∀ b hw, ∃ host received,
    hooks.tx b hw = List.foldl (fun hw b => lynxSerialRxPush b hw) { hw with host := host } received

/-- The FIFO indices address the array, the flags are 0 or 1, and the shift registers
have twelve bits. -/
structure Machine.WellFormed (m : Machine η) : Prop where
  fifo : m.hw.serial.InBounds
  flags : m.cpu.FlagsOk
  lfsr : ∀ c, (m.hw.audio c).lfsr < 0x1000

/-- The bytes of a save state that the invariants depend on: the six flags, the high
bytes of the shift registers, and the high bytes of the two FIFO indices. -/
structure SectionsOk (p : Nat → Byte) : Prop where
  flags : ∀ i < 6, p (65554 + i) ≤ 1
  lfsr : ∀ c < 4, p (66110 + 12 * c) < 0x10
  rxHead : p 66160 = 0
  rxTail : p 66162 = 0

theorem word16_toNat (lo hi : Byte) : (word16 lo hi).toNat = lo.toNat + 256 * hi.toNat := by
  have disjoint : word16 lo hi = hi ++ lo := by
    unfold word16
    ext i h
    simp
    grind
  rw [disjoint, BitVec.toNat_append, Nat.shiftLeft_eq, Nat.or_comm]
  rw [Nat.mul_comm, Nat.or_comm, ← Nat.two_pow_add_eq_or_of_lt lo.isLt]
  omega

theorem word16_lt_iff (lo hi : Byte) :
    (word16 lo hi < 0x1000 ↔ hi < 0x10) ∧ ((word16 lo hi).toNat < rxFifoSize ↔ hi = 0) := by
  have value := word16_toNat lo hi
  have low := lo.isLt
  refine ⟨?_, ?_⟩
  · rw [BitVec.lt_def, BitVec.lt_def, value]
    change _ < 4096 ↔ _ < 16
    omega
  · rw [value, ← BitVec.toNat_inj]
    change _ < 256 ↔ _ = 0
    omega

/-- Where the bytes of the three sections lie. -/
theorem loadSections_at (p : Nat → Byte) (t : Machine η) :
    let m := loadSections (Layout.advance hdr p) t
    (m.cpu.n = p 65554 ∧ m.cpu.v = p 65555 ∧ m.cpu.d = p 65556 ∧ m.cpu.i = p 65557 ∧
      m.cpu.z = p 65558 ∧ m.cpu.c = p 65559) ∧
    (∀ c : Fin 4, (m.hw.audio c).lfsr = word16 (p (66109 + 12 * c)) (p (66110 + 12 * c))) ∧
    m.hw.serial.rxHead = word16 (p 66159) (p 66160) ∧
    m.hw.serial.rxTail = word16 (p 66161) (p 66162) := by
  refine ⟨⟨rfl, rfl, rfl, rfl, rfl, rfl⟩, fun c => ?_, rfl, rfl⟩
  match c with
  | 0 | 1 | 2 | 3 => rfl

/-- A loaded machine meets the invariants exactly if the bytes they depend on do. -/
theorem loadSections_wellFormed (p : Nat → Byte) (t : Machine η) :
    (loadSections (Layout.advance hdr p) t).WellFormed ↔ SectionsOk p := by
  obtain ⟨⟨n, v, d, i, z, c⟩, lfsr, head, tail⟩ := loadSections_at p t
  constructor
  · rintro ⟨fifo, flags, shift⟩
    rw [Serial.InBounds, head, tail, (word16_lt_iff _ _).2, (word16_lt_iff _ _).2] at fifo
    refine ⟨fun k hk => ?_, fun k hk => ?_, fifo.1, fifo.2⟩
    · obtain ⟨fn, fv, fd, fi, fz, fc⟩ := flags
      rw [n, v, d, i, z, c] at *
      interval_cases k <;> assumption
    · have short := shift ⟨k, hk⟩
      rwa [lfsr, (word16_lt_iff _ _).1] at short
  · rintro ⟨flags, shift, fifoHead, fifoTail⟩
    refine ⟨?_, ⟨?_, ?_, ?_, ?_, ?_, ?_⟩, fun k => ?_⟩
    · rw [Serial.InBounds, head, tail, (word16_lt_iff _ _).2, (word16_lt_iff _ _).2]
      exact ⟨fifoHead, fifoTail⟩
    · exact n ▸ flags 0 (by decide)
    · exact v ▸ flags 1 (by decide)
    · exact d ▸ flags 2 (by decide)
    · exact i ▸ flags 3 (by decide)
    · exact z ▸ flags 4 (by decide)
    · exact c ▸ flags 5 (by decide)
    · rw [lfsr, (word16_lt_iff _ _).1]
      exact shift k.val k.isLt

variable {hooks : Hooks η} {hw : Hw η} {m : Machine η}

@[simp] theorem rxService_audio (hw : Hw η) : (rxService hw).audio = hw.audio := by
  unfold rxService; split <;> rfl

theorem lynxSerialRxPush_keeps (b : Byte) (inBounds : hw.serial.InBounds) :
    (lynxSerialRxPush b hw).serial.InBounds ∧ (lynxSerialRxPush b hw).audio = hw.audio := by
  unfold lynxSerialRxPush
  simp only
  split
  · exact ⟨inBounds, rfl⟩
  · rw [rxService_serial, rxService_audio]
    exact ⟨⟨by simpa using inBounds.1, Serial.rxNext_lt _⟩, rfl⟩

theorem rxPushes_keeps (received : List Byte) (inBounds : hw.serial.InBounds) :
    (received.foldl (fun hw b => lynxSerialRxPush b hw) hw).serial.InBounds ∧
      (received.foldl (fun hw b => lynxSerialRxPush b hw) hw).audio = hw.audio := by
  induction received generalizing hw with
  | nil => exact ⟨inBounds, rfl⟩
  | cons b received ih =>
    obtain ⟨pushed, audio⟩ := lynxSerialRxPush_keeps b inBounds
    obtain ⟨rest, same⟩ := ih pushed
    exact ⟨rest, same.trans audio⟩

theorem lynxSerialRead_keeps (off : Byte) (inBounds : hw.serial.InBounds) :
    (lynxSerialRead off hw).2.serial.InBounds ∧ (lynxSerialRead off hw).2.audio = hw.audio := by
  unfold lynxSerialRead
  split
  · split
    · exact ⟨inBounds, rfl⟩
    · simp only [rxService_serial, rxService_audio]
      exact ⟨⟨Serial.rxNext_lt _, inBounds.2⟩, trivial⟩
  · exact ⟨inBounds, rfl⟩

theorem lynxSerialWrite_keeps (link : hooks.LinkOnly) (off val : Byte)
    (inBounds : hw.serial.InBounds) :
    (lynxSerialWrite hooks off val hw).serial.InBounds ∧
      (lynxSerialWrite hooks off val hw).audio = hw.audio := by
  unfold lynxSerialWrite
  split
  · have sent : (if hw.host.txHook then hooks.tx val hw else hw).serial.InBounds ∧
        (if hw.host.txHook then hooks.tx val hw else hw).audio = hw.audio := by
      split
      · obtain ⟨host, received, delivered⟩ := link val hw
        rw [delivered]
        exact rxPushes_keeps received inBounds
      · exact ⟨inBounds, rfl⟩
    simp only
    generalize (if hw.host.txHook then hooks.tx val hw else hw) = after at sent ⊢
    split <;> exact sent
  · simp only [rxService_serial, rxService_audio]
    refine ⟨?_, trivial⟩
    split <;> exact inBounds

/-- The stack and the reset vector lie outside the registers, so a helper leaves the
UART and the audio channels alone. -/
theorem CpuHelper.run_frame (hooks : Hooks η) (h : CpuHelper) (c : Cpu) (hw : Hw η) :
    ((h.run c).run (memBus hooks) hw).2.serial = hw.serial ∧
      ((h.run c).run (memBus hooks) hw).2.audio = hw.audio := by
  have stack : ∀ s, stackAddr s < suzyBase := by
    intro s
    unfold stackAddr suzyBase
    bv_omega
  have push : ∀ v c, ((lynxPush v c).run (memBus hooks) hw).2.serial = hw.serial ∧
      ((lynxPush v c).run (memBus hooks) hw).2.audio = hw.audio := by
    intro v c
    simp [lynxPush, lynxMemWrite_ram hooks (stack _)]
  cases h with
  | value h v | alu h v | reg h | assign f b | setNz v | pUnpack p => exact ⟨rfl, rfl⟩
  | stack h =>
    cases h with
    | pha | phx | phy | php => exact push _ c
    | pla | plx | ply | plp =>
      simp [run, StackHelper.run, lynxPla, lynxPlx, lynxPly, lynxPlp, lynxPull,
        lynxMemRead_ram (stack _)]
  | push v => exact push v c
  | pull => simp [run, lynxPull, lynxMemRead_ram (stack _)]
  | rti => simp [run, lynxRti, lynxPull, lynxMemRead_ram (stack _)]
  | reset => exact ⟨rfl, rfl⟩

theorem CpuHelper.run_flagsOk (h : CpuHelper) {c : Cpu} (ok : c.FlagsOk) {σ : Type}
    (bus : Bus Addr Byte σ) (s : σ) : ((h.run c).run bus s).1.FlagsOk := by
  cases h with
  | value h v => exact h.run_flagsOk ok v
  | alu h v => exact h.run_flagsOk ok v
  | reg h => exact h.run_flagsOk ok
  | assign f b => exact f.assign_flagsOk ok b
  | setNz v => exact lynxSetNz_flagsOk ok v
  | pUnpack p => exact lynxPUnpack_flagsOk p c
  | push v | pull => exact { ok with }
  | rti => constructor <;> exact truth_le_one _
  | reset =>
    exact ⟨truth_le_one false, truth_le_one false, truth_le_one false, truth_le_one true,
      truth_le_one false, truth_le_one false⟩
  | stack h =>
    cases h with
    | pha | phx | phy | php => exact { ok with }
    | pla | plx | ply => refine lynxSetNz_flagsOk ?_ _; exact { ok with }
    | plp => exact lynxPUnpack_flagsOk _ _

theorem guest_wellFormed (link : hooks.LinkOnly) (op : GuestOp) (m : Machine η)
    (ok : m.WellFormed) : ((guest hooks).step op m).2.WellFormed := by
  obtain ⟨fifo, flags, lfsr⟩ := ok
  cases op with
  | rxPush b =>
    obtain ⟨inBounds, audio⟩ := lynxSerialRxPush_keeps b fifo
    exact ⟨inBounds, flags, fun c => audio ▸ lfsr c⟩
  | readSerctl => exact ⟨fifo, flags, lfsr⟩
  | readSerdat =>
    obtain ⟨inBounds, audio⟩ := lynxSerialRead_keeps mikeySerdat fifo
    exact ⟨inBounds, flags, fun c => audio ▸ lfsr c⟩
  | writeSerctl val =>
    obtain ⟨inBounds, audio⟩ := lynxSerialWrite_keeps link mikeySerctl val
      (show ({ m.hw with mikey := Function.update m.hw.mikey mikeySerctl val } :
        Hw η).serial.InBounds from fifo)
    exact ⟨inBounds, flags, fun c => audio ▸ lfsr c⟩
  | writeSerdat val =>
    obtain ⟨inBounds, audio⟩ := lynxSerialWrite_keeps link mikeySerdat val
      (show ({ m.hw with mikey := Function.update m.hw.mikey mikeySerdat val } :
        Hw η).serial.InBounds from fifo)
    exact ⟨inBounds, flags, fun c => audio ▸ lfsr c⟩
  | helper h =>
    obtain ⟨serial, audio⟩ := h.run_frame hooks m.cpu m.hw
    refine ⟨?_, h.run_flagsOk flags _ _, fun c => ?_⟩
    · exact serial ▸ fifo
    · exact audio ▸ lfsr c

theorem accepted_sections {buf : List Byte} (accepted : (lynxStateLoad buf m).1 = 0) :
    (lynxStateLoad buf m).2 = loadSections (Layout.advance hdr (bufPtr buf)) m := by
  rw [lynxStateLoad] at accepted ⊢
  split at accepted
  · rename_i header
    rw [if_pos header]
  · simp at accepted

/-- After an accepted load the invariants hold, and keep holding whatever is done, exactly
if the bytes of the buffer that they depend on are in range. -/
theorem loaded_state_wellFormed_iff (hooks : Hooks η) (link : hooks.LinkOnly) (buf : List Byte)
    (m : Machine η) (accepted : (lynxStateLoad buf m).1 = 0) (ops : List GuestOp) :
    (guest hooks).Always Machine.WellFormed ops (lynxStateLoad buf m).2 ↔
      SectionsOk (bufPtr buf) := by
  rw [← loadSections_wellFormed (bufPtr buf) m, accepted_sections accepted]
  exact ⟨CommandMachine.Always.head,
    CommandMachine.always_of_step (fun op m ok => guest_wellFormed link op m ok) ops⟩

/-- A state whose receive index lies outside the FIFO. -/
def wildIndex : Machine Unit :=
  let m := Machine.zeroed ()
  { m with hw := { m.hw with serial := { m.hw.serial with rxHead := 0x0100 } } }

/-- Its save state is accepted. -/
theorem wildIndex_accepted :
    (lynxStateLoad (lynxStateSave wildIndex lynxStateSize).2 (Machine.zeroed ())).1 = 0 ∧
      ¬ (guest Hooks.none).Always Machine.WellFormed [.readSerdat]
        (lynxStateLoad (lynxStateSave wildIndex lynxStateSize).2 (Machine.zeroed ())).2 := by
  have loaded := lynxStateLoad_save wildIndex (Machine.zeroed ()) (Nat.le_refl _) []
  rw [List.append_nil] at loaded
  rw [loaded]
  refine ⟨rfl, fun always => ?_⟩
  exact absurd always.head.fifo.1 (by decide)

/-- The state of the machine in use has its bytes in range. -/
theorem played_state_loads_wellFormed :
    (guest Hooks.none).Always Machine.WellFormed [.rxPush 1, .readSerdat, .helper .pull]
      (lynxStateLoad (lynxStateSave playedMachine lynxStateSize).2 (Machine.zeroed ())).2 := by
  have link : (Hooks.none : Hooks Unit).LinkOnly := fun b hw => ⟨hw.host, [], rfl⟩
  have loaded := lynxStateLoad_save playedMachine (Machine.zeroed ()) (Nat.le_refl _) []
  rw [List.append_nil] at loaded
  have accepted := congrArg Prod.fst loaded
  refine (loaded_state_wellFormed_iff Hooks.none link _ _ accepted _).mpr ?_
  rw [← loadSections_wellFormed _ (Machine.zeroed ()), ← accepted_sections accepted, loaded]
  exact ⟨⟨by decide, by decide⟩, ⟨by decide, by decide, by decide, by decide, by decide, by decide⟩,
    fun _ => show (0x0ABC : BitVec 16) < 0x1000 by decide⟩

end Accepted

end LynxRecomp
