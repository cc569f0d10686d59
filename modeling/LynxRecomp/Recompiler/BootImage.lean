import LynxRecomp.Recompiler.LynxRun
import LynxRecomp.Runtime.StackPage

/-!
# The boot image

`lynxexec.c` boots a cartridge with nothing but registers that can be written and read back
behind its bus, and stops when the loader hands over to the game. Where the loader reads no
register but RCART0, starts no blitter and keeps interrupts masked, the image is what `lynxrun`,
with the peripherals, has in its memory then.
-/

namespace LynxRecomp

open BusProgram

variable {η : Type}

namespace Lynxexec

/-- `icpu` and what is behind its bus -/
structure Machine where
  cpu : InterpCpu
  st : State

/-- Why the loop of `main` stops -/
inductive Reason where
  | indjmp (entry : Addr)
  | stopPc
  | budget
  | halt
  deriving DecidableEq, Repr

section Loop

variable (l : Loaded)

/-- What `main` sets up: the machine at the reset vector of the boot ROM -/
def start (s : State) : Machine :=
  let vector := (interpRd16 vecReset).run (bus l) (reset s)
  { cpu := interpResetPc vector.1, st := vector.2 }

def turn (m : Machine) : InterpEvent × Machine :=
  let r := (interpStep m.cpu).run (bus l) m.st
  (r.1.2, { cpu := r.1.1, st := r.2 })

def step (m : Machine) : Machine := (turn l m).2

/-- The loop of `main`: the instructions counted, the reason to stop, and the machine -/
def boot (stopPc : Addr) : Nat → Machine → (Nat × Reason) × Machine
  | 0, m => ((0, .budget), m)
  | maxi + 1, m =>
    if m.cpu.pc = stopPc then ((0, .stopPc), m)
    else
      let r := turn l m
      match r.1 with
      | .indjmp entry => ((0, .indjmp entry), r.2)
      | .halt => ((0, .halt), r.2)
      | .none =>
        let rest := boot stopPc maxi r.2
        ((rest.1.1 + 1, rest.1.2), rest.2)

/-- An instruction that stops the loop is executed, but not counted. -/
def executed (counted : Nat × Reason) : Nat :=
  match counted.2 with
  | .indjmp _ => counted.1 + 1
  | .halt => counted.1 + 1
  | .stopPc => counted.1
  | .budget => counted.1

end Loop

end Lynxexec

def Lynxrun.zeroed (own : η) : Lynxrun.State η where
  hw := .zeroed own
  mapctl := 0
  port := { cartBlock := 0, cartPos := 0, iodat := 0, strobePrev := 0 }
  flip := false

def suzyhrev : Addr := 0xFC88

/-- The register pages -/
def registers (a : Addr) : Prop := 0xFC00 ≤ a ∧ a ≤ 0xFDFF

instance (a : Addr) : Decidable (registers a) := inferInstanceAs (Decidable (_ ∧ _))

/-- No register is read but RCART0 and SUZYHREV, this one is not written, and the blitter is
not started. -/
def BootAccess : BusAccess Addr Byte → Prop
  | .read a => ¬ registers a ∨ a = rcart0 ∨ a = suzyhrev
  | .write a v => a ≠ suzyhrev ∧ ¬ (a = sprgo ∧ v &&& 1 ≠ 0)

instance : DecidablePred BootAccess := fun
  | .read _ => inferInstanceAs (Decidable (_ ∨ _))
  | .write _ _ => inferInstanceAs (Decidable (_ ∧ _))

/-- The instruction keeps to what both programs model, and leaves interrupts masked. -/
def BootTurn (l : Loaded) (m : Lynxexec.Machine) : Prop :=
  (interpStep m.cpu).Accesses (Lynxexec.bus l) (fun a _ => BootAccess a) m.st ∧
    (Lynxexec.step l m).cpu.i ≠ 0

instance (l : Loaded) (m : Lynxexec.Machine) : Decidable (BootTurn l m) :=
  inferInstanceAs (Decidable (_ ∧ _))

/-- What is behind the two buses: `lynxrun` keeps a byte under MAPCTL as well. -/
structure BootAlike (s : Lynxexec.State) (t : Lynxrun.State η) : Prop where
  ram : t.hw.ram = Function.update s.ram mapctlAddr s.mapctl
  mapctl : t.mapctl = s.mapctl
  port : t.port = s.port
  hrev : s.hwreg 0x88 = 0x01

section Alike

variable {l : Loaded} {s : Lynxexec.State} {t : Lynxrun.State η}

theorem BootAlike.ram_of_ne (alike : BootAlike s t) {a : Addr} (other : a ≠ mapctlAddr) :
    t.hw.ram a = s.ram a := by
  rw [alike.ram, Function.update_of_ne other]

theorem BootAlike.read (alike : BootAlike s t) {a : Addr} (ok : BootAccess (.read a)) :
    (Lynxrun.busRead l a t).1 = (Lynxexec.busRead l a s).1 ∧
      BootAlike (Lynxexec.busRead l a s).2 (Lynxrun.busRead l a t).2 := by
  unfold Lynxrun.busRead Lynxexec.busRead
  by_cases inside : 0xFC00 ≤ a ∧ a ≤ 0xFDFF
  · rw [if_pos inside]
    rcases ok with outside | rfl | rfl
    · exact absurd inside outside
    · rw [if_pos rfl, if_pos rfl, alike.port]
      exact ⟨rfl, alike.ram, alike.mapctl, rfl, alike.hrev⟩
    · exact ⟨alike.hrev.symm, alike⟩
  · have cart : a ≠ rcart0 := by
      rintro rfl
      exact inside (by decide)
    have same : overlaid t.mapctl a = overlaid s.mapctl a :=
      congrArg (fun mapctl => overlaid mapctl a) alike.mapctl
    rw [if_neg cart, if_neg inside]
    by_cases map : a = mapctlAddr
    · rw [if_pos map, if_pos map]
      exact ⟨alike.mapctl, alike⟩
    · rw [if_neg map, if_neg map, same]
      by_cases rom : overlaid s.mapctl a = true
      · rw [if_pos rom, if_pos rom]
        exact ⟨rfl, alike⟩
      · rw [if_neg rom, if_neg rom]
        have plain : lynxMemRead a t.hw = (t.hw.ram a, t.hw) := by
          unfold lynxMemRead suzyBase mikeyBase bootromBase
          rw [if_neg (by bv_omega), if_neg (by bv_omega)]
        rw [plain]
        exact ⟨alike.ram_of_ne map, alike⟩

theorem rxService_ram (hw : Hw η) : (rxService hw).ram = hw.ram := by
  unfold rxService
  split
  · rfl
  · rfl

theorem lynxSerialWrite_ram (off v : Byte) (hw : Hw η) :
    (lynxSerialWrite .none off v hw).ram = hw.ram := by
  unfold lynxSerialWrite
  split
  · have sent : (if hw.host.txHook then (Hooks.none : Hooks η).tx v hw else hw) = hw := ite_self _
    rw [sent]
    dsimp only
    split
    · rfl
    · rfl
  · exact rxService_ram _

theorem lynxMikeyWrite_ram (off v : Byte) (hw : Hw η) :
    (lynxMikeyWrite .none off v hw).ram = hw.ram := by
  unfold lynxMikeyWrite
  split
  · rfl
  · split
    · rfl
    · split
      · rfl
      · split
        · exact lynxSerialWrite_ram off v _
        · split
          · rfl
          · rfl

theorem lynxSuzyWrite_idle {off v : Byte} (quiet : ¬ (off = suzySprgo ∧ v &&& 1 ≠ 0)) (hw : Hw η) :
    (lynxSuzyWrite off v hw).ram = hw.ram := by
  unfold lynxSuzyWrite
  split
  · rename_i go
    rw [if_neg fun odd => quiet ⟨go, odd⟩]
  · split
    · rfl
    · split
      · rfl
      · rfl

/-- A store into the registers leaves memory alone, unless it starts the blitter. -/
theorem lynxMemWrite_registers {a : Addr} {v : Byte} (inside : registers a)
    (quiet : ¬ (a = sprgo ∧ v &&& 1 ≠ 0)) (hw : Hw η) :
    (lynxMemWrite .none a v hw).ram = hw.ram := by
  unfold lynxMemWrite
  by_cases suzy : suzyBase ≤ a ∧ a < mikeyBase
  · rw [if_pos suzy]
    apply lynxSuzyWrite_idle
    rintro ⟨offset, odd⟩
    refine quiet ⟨?_, odd⟩
    unfold sprgo
    rw [← offset]
    unfold regOff suzyBase mikeyBase at *
    bv_omega
  · have mikey : mikeyBase ≤ a ∧ a < bootromBase := by
      unfold registers suzyBase mikeyBase bootromBase at *
      bv_omega
    rw [if_neg suzy, if_pos mikey]
    exact lynxMikeyWrite_ram _ v hw

/-- Outside the registers a store goes to memory, the one to MAPCTL too. -/
theorem lynxMemWrite_outside {a : Addr} (outside : ¬ registers a) (v : Byte) (hw : Hw η) :
    lynxMemWrite .none a v hw = { hw with ram := Function.update hw.ram a v } := by
  unfold lynxMemWrite
  unfold registers at outside
  rw [if_neg (by unfold suzyBase mikeyBase; bv_omega),
    if_neg (by unfold mikeyBase bootromBase; bv_omega)]

theorem hwreg_hrev {a : Addr} (inside : registers a) (other : a ≠ suzyhrev) (v : Byte)
    (hwreg : Fin 0x200 → Byte) :
    Function.update hwreg (Lynxexec.hwregIndex a) v 0x88 = hwreg 0x88 := by
  apply Function.update_of_ne
  intro same
  have index : (Lynxexec.hwregIndex a).val = 0x88 := (congrArg Fin.val same).symm
  have value : (a - 0xFC00).toNat % 0x200 = 0x88 := index
  unfold registers at inside
  unfold suzyhrev at other
  apply other
  bv_omega

theorem BootAlike.write (alike : BootAlike s t) {a : Addr} {v : Byte}
    (ok : BootAccess (.write a v)) :
    BootAlike (Lynxexec.busWrite a v s) (Lynxrun.busWrite .none a v t) := by
  unfold Lynxexec.busWrite Lynxrun.busWrite
  by_cases inside : 0xFC00 ≤ a ∧ a ≤ 0xFDFF
  · have kept (hw : Hw η) := lynxMemWrite_registers inside ok.2 hw
    have hrev := (hwreg_hrev inside ok.1 v s.hwreg).trans alike.hrev
    rw [if_pos inside, if_pos inside]
    simp only
    split
    · exact ⟨(kept _).trans alike.ram, alike.mapctl, by rw [alike.port], hrev⟩
    · split
      · exact ⟨(kept _).trans alike.ram, alike.mapctl, by rw [alike.port], hrev⟩
      · split
        · exact ⟨(kept _).trans alike.ram, alike.mapctl, alike.port, hrev⟩
        · exact ⟨(kept _).trans alike.ram, alike.mapctl, alike.port, hrev⟩
  · rw [if_neg inside, if_neg inside]
    by_cases map : a = mapctlAddr
    · rw [if_pos map, if_pos map, lynxMemWrite_outside inside, alike.ram, map,
        Function.update_idem]
      exact ⟨rfl, rfl, alike.port, alike.hrev⟩
    · rw [if_neg map, if_neg map, lynxMemWrite_outside inside, alike.ram,
        Function.update_comm (Ne.symm map)]
      exact ⟨rfl, alike.mapctl, alike.port, alike.hrev⟩

/-- Neither program can tell on which bus it runs. -/
theorem BootAlike.run {α : Type} (alike : BootAlike s t) {p : Code α}
    (ok : p.Accesses (Lynxexec.bus l) (fun a _ => BootAccess a) s) :
    (p.run (Lynxrun.bus .none l) t).1 = (p.run (Lynxexec.bus l) s).1 ∧
      BootAlike (p.run (Lynxexec.bus l) s).2 (p.run (Lynxrun.bus .none l) t).2 :=
  run_simulates (R := fun t s => BootAlike s t) (fun _ _ _ alike ok => alike.read ok)
    (fun _ _ _ _ alike ok => alike.write ok) ok alike

end Alike

section Loops

variable {l : Loaded} {s : Lynxexec.Machine} {t : Lynxrun.Machine η}

/-- The two machines, with no interrupt delivered so far -/
structure BootMachines (s : Lynxexec.Machine) (t : Lynxrun.Machine η) : Prop where
  cpu : t.cpu = s.cpu
  irqs : t.irqs = 0
  alike : BootAlike s.st t.st

/-- An instruction leaves both at the same place: no interrupt follows it, and the timers are
no part of the image. -/
theorem BootMachines.turn (same : BootMachines s t) (ok : BootTurn l s) :
    (Lynxrun.turn l Lynxrun.videoTime t).1 = (Lynxexec.turn l s).1 ∧
      BootMachines (Lynxexec.step l s) (Lynxrun.step l Lynxrun.videoTime t) := by
  have ran := same.alike.run ok.1
  unfold Lynxrun.step Lynxexec.step Lynxrun.turn Lynxexec.turn at *
  rw [same.cpu]
  have masked := ok.2
  unfold Lynxexec.step Lynxexec.turn at masked
  simp only [ran.1] at *
  refine ⟨trivial, ?_⟩
  unfold Lynxrun.pass
  rw [if_neg fun due => masked due.2]
  exact ⟨rfl, same.irqs, ran.2.ram, ran.2.mapctl, ran.2.port, ran.2.hrev⟩

theorem BootMachines.iterate (same : BootMachines s t) {n : Nat}
    (ok : ∀ k < n, BootTurn l ((Lynxexec.step l)^[k] s)) :
    BootMachines ((Lynxexec.step l)^[n] s) ((Lynxrun.step l Lynxrun.videoTime)^[n] t) := by
  induction n with
  | zero => exact same
  | succ n ih =>
    rw [Function.iterate_succ_apply', Function.iterate_succ_apply']
    have before := ih fun k below => ok k (Nat.lt_succ_of_lt below)
    exact (before.turn (ok n (Nat.lt_succ_self n))).2

theorem Lynxexec.executed_succ (i : Nat) (reason : Reason) :
    executed (i + 1, reason) = executed (i, reason) + 1 := by
  cases reason with
  | indjmp entry => rfl
  | stopPc => rfl
  | budget => rfl
  | halt => rfl

/-- What the loop of `lynxexec` does: it stops after the first instruction with an event. -/
structure Lynxexec.Boots (l : Loaded) (m : Machine) (b : (Nat × Reason) × Machine) : Prop where
  machine : b.2 = (step l)^[executed b.1] m
  before : ∀ k < b.1.1, (turn l ((step l)^[k] m)).1 = .none
  last : ∀ entry, b.1.2 = .indjmp entry → (turn l ((step l)^[b.1.1] m)).1 = .indjmp entry

theorem Lynxexec.boot_boots (l : Loaded) (stopPc : Addr) (maxi : Nat) (m : Machine) :
    Boots l m (boot l stopPc maxi m) := by
  induction maxi generalizing m with
  | zero => exact ⟨rfl, by simp [boot], by simp [boot]⟩
  | succ maxi ih =>
    rw [boot]
    by_cases stop : m.cpu.pc = stopPc
    · rw [if_pos stop]
      exact ⟨rfl, by simp, by simp⟩
    · rw [if_neg stop]
      simp only
      cases event : (turn l m).1 with
      | none =>
        rcases ih (turn l m).2 with ⟨machine, before, last⟩
        refine ⟨?_, fun k below => ?_, last⟩
        · rw [machine, executed_succ]
          rfl
        · cases k with
          | zero => exact event
          | succ k => exact before k (Nat.lt_of_succ_lt_succ below)
      | indjmp entry =>
        refine ⟨rfl, by simp, fun entry' same => ?_⟩
        rw [← (Reason.indjmp.injEq ..).mp same]
        exact event
      | halt => exact ⟨rfl, by simp, by simp⟩

/-- The first indirect jump of a run of `lynxrun` -/
theorem Lynxrun.runHeadless_entry {i maxi : Nat} {entry : Addr} (room : i < maxi)
    (before : ∀ k < i, (turn l videoTime ((step l videoTime)^[k] t)).1 = .none)
    (jumps : (turn l videoTime ((step l videoTime)^[i] t)).1 = .indjmp entry) :
    (runHeadless l maxi t).1 = some (i, entry) := by
  induction maxi generalizing i t with
  | zero => exact absurd room (Nat.not_lt_zero i)
  | succ maxi ih =>
    rw [runHeadless]
    cases i with
    | zero =>
      rw [show (turn l videoTime t).1 = .indjmp entry from jumps]
    | succ i =>
      rw [show (turn l videoTime t).1 = .none from before 0 i.succ_pos]
      have found := ih (t := (turn l videoTime t).2) (Nat.lt_of_succ_lt_succ room)
        (fun k below => before (k + 1) (Nat.succ_lt_succ below)) jumps
      rw [found]
      rfl

/-- Both programs start at the reset vector of the boot ROM. -/
theorem bootMachines_start (l : Loaded) (own : η) :
    BootMachines (Lynxexec.start l Lynxexec.zeroed) (Lynxrun.start l (Lynxrun.zeroed own)) := by
  have alike : BootAlike (Lynxexec.reset Lynxexec.zeroed)
      (Lynxrun.setup (Lynxrun.zeroed own)) := by
    refine ⟨?_, rfl, rfl, rfl⟩
    exact (Function.update_eq_self mapctlAddr (fun _ => (0 : Byte))).symm
  have ran := alike.run (l := l) (p := interpRd16 vecReset) (by
    refine ⟨.inl ?_, .inl ?_, trivial⟩
    · decide
    · decide)
  refine ⟨?_, rfl, ran.2⟩
  exact congrArg interpResetPc ran.1

/-- Where the loader keeps to what both programs model, the machine whose memory `lynxexec`
dumps is the one that `lynxrun` is in after as many instructions, and the game's entry is the
one that `lynxrun` reports. -/
theorem boot_agrees (l : Loaded) (own : η) (stopPc : Addr) (maxi : Nat) :
    let m := Lynxexec.start l Lynxexec.zeroed
    let b := Lynxexec.boot l stopPc maxi m
    let n := Lynxexec.executed b.1
    (∀ k < n, BootTurn l ((Lynxexec.step l)^[k] m)) →
    let t := Lynxrun.start l (Lynxrun.zeroed own)
    BootMachines b.2 ((Lynxrun.step l Lynxrun.videoTime)^[n] t) ∧
      ∀ entry, b.1.2 = .indjmp entry → ∀ maxi', b.1.1 < maxi' →
        (Lynxrun.runHeadless l maxi' t).1 = some (b.1.1, entry) := by
  intro m b n ok t
  have same : BootMachines m t := bootMachines_start l own
  have boots : Lynxexec.Boots l m b := Lynxexec.boot_boots l stopPc maxi m
  constructor
  · rw [boots.machine]
    exact same.iterate ok
  · intro entry reason maxi' room
    have count : n = b.1.1 + 1 := by
      change Lynxexec.executed b.1 = _
      unfold Lynxexec.executed
      rw [reason]
    have turn (k : Nat) (below : k < n) :
        (Lynxrun.turn l Lynxrun.videoTime ((Lynxrun.step l Lynxrun.videoTime)^[k] t)).1 =
          (Lynxexec.turn l ((Lynxexec.step l)^[k] m)).1 := by
      have at_ := same.iterate (n := k) fun j before => ok j (Nat.lt_trans before below)
      exact (at_.turn (ok k below)).1
    apply Lynxrun.runHeadless_entry room
    · intro k below
      rw [turn k (by omega)]
      exact boots.before k below
    · rw [turn b.1.1 (by omega)]
      exact boots.last entry reason

/-- A boot ROM that stores 5 in `$4F` and jumps through `$004E` -/
def jumpingRom : Loaded where
  bootrom i :=
    #[0xA9, 0x05, 0x85, 0x4F, 0x6C, 0x4E, 0x00].getD i (if i.val = 0x1FD then 0xFE else 0x00)
  cart := []
  pagesize := 2048

theorem boot_agrees_jumpingRom :
    let m := Lynxexec.start jumpingRom Lynxexec.zeroed
    let b := Lynxexec.boot jumpingRom 0xFFFF 20 m
    let t := Lynxrun.start jumpingRom (Lynxrun.zeroed ())
    b.1 = (2, .indjmp 0x0500) ∧
      BootMachines b.2 ((Lynxrun.step jumpingRom Lynxrun.videoTime)^[3] t) ∧
      (Lynxrun.runHeadless jumpingRom 10 t).1 = some (2, 0x0500) := by
  intro m b t
  have turns : ∀ k < 3, BootTurn jumpingRom ((Lynxexec.step jumpingRom)^[k] m) := by
    decide +kernel
  have stopped : b.1 = (2, .indjmp 0x0500) := by decide +kernel
  rcases boot_agrees jumpingRom () 0xFFFF 20 turns with ⟨same, entry⟩
  exact ⟨stopped, same, entry 0x0500 rfl 10 (by decide)⟩

end Loops

end LynxRecomp
