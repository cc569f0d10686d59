import LynxRecomp.Lib.CommandMachine
import LynxRecomp.Runtime.Mem

/-!
# The receive interrupt

`rx_service` raises the shared latch bit after a push, after a SERDAT read and after
a SERCTL write; INTRST clears it from outside the UART. A byte that waits while
receive interrupts are armed is signalled in every state, except after an
acknowledgement that clears the bit while bytes are still queued.
-/

namespace LynxRecomp

variable {η : Type}

/-- What reaches the UART and the interrupt latch. -/
inductive LinkOp where
  | rxPush (b : Byte)
  | readSerctl
  | readSerdat
  | writeSerctl (val : Byte)
  | writeSerdat (val : Byte)
  | writeIntrst (val : Byte)
  | writeIntset (val : Byte)
  | timerStep (us : Word)
  deriving DecidableEq, Repr

/-- The hardware, and the last value written to SERCTL since `lynx_mikey_init`. -/
structure LinkState (η : Type) where
  hw : Hw η
  lastSerctl : Option Byte

namespace LinkState

def init (hw : Hw η) : LinkState η := { hw := lynxMikeyInit hw, lastSerctl := none }

/-- The last SERCTL value written has RXINTEN set. -/
def Armed (s : LinkState η) : Prop := ∃ val ∈ s.lastSerctl, val &&& serctlRxinten ≠ 0

/-- A byte waits, and receive interrupts are armed. -/
def Waiting (s : LinkState η) : Prop := rxEmpty s.hw.serial = false ∧ s.Armed

/-- A byte that waits for an armed handler is signalled. -/
def Signalled (s : LinkState η) : Prop := s.Waiting → s.hw.timer.irqLatch.getLsbD 4 = true

end LinkState

def linkPort (hooks : Hooks η) : CommandMachine (LinkState η) LinkOp (Option Byte) where
  step
    | .rxPush b, s => (none, { s with hw := lynxSerialRxPush b s.hw })
    | .readSerctl, s =>
      let r := lynxMikeyRead mikeySerctl s.hw
      (some r.1, { s with hw := r.2 })
    | .readSerdat, s =>
      let r := lynxMikeyRead mikeySerdat s.hw
      (some r.1, { s with hw := r.2 })
    | .writeSerctl val, s =>
      (none, { hw := lynxMikeyWrite hooks mikeySerctl val s.hw, lastSerctl := some val })
    | .writeSerdat val, s => (none, { s with hw := lynxMikeyWrite hooks mikeySerdat val s.hw })
    | .writeIntrst val, s => (none, { s with hw := lynxMikeyWrite hooks mikeyIntrst val s.hw })
    | .writeIntset val, s => (none, { s with hw := lynxMikeyWrite hooks mikeyIntset val s.hw })
    | .timerStep us, s =>
      let r := lynxTimerStep us s.hw
      (some r.1, { s with hw := r.2 })

/-- The acknowledgement leaves the latch bit alone while a byte waits for an armed handler. -/
def AcknowledgeOk : LinkOp → LinkState η → Prop
  | .writeIntrst val, s => s.Waiting → val.getLsbD 4 = false
  | _, _ => True

namespace LinkState

variable {s : LinkState η}

/-- The UART knows whether it is armed; no link is attached that could call back. -/
structure Tracked (s : LinkState η) : Prop where
  ctrl : s.hw.serial.ctrl = s.lastSerctl.getD 0
  noHook : s.hw.host.txHook = false

theorem tracked_init (hw : Hw η) : (init hw).Tracked := ⟨rfl, rfl⟩

theorem signalled_init (hw : Hw η) : (init hw).Signalled := fun ⟨waiting, _⟩ => by
  simp [init, lynxMikeyInit, lynxSerialInit, rxEmpty] at waiting

theorem Tracked.armed (tracked : s.Tracked) :
    s.Armed ↔ s.hw.serial.ctrl &&& serctlRxinten ≠ 0 := by
  rw [tracked.ctrl, Armed]
  cases s.lastSerctl with
  | none => simp
  | some val => simp

/-- After `rx_service` an armed receiver with a byte waiting has its bit latched. -/
theorem signalled_rxService {hw : Hw η} {last : Option Byte}
    (tracked : Tracked ⟨rxService hw, last⟩) : Signalled ⟨rxService hw, last⟩ := by
  rintro ⟨waiting, armed⟩
  have enabled := tracked.armed.mp armed
  rw [rxService_serial] at waiting enabled
  have raised : rxService hw = lynxIrqRaise serialIrqBit hw := by
    simp only [rxService, waiting, Bool.not_false, Bool.true_and, bne_iff_ne, ne_eq]
    rw [if_pos enabled]
  simp only [raised, lynxIrqRaise_latch, BitVec.getLsbD_or]
  rw [show serialIrqBit.getLsbD 4 = true by decide, Bool.or_true]

/-- A step that changes neither the UART nor clears the bit keeps the signal. -/
theorem Signalled.of_latch {hw : Hw η} (holds : s.Signalled) (serial : hw.serial = s.hw.serial)
    (latch : s.hw.timer.irqLatch.getLsbD 4 = true → hw.timer.irqLatch.getLsbD 4 = true) :
    Signalled ⟨hw, s.lastSerctl⟩ := by
  rintro ⟨waiting, armed⟩
  rw [serial] at waiting
  exact latch (holds ⟨waiting, armed⟩)

end LinkState

section Step

variable {hooks : Hooks η} {s : LinkState η}

open LinkState

theorem writeSerdat_serial (val : Byte) (hw : Hw η) (noHook : hw.host.txHook = false) :
    (lynxMikeyWrite hooks mikeySerdat val hw).serial = hw.serial ∧
      (lynxMikeyWrite hooks mikeySerdat val hw).host = hw.host ∧
      (hw.timer.irqLatch.getLsbD 4 = true →
        (lynxMikeyWrite hooks mikeySerdat val hw).timer.irqLatch.getLsbD 4 = true) := by
  have written : lynxMikeyWrite hooks mikeySerdat val hw = lynxSerialWrite hooks mikeySerdat val
      { hw with mikey := Function.update hw.mikey mikeySerdat val } := rfl
  rw [written, lynxSerialWrite, if_pos (by rfl)]
  simp only [noHook, Bool.false_eq_true, if_false]
  split
  · refine ⟨rfl, rfl, fun h => ?_⟩
    simp [h]
  · exact ⟨rfl, rfl, id⟩

theorem linkPort_tracked (op : LinkOp) (tracked : s.Tracked) :
    ((linkPort hooks).step op s).2.Tracked := by
  obtain ⟨ctrl, noHook⟩ := tracked
  cases op with
  | rxPush b =>
    simp only [linkPort, lynxSerialRxPush]
    split
    · exact ⟨ctrl, noHook⟩
    · refine ⟨?_, by simpa using noHook⟩
      simp only [rxService_serial, Serial.fifoSet]
      split <;> exact ctrl
  | readSerdat =>
    simp only [linkPort, lynxMikeyRead, lynxSerialRead]
    rw [if_neg (by decide), if_pos (by decide), if_pos (by rfl)]
    split
    · exact ⟨ctrl, noHook⟩
    · exact ⟨by simpa using ctrl, by simpa using noHook⟩
  | writeSerctl val =>
    have written : (lynxMikeyWrite hooks mikeySerctl val s.hw) =
        lynxSerialWrite hooks mikeySerctl val
          { s.hw with mikey := Function.update s.hw.mikey mikeySerctl val } := rfl
    simp only [linkPort, written, lynxSerialWrite]
    rw [if_neg (by decide)]
    refine ⟨?_, by simpa using noHook⟩
    simp only [rxService_serial]
    split <;> rfl
  | writeSerdat val =>
    obtain ⟨serial, host, -⟩ := @writeSerdat_serial _ hooks val s.hw noHook
    exact ⟨by simpa only [linkPort, serial] using ctrl, by simpa only [linkPort, host] using noHook⟩
  | readSerctl | writeIntrst val | writeIntset val | timerStep us => exact ⟨ctrl, noHook⟩

/-- From a signalled state, exactly the steps that `AcknowledgeOk` permits keep it so. -/
theorem linkPort_signalled (op : LinkOp) (tracked : s.Tracked) (holds : s.Signalled) :
    ((linkPort hooks).step op s).2.Signalled ↔ AcknowledgeOk op s := by
  have next : ((linkPort hooks).step op s).2.Tracked := linkPort_tracked op tracked
  cases op with
  | writeIntrst val =>
    have acked : lynxMikeyWrite hooks mikeyIntrst val s.hw = lynxIrqAck val s.hw := rfl
    simp only [linkPort, acked, AcknowledgeOk, Signalled, lynxIrqAck_latch, BitVec.getLsbD_and,
      BitVec.getLsbD_not]
    refine forall_congr' fun waiting => ?_
    rw [holds waiting]
    simp
  | rxPush b =>
    refine iff_of_true ?_ trivial
    simp only [linkPort, lynxSerialRxPush] at next ⊢
    by_cases full : rxNext s.hw.serial.rxTail = s.hw.serial.rxHead
    · rw [if_pos full]
      exact holds
    · rw [if_neg full] at next ⊢
      exact signalled_rxService next
  | readSerdat =>
    refine iff_of_true ?_ trivial
    simp only [linkPort, lynxMikeyRead, lynxSerialRead] at next ⊢
    rw [if_neg (by decide), if_pos (by decide), if_pos (by rfl)] at next ⊢
    by_cases empty : rxEmpty s.hw.serial = true
    · rw [if_pos empty]
      exact holds
    · rw [if_neg empty] at next ⊢
      exact signalled_rxService next
  | writeSerctl val => exact iff_of_true (signalled_rxService next) trivial
  | writeSerdat val =>
    obtain ⟨serial, -, latch⟩ := @writeSerdat_serial _ hooks val s.hw tracked.noHook
    exact iff_of_true (holds.of_latch serial latch) trivial
  | writeIntset val =>
    refine iff_of_true (holds.of_latch rfl fun h => ?_) trivial
    change (lynxIrqRaise val s.hw).timer.irqLatch.getLsbD 4 = true
    simp [h]
  | timerStep us =>
    exact iff_of_true (holds.of_latch rfl (lynxTimerStep_latch 4 us s.hw)) trivial
  | readSerctl => exact iff_of_true holds trivial

end Step

/-- From `lynx_mikey_init` on, every state of a run signals the bytes that wait exactly
if no acknowledgement of the run clears the bit while bytes wait for an armed handler. -/
theorem waiting_byte_signalled_iff (hooks : Hooks η) (hw : Hw η) (ops : List LinkOp) :
    (linkPort hooks).Always LinkState.Signalled ops (LinkState.init hw) ↔
      (linkPort hooks).Permitted AcknowledgeOk ops (LinkState.init hw) :=
  CommandMachine.always_iff_permitted (fun op _ => linkPort_tracked op)
    (fun op _ => linkPort_signalled op) (LinkState.tracked_init hw) (LinkState.signalled_init hw)

/-- A handler that reads one of two bytes and then acknowledges is not interrupted again. -/
theorem acknowledged_byte_unsignalled :
    ¬ (linkPort Hooks.none).Always LinkState.Signalled
      [.writeSerctl 0x40, .rxPush 0x11, .rxPush 0x22, .readSerdat, .writeIntrst 0x10]
      (LinkState.init (Hw.zeroed ())) := by
  intro always
  have cleared := always.last ⟨by decide, 0x40, by decide, by decide⟩
  exact absurd cleared (by decide)

end LynxRecomp
