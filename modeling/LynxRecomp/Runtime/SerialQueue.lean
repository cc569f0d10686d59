import LynxRecomp.Lib.CommandMachine
import LynxRecomp.Lib.Ring
import LynxRecomp.Runtime.Serial

/-!
# The UART receiver as a bounded queue

The abstract receiver is a first-in-first-out queue of at most 255 bytes and one
overrun flag. The circular FIFO of `serial.c` refines it, whatever is pushed, read
and written in whatever order.
-/

namespace LynxRecomp

variable {η : Type}

namespace Serial

/-- Both FIFO indices address the array. -/
def InBounds (s : Serial) : Prop := s.rxHead.toNat < rxFifoSize ∧ s.rxTail.toNat < rxFifoSize

/-- The FIFO array as a function of any index. -/
def slot (s : Serial) (i : Nat) : Byte := s.fifoGet (BitVec.ofNat 16 i)

/-- The bytes waiting, oldest first. -/
def queue (s : Serial) : List Byte := Ring.queue rxFifoSize s.slot s.rxHead.toNat s.rxTail.toNat

theorem rxNext_toNat {i : BitVec 16} (h : i.toNat < rxFifoSize) :
    (rxNext i).toNat = Ring.next rxFifoSize i.toNat := by
  have masked : (rxNext i).toNat = (i.toNat + 1) % 256 := by
    rw [rxNext, BitVec.toNat_and, BitVec.toNat_add]
    exact (Nat.and_two_pow_sub_one_eq_mod _ 8).trans (by simp)
  have bound : i.toNat < 256 := h
  rw [masked]
  unfold Ring.next
  change _ = if i.toNat + 1 = 256 then 0 else i.toNat + 1
  split <;> omega

theorem rxNext_lt (i : BitVec 16) : (rxNext i).toNat < rxFifoSize := by
  rw [rxNext, BitVec.toNat_and]
  exact Nat.lt_of_le_of_lt Nat.and_le_right (by decide)

theorem fifoGet_slot (s : Serial) (i : BitVec 16) : s.fifoGet i = s.slot i.toNat := by
  simp [slot]

theorem slot_fifoSet (s : Serial) {i : BitVec 16} (h : i.toNat < rxFifoSize) (b : Byte)
    {j : Nat} (hj : j < rxFifoSize) :
    (s.fifoSet i b).slot j = Function.update s.slot i.toNat b j := by
  have wide : (BitVec.ofNat 16 j).toNat = j := by simp [rxFifoSize] at *; omega
  simp only [slot, fifoGet, fifoSet, h, wide, hj, dite_true]
  by_cases e : j = i.toNat
  · subst e; simp
  · rw [Function.update_of_ne e, Function.update_of_ne (by simpa [Fin.ext_iff] using e)]
    simp only [slot, fifoGet, wide, hj, dite_true]

@[simp] theorem fifoSet_rxHead (s : Serial) (i : BitVec 16) (b : Byte) :
    (s.fifoSet i b).rxHead = s.rxHead := by unfold fifoSet; split <;> rfl

@[simp] theorem fifoSet_ctrl (s : Serial) (i : BitVec 16) (b : Byte) :
    (s.fifoSet i b).ctrl = s.ctrl := by unfold fifoSet; split <;> rfl

@[simp] theorem fifoSet_statusErr (s : Serial) (i : BitVec 16) (b : Byte) :
    (s.fifoSet i b).statusErr = s.statusErr := by unfold fifoSet; split <;> rfl

theorem rxEmpty_iff {s : Serial} (h : s.InBounds) : rxEmpty s = true ↔ s.queue = [] := by
  rw [queue, Ring.queue_eq_nil _ h.1, rxEmpty, beq_iff_eq, BitVec.toNat_inj]

/-- The queue has 255 bytes exactly when the next write index would meet the read index. -/
theorem full_iff {s : Serial} (h : s.InBounds) :
    rxNext s.rxTail = s.rxHead ↔ s.queue.length + 1 = rxFifoSize := by
  rw [queue, Ring.length_queue, ← Ring.count_full h.1 h.2, ← rxNext_toNat h.2, BitVec.toNat_inj]

theorem queue_push {s : Serial} (h : s.InBounds) (b : Byte) (room : rxNext s.rxTail ≠ s.rxHead) :
    ({ s.fifoSet s.rxTail b with rxTail := rxNext s.rxTail } : Serial).queue = s.queue ++ [b] := by
  have next := rxNext_toNat h.2
  have room' : Ring.next rxFifoSize s.rxTail.toNat ≠ s.rxHead.toNat := by
    rwa [← next, ne_eq, BitVec.toNat_inj]
  have written : Ring.queue rxFifoSize (s.fifoSet s.rxTail b).slot s.rxHead.toNat
      (rxNext s.rxTail).toNat = s.queue ++ [b] := by
    rw [Ring.queue_congr h.1 (rxNext_lt _) fun j hj => slot_fifoSet s h.2 b hj, next]
    exact Ring.queue_push _ _ h.1 h.2 room'
  rw [← written, queue, fifoSet_rxHead]
  rfl

theorem queue_pop {s : Serial} (h : s.InBounds) (nonempty : rxEmpty s = false) :
    s.queue = s.fifoGet s.rxHead ::
      ({ s with rxHead := rxNext s.rxHead } : Serial).queue := by
  have ne : s.rxHead.toNat ≠ s.rxTail.toNat := by
    simpa [rxEmpty, BitVec.toNat_inj] using nonempty
  rw [queue, Ring.queue_pop _ h.1 h.2 ne, ← fifoGet_slot, ← rxNext_toNat h.1]
  rfl

end Serial

/-- The receiver as the game sees it: the bytes waiting, oldest first, and whether one
was lost since the error flags were last reset. -/
structure Receiver where
  queue : List Byte
  overrun : Bool
  bounded : queue.length < rxFifoSize

namespace Receiver

def empty : Receiver := ⟨[], false, by decide⟩

/-- Append a byte, or note the overrun when 255 bytes are waiting. -/
def push (r : Receiver) (b : Byte) : Receiver :=
  if h : (r.queue ++ [b]).length < rxFifoSize then ⟨r.queue ++ [b], r.overrun, h⟩
  else ⟨r.queue, true, r.bounded⟩

/-- Take the oldest byte; an empty queue gives 0 and stays as it is. -/
def pop (r : Receiver) : Byte × Receiver :=
  match r with
  | ⟨[], o, h⟩ => (0, ⟨[], o, h⟩)
  | ⟨b :: q, o, h⟩ => (b, ⟨q, o, Nat.lt_of_succ_lt h⟩)

def status (r : Receiver) : Byte :=
  serctlTxrdy ||| serctlTxempty ||| (if r.queue = [] then 0 else serctlRxrdy) |||
    (if r.overrun then serctlOverrun else 0)

def control (r : Receiver) (val : Byte) : Receiver :=
  { r with overrun := r.overrun && val &&& serctlReseterr == 0 }

end Receiver

/-- What the link and the game do with the receiver. -/
inductive UartOp where
  | push (b : Byte)
  | readSerdat
  | readSerctl
  | writeSerctl (val : Byte)
  deriving DecidableEq, Repr

/-- The UART of `serial.c`; a push and a write answer nothing. -/
def uart (hooks : Hooks η) : CommandMachine (Hw η) UartOp (Option Byte) where
  step
    | .push b, hw => (none, lynxSerialRxPush b hw)
    | .readSerdat, hw => (some (lynxSerialRead mikeySerdat hw).1, (lynxSerialRead mikeySerdat hw).2)
    | .readSerctl, hw => (some (lynxSerialRead mikeySerctl hw).1, (lynxSerialRead mikeySerctl hw).2)
    | .writeSerctl val, hw => (none, lynxSerialWrite hooks mikeySerctl val hw)

def receiver : CommandMachine Receiver UartOp (Option Byte) where
  step
    | .push b, r => (none, r.push b)
    | .readSerdat, r => (some r.pop.1, r.pop.2)
    | .readSerctl, r => (some r.status, r)
    | .writeSerctl val, r => (none, r.control val)

/-- The UART variables hold the abstract receiver. -/
structure Represents (s : Serial) (r : Receiver) : Prop where
  inBounds : s.InBounds
  queue : s.queue = r.queue
  errors : s.statusErr = if r.overrun then serctlOverrun else 0

namespace Represents

variable {hw : Hw η} {r : Receiver}

theorem init (hw : Hw η) : Represents (lynxSerialInit hw).serial Receiver.empty where
  inBounds := by constructor <;> simp [lynxSerialInit, rxFifoSize]
  queue := rfl
  errors := rfl

theorem push (h : Represents hw.serial r) (b : Byte) :
    Represents (lynxSerialRxPush b hw).serial (r.push b) := by
  obtain ⟨inBounds, queue, errors⟩ := h
  have full := Serial.full_iff inBounds
  rw [queue] at full
  by_cases lost : rxNext hw.serial.rxTail = hw.serial.rxHead
  · have many : ¬ (r.queue ++ [b]).length < rxFifoSize := by
      have := full.mp lost
      simp; omega
    rw [lynxSerialRxPush, if_pos lost, Receiver.push, dif_neg many]
    refine ⟨inBounds, queue, ?_⟩
    simp only [errors]
    cases r.overrun <;> rfl
  · have few : (r.queue ++ [b]).length < rxFifoSize := by
      have := mt full.mpr lost
      have := r.bounded
      simp; omega
    rw [lynxSerialRxPush, if_neg lost, Receiver.push, dif_pos few, rxService_serial]
    refine ⟨⟨by simpa using inBounds.1, Serial.rxNext_lt _⟩, ?_, by simpa using errors⟩
    rw [Serial.queue_push inBounds b lost, queue]

theorem pop (h : Represents hw.serial r) :
    (lynxSerialRead mikeySerdat hw).1 = r.pop.1 ∧
      Represents (lynxSerialRead mikeySerdat hw).2.serial r.pop.2 := by
  obtain ⟨inBounds, queue, errors⟩ := h
  have empty := Serial.rxEmpty_iff inBounds
  rw [lynxSerialRead, if_pos (by rfl)]
  match r with
  | ⟨[], o, hr⟩ =>
    rw [if_pos (empty.mpr queue)]
    exact ⟨rfl, inBounds, queue, errors⟩
  | ⟨b :: q, o, hr⟩ =>
    have waiting : rxEmpty hw.serial = false := by
      rw [← Bool.not_eq_true, empty, queue]
      exact List.cons_ne_nil b q
    have oldest := Serial.queue_pop inBounds waiting
    rw [queue, List.cons.injEq] at oldest
    rw [if_neg (by simp [waiting])]
    refine ⟨oldest.1.symm, ?_⟩
    rw [rxService_serial]
    exact ⟨⟨Serial.rxNext_lt _, inBounds.2⟩, oldest.2.symm, errors⟩

theorem status (h : Represents hw.serial r) : (lynxSerialRead mikeySerctl hw).1 = r.status := by
  have empty := Serial.rxEmpty_iff h.inBounds
  rw [h.queue] at empty
  rw [lynxSerialRead, if_neg (by decide)]
  simp only [h.errors, Receiver.status]
  by_cases none : r.queue = []
  · rw [empty.mpr none, if_pos none]
    cases r.overrun <;> rfl
  · rw [Bool.eq_false_iff.mpr (mt empty.mp none), if_neg none]
    cases r.overrun <;> rfl

theorem control (h : Represents hw.serial r) (hooks : Hooks η) (val : Byte) :
    Represents (lynxSerialWrite hooks mikeySerctl val hw).serial (r.control val) := by
  obtain ⟨inBounds, queue, errors⟩ := h
  rw [lynxSerialWrite, if_neg (by decide), rxService_serial]
  by_cases reset : val &&& serctlReseterr = 0
  · have kept : (val &&& serctlReseterr == 0) = true := by simpa using reset
    rw [if_neg (not_not.mpr reset)]
    exact ⟨inBounds, queue, by simpa only [Receiver.control, kept, Bool.and_true] using errors⟩
  · have cleared : (val &&& serctlReseterr == 0) = false := by simpa using reset
    rw [if_pos reset]
    exact ⟨inBounds, queue, by simp only [Receiver.control, cleared, Bool.and_false]; rfl⟩

theorem step (hooks : Hooks η) (op : UartOp) (h : Represents hw.serial r) :
    ((uart hooks).step op hw).1 = (receiver.step op r).1 ∧
      Represents ((uart hooks).step op hw).2.serial (receiver.step op r).2 := by
  cases op with
  | push b => exact ⟨rfl, h.push b⟩
  | readSerdat => exact ⟨congrArg some h.pop.1, h.pop.2⟩
  | readSerctl => exact ⟨congrArg some h.status, h⟩
  | writeSerctl val => exact ⟨rfl, h.control hooks val⟩

end Represents

/-- Whatever is pushed, read and written after `lynx_serial_init`, the UART answers as
the bounded queue does, ends holding that queue, and keeps its indices in the array. -/
theorem uart_refines_receiver (hooks : Hooks η) (hw : Hw η) (ops : List UartOp) :
    ((uart hooks).run ops (lynxSerialInit hw)).1 = (receiver.run ops Receiver.empty).1 ∧
      Represents ((uart hooks).run ops (lynxSerialInit hw)).2.serial
        (receiver.run ops Receiver.empty).2 ∧
      (uart hooks).Always (fun hw => hw.serial.InBounds) ops (lynxSerialInit hw) := by
  obtain ⟨same, final⟩ := CommandMachine.run_refines
    (R := fun (hw : Hw η) r => Represents hw.serial r)
    (fun op _ _ h => h.step hooks op) ops (Represents.init hw)
  refine ⟨same, final, ?_⟩
  have represented : (uart hooks).Always (fun hw => ∃ r, Represents hw.serial r) ops
      (lynxSerialInit hw) :=
    CommandMachine.always_of_step (fun op _ ⟨_, h⟩ => ⟨_, (h.step hooks op).2⟩) ops
      ⟨_, Represents.init hw⟩
  exact represented.mono fun _ ⟨_, h⟩ => h.inBounds

end LynxRecomp
