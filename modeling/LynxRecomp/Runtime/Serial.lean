import LynxRecomp.Runtime.Timer

/-!
# Mikey UART

`serial.c`. A byte written to SERDAT goes straight to the link hook; bytes from
the link wait in a circular FIFO whose two indices leave one slot unused. An
index outside the array would be undefined behaviour in C; reading such a slot
gives 0 here and writing one has no effect, and no result below depends on it.
-/

namespace LynxRecomp

variable {η : Type}

def serctlTxinten : Byte := 0x80
def serctlRxinten : Byte := 0x40
def serctlReseterr : Byte := 0x08

def serctlTxrdy : Byte := 0x80
def serctlRxrdy : Byte := 0x40
def serctlTxempty : Byte := 0x20
def serctlParerr : Byte := 0x10
def serctlOverrun : Byte := 0x08
def serctlFramerr : Byte := 0x04
def serctlRxbrk : Byte := 0x02

def mikeySerctl : Byte := 0x8C
def mikeySerdat : Byte := 0x8D

/-- The UART shares Timer 4's latch bit. -/
def serialIrqBit : Byte := 1 <<< 4

/-- `(i + 1) & (RXFIFO_SIZE - 1)` -/
def rxNext (i : BitVec 16) : BitVec 16 := (i + 1) &&& BitVec.ofNat 16 (rxFifoSize - 1)

namespace Serial

def fifoGet (s : Serial) (i : BitVec 16) : Byte :=
  if h : i.toNat < rxFifoSize then s.rxFifo ⟨i.toNat, h⟩ else 0

def fifoSet (s : Serial) (i : BitVec 16) (b : Byte) : Serial :=
  if h : i.toNat < rxFifoSize then
    { s with rxFifo := Function.update s.rxFifo ⟨i.toNat, h⟩ b } else s

end Serial

def rxEmpty (s : Serial) : Bool := s.rxHead == s.rxTail

def lynxSerialInit (hw : Hw η) : Hw η :=
  { hw with
    serial := { ctrl := 0, statusErr := 0, rxFifo := fun _ => 0, rxHead := 0, rxTail := 0 }
    host := { hw.host with txHook := false } }

/-- Raise the shared latch bit if a byte is waiting and receive interrupts are armed. -/
def rxService (hw : Hw η) : Hw η :=
  if !rxEmpty hw.serial && hw.serial.ctrl &&& serctlRxinten != 0 then
    lynxIrqRaise serialIrqBit hw
  else hw

def lynxSerialRxPush (byte : Byte) (hw : Hw η) : Hw η :=
  let next := rxNext hw.serial.rxTail
  if next = hw.serial.rxHead then
    { hw with serial := { hw.serial with statusErr := hw.serial.statusErr ||| serctlOverrun } }
  else
    rxService { hw with serial :=
      { hw.serial.fifoSet hw.serial.rxTail byte with rxTail := next } }

def lynxSerialRead (off : Byte) (hw : Hw η) : Byte × Hw η :=
  if off = 0x8D then
    if rxEmpty hw.serial then (0, hw)
    else
      let b := hw.serial.fifoGet hw.serial.rxHead
      (b, rxService { hw with serial := { hw.serial with rxHead := rxNext hw.serial.rxHead } })
  else
    let st := serctlTxrdy ||| serctlTxempty
    let st := if !rxEmpty hw.serial then st ||| serctlRxrdy else st
    (st ||| hw.serial.statusErr &&&
      (serctlOverrun ||| serctlParerr ||| serctlFramerr ||| serctlRxbrk), hw)

def lynxSerialWrite (hooks : Hooks η) (off val : Byte) (hw : Hw η) : Hw η :=
  if off = 0x8D then
    let hw := if hw.host.txHook then hooks.tx val hw else hw
    if hw.serial.ctrl &&& serctlTxinten ≠ 0 then lynxIrqRaise serialIrqBit hw else hw
  else
    let s := { hw.serial with ctrl := val }
    let s := if val &&& serctlReseterr ≠ 0 then { s with statusErr := 0 } else s
    rxService { hw with serial := s }

section Service

@[simp] theorem rxService_serial (hw : Hw η) : (rxService hw).serial = hw.serial := by
  unfold rxService; split <;> rfl

@[simp] theorem rxService_host (hw : Hw η) : (rxService hw).host = hw.host := by
  unfold rxService; split <;> rfl

end Service

end LynxRecomp
