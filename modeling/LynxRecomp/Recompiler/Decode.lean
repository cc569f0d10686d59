import LynxRecomp.Runtime.Hardware

/-!
# The 65SC02 decoder

`decode.c`: the opcode table and the decoding of one instruction.
-/

namespace LynxRecomp

inductive AddrMode where
  | imp | acc | imm | zp | zpx | zpy | izx | izy | izp | rel | abs | abx | aby | ind | iax | zprel
  deriving DecidableEq, Repr

/-- Control-flow class; it drives function discovery. -/
inductive CFlow where
  | normal | branch | jmp | call | ret | brk | stop
  deriving DecidableEq, Repr

/-- The mnemonics; the Rockwell bit operations carry the bit in their last character. -/
inductive Mnemonic where
  | adc | and | asl | bbr (n : Fin 8) | bbs (n : Fin 8) | bcc | bcs | beq | bit | bmi | bne | bpl
  | bra | brk | bvc | bvs | clc | cld | cli | clv | cmp | cpx | cpy | dec | dex | dey | eor | inc
  | inx | iny | jmp | jsr | lda | ldx | ldy | lsr | nop | ora | pha | php | phx | phy | pla | plp
  | plx | ply | rmb (n : Fin 8) | rol | ror | rti | rts | sbc | sec | sed | sei | smb (n : Fin 8)
  | sta | stp | stx | sty | stz | tax | tay | trb | tsb | tsx | txa | txs | tya | wai
  deriving DecidableEq, Repr

structure OpInfo where
  mnemonic : Mnemonic
  mode : AddrMode
  cflow : CFlow
  deriving DecidableEq, Repr

/-- `m65c02_optab` -/
def m65c02Optab : List OpInfo := [
  -- 0x
  ⟨.brk, .imp, .brk⟩, ⟨.ora, .izx, .normal⟩, ⟨.nop, .imm, .normal⟩, ⟨.nop, .imp, .normal⟩,
  ⟨.tsb, .zp, .normal⟩, ⟨.ora, .zp, .normal⟩, ⟨.asl, .zp, .normal⟩, ⟨.rmb 0, .zp, .normal⟩,
  ⟨.php, .imp, .normal⟩, ⟨.ora, .imm, .normal⟩, ⟨.asl, .acc, .normal⟩, ⟨.nop, .imp, .normal⟩,
  ⟨.tsb, .abs, .normal⟩, ⟨.ora, .abs, .normal⟩, ⟨.asl, .abs, .normal⟩, ⟨.bbr 0, .zprel, .branch⟩,
  -- 1x
  ⟨.bpl, .rel, .branch⟩, ⟨.ora, .izy, .normal⟩, ⟨.ora, .izp, .normal⟩, ⟨.nop, .imp, .normal⟩,
  ⟨.trb, .zp, .normal⟩, ⟨.ora, .zpx, .normal⟩, ⟨.asl, .zpx, .normal⟩, ⟨.rmb 1, .zp, .normal⟩,
  ⟨.clc, .imp, .normal⟩, ⟨.ora, .aby, .normal⟩, ⟨.inc, .acc, .normal⟩, ⟨.nop, .imp, .normal⟩,
  ⟨.trb, .abs, .normal⟩, ⟨.ora, .abx, .normal⟩, ⟨.asl, .abx, .normal⟩, ⟨.bbr 1, .zprel, .branch⟩,
  -- 2x
  ⟨.jsr, .abs, .call⟩, ⟨.and, .izx, .normal⟩, ⟨.nop, .imm, .normal⟩, ⟨.nop, .imp, .normal⟩,
  ⟨.bit, .zp, .normal⟩, ⟨.and, .zp, .normal⟩, ⟨.rol, .zp, .normal⟩, ⟨.rmb 2, .zp, .normal⟩,
  ⟨.plp, .imp, .normal⟩, ⟨.and, .imm, .normal⟩, ⟨.rol, .acc, .normal⟩, ⟨.nop, .imp, .normal⟩,
  ⟨.bit, .abs, .normal⟩, ⟨.and, .abs, .normal⟩, ⟨.rol, .abs, .normal⟩, ⟨.bbr 2, .zprel, .branch⟩,
  -- 3x
  ⟨.bmi, .rel, .branch⟩, ⟨.and, .izy, .normal⟩, ⟨.and, .izp, .normal⟩, ⟨.nop, .imp, .normal⟩,
  ⟨.bit, .zpx, .normal⟩, ⟨.and, .zpx, .normal⟩, ⟨.rol, .zpx, .normal⟩, ⟨.rmb 3, .zp, .normal⟩,
  ⟨.sec, .imp, .normal⟩, ⟨.and, .aby, .normal⟩, ⟨.dec, .acc, .normal⟩, ⟨.nop, .imp, .normal⟩,
  ⟨.bit, .abx, .normal⟩, ⟨.and, .abx, .normal⟩, ⟨.rol, .abx, .normal⟩, ⟨.bbr 3, .zprel, .branch⟩,
  -- 4x
  ⟨.rti, .imp, .ret⟩, ⟨.eor, .izx, .normal⟩, ⟨.nop, .imm, .normal⟩, ⟨.nop, .imp, .normal⟩,
  ⟨.nop, .zp, .normal⟩, ⟨.eor, .zp, .normal⟩, ⟨.lsr, .zp, .normal⟩, ⟨.rmb 4, .zp, .normal⟩,
  ⟨.pha, .imp, .normal⟩, ⟨.eor, .imm, .normal⟩, ⟨.lsr, .acc, .normal⟩, ⟨.nop, .imp, .normal⟩,
  ⟨.jmp, .abs, .jmp⟩, ⟨.eor, .abs, .normal⟩, ⟨.lsr, .abs, .normal⟩, ⟨.bbr 4, .zprel, .branch⟩,
  -- 5x
  ⟨.bvc, .rel, .branch⟩, ⟨.eor, .izy, .normal⟩, ⟨.eor, .izp, .normal⟩, ⟨.nop, .imp, .normal⟩,
  ⟨.nop, .zpx, .normal⟩, ⟨.eor, .zpx, .normal⟩, ⟨.lsr, .zpx, .normal⟩, ⟨.rmb 5, .zp, .normal⟩,
  ⟨.cli, .imp, .normal⟩, ⟨.eor, .aby, .normal⟩, ⟨.phy, .imp, .normal⟩, ⟨.nop, .imp, .normal⟩,
  ⟨.nop, .abs, .normal⟩, ⟨.eor, .abx, .normal⟩, ⟨.lsr, .abx, .normal⟩, ⟨.bbr 5, .zprel, .branch⟩,
  -- 6x
  ⟨.rts, .imp, .ret⟩, ⟨.adc, .izx, .normal⟩, ⟨.nop, .imm, .normal⟩, ⟨.nop, .imp, .normal⟩,
  ⟨.stz, .zp, .normal⟩, ⟨.adc, .zp, .normal⟩, ⟨.ror, .zp, .normal⟩, ⟨.rmb 6, .zp, .normal⟩,
  ⟨.pla, .imp, .normal⟩, ⟨.adc, .imm, .normal⟩, ⟨.ror, .acc, .normal⟩, ⟨.nop, .imp, .normal⟩,
  ⟨.jmp, .ind, .jmp⟩, ⟨.adc, .abs, .normal⟩, ⟨.ror, .abs, .normal⟩, ⟨.bbr 6, .zprel, .branch⟩,
  -- 7x
  ⟨.bvs, .rel, .branch⟩, ⟨.adc, .izy, .normal⟩, ⟨.adc, .izp, .normal⟩, ⟨.nop, .imp, .normal⟩,
  ⟨.stz, .zpx, .normal⟩, ⟨.adc, .zpx, .normal⟩, ⟨.ror, .zpx, .normal⟩, ⟨.rmb 7, .zp, .normal⟩,
  ⟨.sei, .imp, .normal⟩, ⟨.adc, .aby, .normal⟩, ⟨.ply, .imp, .normal⟩, ⟨.nop, .imp, .normal⟩,
  ⟨.jmp, .iax, .jmp⟩, ⟨.adc, .abx, .normal⟩, ⟨.ror, .abx, .normal⟩, ⟨.bbr 7, .zprel, .branch⟩,
  -- 8x
  ⟨.bra, .rel, .jmp⟩, ⟨.sta, .izx, .normal⟩, ⟨.nop, .imm, .normal⟩, ⟨.nop, .imp, .normal⟩,
  ⟨.sty, .zp, .normal⟩, ⟨.sta, .zp, .normal⟩, ⟨.stx, .zp, .normal⟩, ⟨.smb 0, .zp, .normal⟩,
  ⟨.dey, .imp, .normal⟩, ⟨.bit, .imm, .normal⟩, ⟨.txa, .imp, .normal⟩, ⟨.nop, .imp, .normal⟩,
  ⟨.sty, .abs, .normal⟩, ⟨.sta, .abs, .normal⟩, ⟨.stx, .abs, .normal⟩, ⟨.bbs 0, .zprel, .branch⟩,
  -- 9x
  ⟨.bcc, .rel, .branch⟩, ⟨.sta, .izy, .normal⟩, ⟨.sta, .izp, .normal⟩, ⟨.nop, .imp, .normal⟩,
  ⟨.sty, .zpx, .normal⟩, ⟨.sta, .zpx, .normal⟩, ⟨.stx, .zpy, .normal⟩, ⟨.smb 1, .zp, .normal⟩,
  ⟨.tya, .imp, .normal⟩, ⟨.sta, .aby, .normal⟩, ⟨.txs, .imp, .normal⟩, ⟨.nop, .imp, .normal⟩,
  ⟨.stz, .abs, .normal⟩, ⟨.sta, .abx, .normal⟩, ⟨.stz, .abx, .normal⟩, ⟨.bbs 1, .zprel, .branch⟩,
  -- Ax
  ⟨.ldy, .imm, .normal⟩, ⟨.lda, .izx, .normal⟩, ⟨.ldx, .imm, .normal⟩, ⟨.nop, .imp, .normal⟩,
  ⟨.ldy, .zp, .normal⟩, ⟨.lda, .zp, .normal⟩, ⟨.ldx, .zp, .normal⟩, ⟨.smb 2, .zp, .normal⟩,
  ⟨.tay, .imp, .normal⟩, ⟨.lda, .imm, .normal⟩, ⟨.tax, .imp, .normal⟩, ⟨.nop, .imp, .normal⟩,
  ⟨.ldy, .abs, .normal⟩, ⟨.lda, .abs, .normal⟩, ⟨.ldx, .abs, .normal⟩, ⟨.bbs 2, .zprel, .branch⟩,
  -- Bx
  ⟨.bcs, .rel, .branch⟩, ⟨.lda, .izy, .normal⟩, ⟨.lda, .izp, .normal⟩, ⟨.nop, .imp, .normal⟩,
  ⟨.ldy, .zpx, .normal⟩, ⟨.lda, .zpx, .normal⟩, ⟨.ldx, .zpy, .normal⟩, ⟨.smb 3, .zp, .normal⟩,
  ⟨.clv, .imp, .normal⟩, ⟨.lda, .aby, .normal⟩, ⟨.tsx, .imp, .normal⟩, ⟨.nop, .imp, .normal⟩,
  ⟨.ldy, .abx, .normal⟩, ⟨.lda, .abx, .normal⟩, ⟨.ldx, .aby, .normal⟩, ⟨.bbs 3, .zprel, .branch⟩,
  -- Cx
  ⟨.cpy, .imm, .normal⟩, ⟨.cmp, .izx, .normal⟩, ⟨.nop, .imm, .normal⟩, ⟨.nop, .imp, .normal⟩,
  ⟨.cpy, .zp, .normal⟩, ⟨.cmp, .zp, .normal⟩, ⟨.dec, .zp, .normal⟩, ⟨.smb 4, .zp, .normal⟩,
  ⟨.iny, .imp, .normal⟩, ⟨.cmp, .imm, .normal⟩, ⟨.dex, .imp, .normal⟩, ⟨.wai, .imp, .stop⟩,
  ⟨.cpy, .abs, .normal⟩, ⟨.cmp, .abs, .normal⟩, ⟨.dec, .abs, .normal⟩, ⟨.bbs 4, .zprel, .branch⟩,
  -- Dx
  ⟨.bne, .rel, .branch⟩, ⟨.cmp, .izy, .normal⟩, ⟨.cmp, .izp, .normal⟩, ⟨.nop, .imp, .normal⟩,
  ⟨.nop, .zpx, .normal⟩, ⟨.cmp, .zpx, .normal⟩, ⟨.dec, .zpx, .normal⟩, ⟨.smb 5, .zp, .normal⟩,
  ⟨.cld, .imp, .normal⟩, ⟨.cmp, .aby, .normal⟩, ⟨.phx, .imp, .normal⟩, ⟨.stp, .imp, .stop⟩,
  ⟨.nop, .abs, .normal⟩, ⟨.cmp, .abx, .normal⟩, ⟨.dec, .abx, .normal⟩, ⟨.bbs 5, .zprel, .branch⟩,
  -- Ex
  ⟨.cpx, .imm, .normal⟩, ⟨.sbc, .izx, .normal⟩, ⟨.nop, .imm, .normal⟩, ⟨.nop, .imp, .normal⟩,
  ⟨.cpx, .zp, .normal⟩, ⟨.sbc, .zp, .normal⟩, ⟨.inc, .zp, .normal⟩, ⟨.smb 6, .zp, .normal⟩,
  ⟨.inx, .imp, .normal⟩, ⟨.sbc, .imm, .normal⟩, ⟨.nop, .imp, .normal⟩, ⟨.nop, .imp, .normal⟩,
  ⟨.cpx, .abs, .normal⟩, ⟨.sbc, .abs, .normal⟩, ⟨.inc, .abs, .normal⟩, ⟨.bbs 6, .zprel, .branch⟩,
  -- Fx
  ⟨.beq, .rel, .branch⟩, ⟨.sbc, .izy, .normal⟩, ⟨.sbc, .izp, .normal⟩, ⟨.nop, .imp, .normal⟩,
  ⟨.nop, .zpx, .normal⟩, ⟨.sbc, .zpx, .normal⟩, ⟨.inc, .zpx, .normal⟩, ⟨.smb 7, .zp, .normal⟩,
  ⟨.sed, .imp, .normal⟩, ⟨.sbc, .aby, .normal⟩, ⟨.plx, .imp, .normal⟩, ⟨.nop, .imp, .normal⟩,
  ⟨.nop, .abs, .normal⟩, ⟨.sbc, .abx, .normal⟩, ⟨.inc, .abx, .normal⟩, ⟨.bbs 7, .zprel, .branch⟩]

def opInfo (op : Byte) : OpInfo := m65c02Optab.getD op.toNat ⟨.nop, .imp, .normal⟩

def m65c02ModeLen : AddrMode → Nat
  | .imp | .acc => 1
  | .imm | .zp | .zpx | .zpy | .izx | .izy | .izp | .rel => 2
  | .abs | .abx | .aby | .ind | .iax | .zprel => 3

/-- `insn_t`; `bit` is read off the mnemonic. -/
structure Insn where
  pc : Addr
  opcode : Byte
  len : Nat
  mode : AddrMode
  cflow : CFlow
  mnemonic : Mnemonic
  operand : Addr
  target : Addr
  deriving DecidableEq, Repr

/-- `next` -/
def Insn.next (i : Insn) : Addr := i.pc + BitVec.ofNat 16 i.len

def insnOperand (mode : AddrMode) (m1 m2 : Byte) : Addr :=
  match mode with
  | .imm | .zp | .zpx | .zpy | .izx | .izy | .izp | .rel | .zprel => m1.setWidth 16
  | .abs | .abx | .aby | .ind | .iax => word16 m1 m2
  | .imp | .acc => 0

def insnTarget (o : OpInfo) (pc : Addr) (m1 m2 : Byte) : Addr :=
  match o.mode with
  | .rel => pc + 2 + m1.signExtend 16
  | .zprel => pc + 3 + m2.signExtend 16
  | .abs => if o.cflow = .jmp ∨ o.cflow = .call then word16 m1 m2 else 0
  | _ => 0

def m65c02Decode (m0 m1 m2 : Byte) (pc : Addr) : Insn where
  pc := pc
  opcode := m0
  len := m65c02ModeLen (opInfo m0).mode
  mode := (opInfo m0).mode
  cflow := (opInfo m0).cflow
  mnemonic := (opInfo m0).mnemonic
  operand := insnOperand (opInfo m0).mode m1 m2
  target := insnTarget (opInfo m0) pc m1 m2

section Table

/-- The class a mnemonic belongs to. -/
def Mnemonic.cflow : Mnemonic → CFlow
  | bbr _ | bbs _ | bcc | bcs | beq | bmi | bne | bpl | bvc | bvs => .branch
  | bra | jmp => .jmp
  | jsr => .call
  | rts | rti => .ret
  | brk => .brk
  | wai | stp => .stop
  | _ => .normal

/-- The modes a mnemonic occurs with, as far as the translation depends on it. -/
def Mnemonic.ModeOk : Mnemonic → AddrMode → Bool
  | bbr _, m | bbs _, m => m == .zprel
  | bcc, m | bcs, m | beq, m | bmi, m | bne, m | bpl, m | bvc, m | bvs, m | bra, m => m == .rel
  | jmp, m => m == .abs || m == .ind || m == .iax
  | jsr, m => m == .abs
  | tsb, m | trb, m => m != .acc
  | rts, m | rti, m => m == .imp
  | _, _ => true

theorem optab_consistent : m65c02Optab.all fun o =>
    o.cflow == o.mnemonic.cflow && o.mnemonic.ModeOk o.mode := by decide +kernel

theorem optab_length : m65c02Optab.length = 256 := by decide +kernel

theorem opInfo_mem (op : Byte) : opInfo op ∈ m65c02Optab := by
  have inside : op.toNat < m65c02Optab.length := optab_length ▸ op.isLt
  rw [opInfo, List.getD, List.getElem?_eq_getElem inside]
  exact List.getElem_mem inside

theorem opInfo_consistent (op : Byte) :
    (opInfo op).cflow = (opInfo op).mnemonic.cflow ∧
      (opInfo op).mnemonic.ModeOk (opInfo op).mode = true := by
  have entry := List.all_eq_true.mp optab_consistent _ (opInfo_mem op)
  simpa using entry

variable (m0 m1 m2 : Byte) (pc : Addr)

@[simp] theorem m65c02Decode_pc : (m65c02Decode m0 m1 m2 pc).pc = pc := rfl

theorem m65c02Decode_len :
    1 ≤ (m65c02Decode m0 m1 m2 pc).len ∧ (m65c02Decode m0 m1 m2 pc).len ≤ 3 := by
  change 1 ≤ m65c02ModeLen (opInfo m0).mode ∧ m65c02ModeLen (opInfo m0).mode ≤ 3
  cases (opInfo m0).mode <;> decide

/-- Decoding looks at the bytes of the instruction and at no others. -/
theorem m65c02Decode_congr {n1 n2 : Byte}
    (second : 2 ≤ (m65c02Decode m0 m1 m2 pc).len → m1 = n1)
    (third : 3 ≤ (m65c02Decode m0 m1 m2 pc).len → m2 = n2) :
    m65c02Decode m0 n1 n2 pc = m65c02Decode m0 m1 m2 pc := by
  change 2 ≤ m65c02ModeLen (opInfo m0).mode → _ at second
  change 3 ≤ m65c02ModeLen (opInfo m0).mode → _ at third
  unfold m65c02Decode insnTarget
  cases mode : (opInfo m0).mode <;> simp only [mode, m65c02ModeLen, insnOperand] at second third ⊢
  case imm | zp | zpx | zpy | izx | izy | izp | rel => rw [second (by decide)]
  case abs | abx | aby | ind | iax | zprel => rw [second (by decide), third (by decide)]

end Table

end LynxRecomp
