import LynxRecomp.Recompiler.Control
import LynxRecomp.Recompiler.Emitted
import LynxRecomp.Recompiler.Interp

/-!
# One instruction on both sides

What the interpreter does for an instruction and what the statement emitted for it does
are the same program over the bus, up to the stack and the transfer of control.
-/

namespace LynxRecomp

open BusProgram

/-- The registers and flags of `c` in an interpreter with its own stack pointer and PC. -/
def Cpu.interp (c : Cpu) (s : Byte) (pc : Addr) : InterpCpu where
  a := c.a
  x := c.x
  y := c.y
  s := s
  pc := pc
  n := c.n.setWidth 32
  v := c.v.setWidth 32
  d := c.d.setWidth 32
  i := c.i.setWidth 32
  z := c.z.setWidth 32
  c := c.c.setWidth 32

section Widths

@[simp] theorem truth_setWidth (b : Bool) : (truth b : Byte).setWidth 32 = (truth b : Word) := by
  cases b <;> rfl

@[simp] theorem bit_setWidth (w : Word) : ((w &&& 1).setWidth 8).setWidth 32 = w &&& 1 := by
  refine BitVec.eq_of_toNat_eq ?_
  have small : (w &&& 1).toNat ≤ 1 := by
    rw [BitVec.toNat_and]
    exact Nat.and_le_right
  rw [BitVec.toNat_setWidth, BitVec.toNat_setWidth]
  omega

theorem setWidth_eq_zero_iff (b : Byte) : b.setWidth 32 = (0 : Word) ↔ b = 0 := by bv_omega

theorem setWidth_setWidth_byte (b : Byte) : (b.setWidth 32 : Word).setWidth 8 = b :=
  BitVec.setWidth_setWidth_of_le b (by decide)

theorem shifted_setWidth (b : Byte) : ((b.setWidth 32 : Word) <<< 7).setWidth 8 = b <<< 7 := by
  revert b
  decide +kernel

theorem flag_of_le_one {b : Byte} (small : b ≤ 1) : ∃ set, b = truth set := by
  revert b
  decide +kernel

theorem packed_flags : ∀ n v d i z c : Bool,
    ((truth n : Byte).setWidth 32 <<< 7 ||| (truth v : Byte).setWidth 32 <<< 6 ||| 0x30 |||
        (truth d : Byte).setWidth 32 <<< 3 ||| (truth i : Byte).setWidth 32 <<< 2 |||
        (truth z : Byte).setWidth 32 <<< 1 ||| (truth c : Byte).setWidth 32 : Word).setWidth 8 |||
      0x10 =
    (if (truth n : Byte) ≠ 0 then 0x80 else 0) ||| (if (truth v : Byte) ≠ 0 then 0x40 else 0) |||
      0x20 ||| 0x10 ||| (if (truth d : Byte) ≠ 0 then 0x08 else 0) |||
      (if (truth i : Byte) ≠ 0 then 0x04 else 0) ||| (if (truth z : Byte) ≠ 0 then 0x02 else 0) |||
      (if (truth c : Byte) ≠ 0 then 0x01 else 0 : Byte) := by decide

theorem unpacked_flags : ∀ p : Byte,
    (p >>> 7) &&& 1 = truth (p &&& 0x80 != 0) ∧ (p >>> 6) &&& 1 = truth (p &&& 0x40 != 0) ∧
      (p >>> 3) &&& 1 = truth (p &&& 0x08 != 0) ∧ (p >>> 2) &&& 1 = truth (p &&& 0x04 != 0) ∧
      (p >>> 1) &&& 1 = truth (p &&& 0x02 != 0) ∧ p &&& 1 = truth (p &&& 0x01 != 0) := by
  decide +kernel

end Widths

section Operations

variable (v : Byte) (c : Cpu) (s : Byte) (pc : Addr)

theorem interpSetnz_interp : interpSetnz v (c.interp s pc) = (lynxSetNz v c).interp s pc := by
  simp only [interpSetnz, lynxSetNz, Cpu.interp, truth_setWidth]

theorem opAdc_interp : opAdc v (c.interp s pc) = (lynxAdc v c).interp s pc := by
  unfold opAdc lynxAdc
  simp only [Cpu.interp, setWidth_eq_zero_iff]
  split
  · simp only [interpSetnz, lynxSetNz, truth_setWidth, bit_setWidth]
    rfl
  · simp only [interpSetnz, lynxSetNz, truth_setWidth, bit_setWidth]
    rfl

theorem opSbc_interp : opSbc v (c.interp s pc) = (lynxSbc v c).interp s pc := by
  unfold opSbc lynxSbc
  simp only [Cpu.interp, setWidth_eq_zero_iff]
  split
  · simp only [interpSetnz, lynxSetNz, truth_setWidth, bit_setWidth]
    rfl
  · simp only [interpSetnz, lynxSetNz, truth_setWidth, bit_setWidth]
    rfl

theorem interpCmp_interp (r : Byte) :
    interpCmp v (c.interp s pc) r = (lynxCmpReg v c r).interp s pc := by
  simp only [interpCmp, lynxCmpReg, interpSetnz, lynxSetNz, Cpu.interp, truth_setWidth]

/-- The shifts and the increment and decrement of a cell. -/
theorem shift_interp :
    opAsl v (c.interp s pc) = ((lynxAluAsl v c).1, (lynxAluAsl v c).2.interp s pc) ∧
    opLsr v (c.interp s pc) = ((lynxAluLsr v c).1, (lynxAluLsr v c).2.interp s pc) ∧
    opRol v (c.interp s pc) = ((lynxAluRol v c).1, (lynxAluRol v c).2.interp s pc) ∧
    opRor v (c.interp s pc) = ((lynxAluRor v c).1, (lynxAluRor v c).2.interp s pc) := by
  refine ⟨?_, ?_, ?_, ?_⟩
  · simp only [opAsl, lynxAluAsl, interpSetnz, lynxSetNz, Cpu.interp, truth_setWidth]
  · simp only [opLsr, lynxAluLsr, interpSetnz, lynxSetNz, Cpu.interp, truth_setWidth]
  · simp only [opRol, lynxAluRol, interpSetnz, lynxSetNz, Cpu.interp, truth_setWidth,
      setWidth_setWidth_byte]
  · simp only [opRor, lynxAluRor, interpSetnz, lynxSetNz, Cpu.interp, truth_setWidth,
      shifted_setWidth]

variable {c} in
theorem packP_interp (ok : c.FlagsOk) : packP (c.interp s pc) ||| 0x10 = lynxPPack c := by
  obtain ⟨n, hn⟩ := flag_of_le_one ok.n
  obtain ⟨w, hv⟩ := flag_of_le_one ok.v
  obtain ⟨d, hd⟩ := flag_of_le_one ok.d
  obtain ⟨i, hi⟩ := flag_of_le_one ok.i
  obtain ⟨z, hz⟩ := flag_of_le_one ok.z
  obtain ⟨y, hc⟩ := flag_of_le_one ok.c
  unfold packP lynxPPack
  simp only [Cpu.interp, hn, hv, hd, hi, hz, hc]
  exact packed_flags n w d i z y

theorem unpackP_interp : unpackP (c.interp s pc) v = (lynxPUnpack v c).interp s pc := by
  obtain ⟨hn, hv, hd, hi, hz, hc⟩ := unpacked_flags v
  unfold unpackP lynxPUnpack Cpu.interp
  rw [hn, hv, hd, hi, hz]
  exact congrArg (InterpCpu.mk _ _ _ _ _ _ _ _ _ _) (congrArg (BitVec.setWidth 32) hc)

theorem interpEa_interp (i : Insn) : interpEa i (c.interp s pc) = (addrExpr i).code c := by
  unfold interpEa addrExpr
  cases i.mode <;> rfl

theorem interpRdval_interp (i : Insn) : interpRdval i (c.interp s pc) = (rdExpr i).code c := by
  unfold interpRdval rdExpr
  split
  · rfl
  · rw [interpEa_interp]
    rfl

end Operations

/-- The mnemonics that go on with the next instruction and leave S alone. -/
def Mnemonic.plain : Mnemonic → Bool
  | .pha | .phx | .phy | .php | .pla | .plx | .ply | .plp | .tsx | .txs => false
  | m => m.cflow == .normal

section Plain

variable (i : Insn) (c : Cpu) (s : Byte) (pc : Addr)

/-- The interpreter after an instruction that goes on, seen from the emitted code's CPU. -/
def goesOnWith (c : Cpu) : Code InterpResult := pure (goesOn i (c.interp s pc))

theorem onValue_interp {f : Byte → InterpCpu → InterpCpu} {h : ValueHelper}
    (same : ∀ v, f v (c.interp s pc) = (h.run v c).interp s pc) :
    onValue i (c.interp s pc) f = (CStmt.value h (rdExpr i)).code c >>= goesOnWith i s pc := by
  simp only [onValue, CStmt.code, interpRdval_interp, bind_assoc, same]
  rfl

theorem storeValue_interp {v : Byte} {w : StoreVal} (same : v = w.value c) :
    storeValue i (c.interp s pc) v = (CStmt.store (addrExpr i) w).code c >>= goesOnWith i s pc := by
  simp only [storeValue, CStmt.code, interpEa_interp, bind_assoc, same]
  rfl

theorem onCell_interp {f : Byte → InterpCpu → Byte × InterpCpu} {h : AluHelper}
    (same : ∀ v, f v (c.interp s pc) = ((h.run v c).1, (h.run v c).2.interp s pc)) :
    onCell i (c.interp s pc) f = (CStmt.rmw h (addrExpr i)).code c >>= goesOnWith i s pc := by
  simp only [onCell, CStmt.code, interpEa_interp, bind_assoc, same]
  rfl

theorem onAccOrCell_interp {f : Byte → InterpCpu → Byte × InterpCpu} {h : AluHelper}
    (same : ∀ v, f v (c.interp s pc) = ((h.run v c).1, (h.run v c).2.interp s pc)) :
    onAccOrCell i (c.interp s pc) f = (emitRmw h i).code c >>= goesOnWith i s pc := by
  unfold onAccOrCell emitRmw
  split
  · have acc := same c.a
    change f c.a (c.interp s pc) = _ at acc
    change pure (goesOn i { (f c.a (c.interp s pc)).2 with a := (f c.a (c.interp s pc)).1 }) = _
    rw [acc]
    cases h <;> rfl
  · exact onCell_interp i c s pc same

theorem onZp_interp {f : Byte → Byte} {n : Fin 8} {set : Bool}
    (same : ∀ v, f v = if set then v ||| bitMask n else v &&& ~~~bitMask n) :
    onZp i (c.interp s pc) f = (CStmt.bitOp i.operand n set).code c >>= goesOnWith i s pc := by
  simp only [onZp, CStmt.code, bind_assoc, same]
  rfl

theorem exec_plain (inRange isFunc : Addr → Bool) (ok : i.Consistent)
    (plain : i.mnemonic.plain = true) :
    interpExec i (c.interp s pc) = (emitInsn inRange isFunc i).code c >>= goesOnWith i s pc := by
  have setnz (v : Byte) (c : Cpu) := interpSetnz_interp v c s pc
  have value {f} (h : ValueHelper) := @onValue_interp i c s pc f h
  have shift {f} (h : AluHelper) := @onAccOrCell_interp i c s pc f h
  have cell {f} (h : AluHelper) := @onCell_interp i c s pc f h
  have memory (tests : i.mnemonic = .tsb ∨ i.mnemonic = .trb) (h : AluHelper) :
      emitRmw h i = .rmw h (addrExpr i) := by
    refine if_neg fun acc => ?_
    have mode := ok.mode
    obtain same | same := tests <;> rw [same, acc] at mode <;> exact absurd mode (by decide)
  unfold interpExec emitInsn
  cases mnemonic : i.mnemonic <;> rw [mnemonic] at plain <;>
    try (simp [Mnemonic.plain, Mnemonic.cflow] at plain; done)
  case lda => exact value .lda fun v => setnz v { c with a := v }
  case ldx => exact value .ldx fun v => setnz v { c with x := v }
  case ldy => exact value .ldy fun v => setnz v { c with y := v }
  case ora => exact value .ora fun v => setnz (c.a ||| v) { c with a := c.a ||| v }
  case and => exact value .and fun v => setnz (c.a &&& v) { c with a := c.a &&& v }
  case eor => exact value .eor fun v => setnz (c.a ^^^ v) { c with a := c.a ^^^ v }
  case adc => exact value .adc fun v => opAdc_interp v c s pc
  case sbc => exact value .sbc fun v => opSbc_interp v c s pc
  case cmp => exact value .cmp fun v => interpCmp_interp v c s pc c.a
  case cpx => exact value .cpx fun v => interpCmp_interp v c s pc c.x
  case cpy => exact value .cpy fun v => interpCmp_interp v c s pc c.y
  case bit =>
    by_cases imm : i.mode = .imm
    · simp only [imm, if_true]
      refine value .bitImm fun v => ?_
      simp only [ValueHelper.run, lynxBitImm, Cpu.interp, truth_setWidth]
    · simp only [imm, if_false]
      refine value .bit fun v => ?_
      simp only [ValueHelper.run, lynxBit, Cpu.interp, truth_setWidth]
  case sta | stx | sty | stz => exact storeValue_interp i c s pc rfl
  case inc => exact shift .inc fun v => congrArg (Prod.mk _) (setnz (v + 1) c)
  case dec => exact shift .dec fun v => congrArg (Prod.mk _) (setnz (v - 1) c)
  case asl => exact shift .asl fun v => (shift_interp v c s pc).1
  case lsr => exact shift .lsr fun v => (shift_interp v c s pc).2.1
  case rol => exact shift .rol fun v => (shift_interp v c s pc).2.2.1
  case ror => exact shift .ror fun v => (shift_interp v c s pc).2.2.2
  case tsb =>
    rw [memory (.inl mnemonic) .tsb]
    exact cell .tsb fun v => by simp only [AluHelper.run, lynxAluTsb, Cpu.interp, truth_setWidth]
  case trb =>
    rw [memory (.inr mnemonic) .trb]
    exact cell .trb fun v => by simp only [AluHelper.run, lynxAluTrb, Cpu.interp, truth_setWidth]
  case rmb | smb => exact onZp_interp i c s pc fun v => rfl
  case inx => exact congrArg (fun r => pure (goesOn i r)) (setnz (c.x + 1) { c with x := c.x + 1 })
  case iny => exact congrArg (fun r => pure (goesOn i r)) (setnz (c.y + 1) { c with y := c.y + 1 })
  case dex => exact congrArg (fun r => pure (goesOn i r)) (setnz (c.x - 1) { c with x := c.x - 1 })
  case dey => exact congrArg (fun r => pure (goesOn i r)) (setnz (c.y - 1) { c with y := c.y - 1 })
  case tax => exact congrArg (fun r => pure (goesOn i r)) (setnz c.a { c with x := c.a })
  case tay => exact congrArg (fun r => pure (goesOn i r)) (setnz c.a { c with y := c.a })
  case txa => exact congrArg (fun r => pure (goesOn i r)) (setnz c.x { c with a := c.x })
  case tya => exact congrArg (fun r => pure (goesOn i r)) (setnz c.y { c with a := c.y })
  case nop | clc | sec | cli | sei | cld | sed | clv => rfl

end Plain
section Keeps

variable (v : Byte) (c : Cpu)

theorem lynxAdc_s : (lynxAdc v c).s = c.s := by
  simp only [lynxAdc]
  split <;> rfl

theorem lynxSbc_s : (lynxSbc v c).s = c.s := by
  simp only [lynxSbc]
  split <;> rfl

theorem ValueHelper.run_s (h : ValueHelper) : (h.run v c).s = c.s := by
  cases h with
  | adc => exact lynxAdc_s v c
  | sbc => exact lynxSbc_s v c
  | _ => rfl

theorem AluHelper.run_s (h : AluHelper) : (h.run v c).2.s = c.s := by
  cases h <;> rfl

theorem RegHelper.run_s {h : RegHelper} (other : h ≠ .txs) : (h.run c).s = c.s := by
  cases h with
  | txs => exact absurd rfl other
  | _ => rfl

theorem Flag.assign_s (f : Flag) (b : Bool) : (f.assign b c).s = c.s := by
  cases f <;> rfl

/-- The statement leaves S alone. -/
def CStmt.keepsS : CStmt → Bool
  | stack _ | reg .txs => false
  | _ => true

variable {c} in
theorem CStmt.code_keeps {stmt : CStmt} (keeps : stmt.keepsS = true) (ok : c.FlagsOk) :
    (stmt.code c).Always fun c' => c'.s = c.s ∧ c'.FlagsOk := by
  cases stmt with
  | stack h => exact absurd keeps Bool.false_ne_true
  | reg h =>
    refine ⟨RegHelper.run_s c ?_, RegHelper.run_flagsOk ok h⟩
    rintro rfl
    exact absurd keeps Bool.false_ne_true
  | assign f b => exact ⟨Flag.assign_s c f b, Flag.assign_flagsOk ok f b⟩
  | value h w =>
    exact (always_true _).bind fun v _ => ⟨h.run_s v c, h.run_flagsOk ok v⟩
  | store a w => exact (always_true _).bind fun ea _ => ⟨rfl, ok⟩
  | accAlu h => exact ⟨h.run_s c.a c, { h.run_flagsOk ok c.a with }⟩
  | rmw h a => exact (always_true _).bind fun ea _ v => ⟨h.run_s v c, h.run_flagsOk ok v⟩
  | bitOp zp n set => exact fun v => ⟨rfl, ok⟩
  | _ => exact ⟨rfl, ok⟩

theorem emitRmw_keepsS (h : AluHelper) (i : Insn) : (emitRmw h i).keepsS = true := by
  unfold emitRmw
  split
  · cases h <;> rfl
  · rfl

theorem emitInsn_keepsS (inRange isFunc : Addr → Bool) {i : Insn}
    (plain : i.mnemonic.plain = true) : (emitInsn inRange isFunc i).keepsS = true := by
  unfold emitInsn
  cases mnemonic : i.mnemonic <;> rw [mnemonic] at plain <;>
    first | (simp [Mnemonic.plain, Mnemonic.cflow] at plain; done) | rfl | exact emitRmw_keepsS _ i

theorem plain_normal {i : Insn} (ok : i.Consistent) (plain : i.mnemonic.plain = true) :
    i.cflow = .normal := by
  rw [ok.cflow]
  cases mnemonic : i.mnemonic <;> rw [mnemonic] at plain <;>
    first | rfl | exact absurd plain Bool.false_ne_true

end Keeps

section Stack

def Mnemonic.pushes : Mnemonic → Bool
  | .pha | .phx | .phy | .php => true
  | _ => false

def Mnemonic.pulls : Mnemonic → Bool
  | .pla | .plx | .ply | .plp => true
  | _ => false

/-- The instruction accesses memory as the stack. -/
def Mnemonic.usesStack (m : Mnemonic) : Bool := m.pushes || m.pulls || m == .jsr || m == .rts

variable {i : Insn} {c : Cpu} (s : Byte) (pc : Addr) (inRange isFunc : Addr → Bool)

/-- Both sides push the same byte. -/
theorem exec_push (pushes : i.mnemonic.pushes = true) (ok : c.FlagsOk) : ∃ v h,
    interpExec i (c.interp s pc) = pushValue i (c.interp s pc) v ∧
      emitInsn inRange isFunc i = .stack h ∧ h.run c = lynxPush v c := by
  unfold interpExec emitInsn
  cases mnemonic : i.mnemonic <;> rw [mnemonic] at pushes <;>
    try exact absurd pushes Bool.false_ne_true
  case pha => exact ⟨c.a, .pha, rfl, rfl, rfl⟩
  case phx => exact ⟨c.x, .phx, rfl, rfl, rfl⟩
  case phy => exact ⟨c.y, .phy, rfl, rfl, rfl⟩
  case php => exact ⟨lynxPPack c, .php, congrArg (pushValue i _) (packP_interp s pc ok), rfl, rfl⟩

/-- Both sides do the same with the byte they pull. -/
theorem exec_pull (pulls : i.mnemonic.pulls = true) (ok : c.FlagsOk) :
    ∃ (g : Byte → Cpu → Cpu) (h : StackHelper),
      interpExec i (c.interp s pc) = (BusProgram.get (stackAddr (s + 1)) >>= fun v =>
        goesOnWith i (s + 1) pc (g v { c with s := c.s + 1 })) ∧
      emitInsn inRange isFunc i = .stack h ∧
      h.run c = (BusProgram.get (stackAddr (c.s + 1)) >>= fun v =>
        pure (g v { c with s := c.s + 1 })) ∧
      ∀ v, (g v { c with s := c.s + 1 }).s = c.s + 1 ∧ (g v { c with s := c.s + 1 }).FlagsOk := by
  have setnz (v : Byte) (c : Cpu) := interpSetnz_interp v c (s + 1) pc
  unfold interpExec emitInsn
  cases mnemonic : i.mnemonic <;> rw [mnemonic] at pulls <;>
    try exact absurd pulls Bool.false_ne_true
  case pla =>
    refine ⟨fun v c => lynxSetNz v { c with a := v }, .pla, ?_, rfl, rfl,
      fun v => ⟨rfl, @lynxSetNz_flagsOk { c with a := v, s := c.s + 1 } { ok with } v⟩⟩
    exact congrArg (BusProgram.read _) (funext fun v =>
      congrArg (fun r => pure (goesOn i r)) (setnz v { c with a := v }))
  case plx =>
    refine ⟨fun v c => lynxSetNz v { c with x := v }, .plx, ?_, rfl, rfl,
      fun v => ⟨rfl, @lynxSetNz_flagsOk { c with x := v, s := c.s + 1 } { ok with } v⟩⟩
    exact congrArg (BusProgram.read _) (funext fun v =>
      congrArg (fun r => pure (goesOn i r)) (setnz v { c with x := v }))
  case ply =>
    refine ⟨fun v c => lynxSetNz v { c with y := v }, .ply, ?_, rfl, rfl,
      fun v => ⟨rfl, @lynxSetNz_flagsOk { c with y := v, s := c.s + 1 } { ok with } v⟩⟩
    exact congrArg (BusProgram.read _) (funext fun v =>
      congrArg (fun r => pure (goesOn i r)) (setnz v { c with y := v }))
  case plp =>
    refine ⟨lynxPUnpack, .plp, ?_, rfl, rfl, fun v => ⟨rfl, lynxPUnpack_flagsOk v _⟩⟩
    exact congrArg (BusProgram.read _) (funext fun v =>
      congrArg (fun r => pure (goesOn i r)) (unpackP_interp v c (s + 1) pc))

end Stack

section Control

variable {i : Insn} (c : Cpu) (s : Byte) (pc : Addr) (inRange isFunc : Addr → Bool)

theorem flag_set (b : Byte) : ((b.setWidth 32 : Word) != 0) = ((b != 0) == true) := by
  revert b
  decide +kernel

theorem flag_clear (b : Byte) : ((b.setWidth 32 : Word) == 0) = ((b != 0) == false) := by
  revert b
  decide +kernel

theorem exec_branch (ok : i.Consistent) (branch : i.cflow = .branch) : ∃ cond,
    emitInsn inRange isFunc i = .branch cond (emitXfer inRange isFunc i) ∧
      interpExec i (c.interp s pc) =
        cond.code c >>= fun taken => pure (branchIf i (c.interp s pc) taken) := by
  have cell : i.mode = .zprel → (i.operand.setWidth 8).setWidth 16 = i.operand := ok.cell
  have mode := ok.mode
  let jump (taken : Bool) : Code InterpResult := pure (branchIf i (c.interp s pc) taken)
  rw [ok.cflow] at branch
  unfold interpExec emitInsn
  cases mnemonic : i.mnemonic <;> rw [mnemonic] at branch mode <;>
    try (simp [Mnemonic.cflow] at branch; done)
  case bpl => exact ⟨.flag .n false, rfl, congrArg jump (flag_clear c.n)⟩
  case bmi => exact ⟨.flag .n true, rfl, congrArg jump (flag_set c.n)⟩
  case bvc => exact ⟨.flag .v false, rfl, congrArg jump (flag_clear c.v)⟩
  case bvs => exact ⟨.flag .v true, rfl, congrArg jump (flag_set c.v)⟩
  case bcc => exact ⟨.flag .c false, rfl, congrArg jump (flag_clear c.c)⟩
  case bcs => exact ⟨.flag .c true, rfl, congrArg jump (flag_set c.c)⟩
  case bne => exact ⟨.flag .z false, rfl, congrArg jump (flag_clear c.z)⟩
  case beq => exact ⟨.flag .z true, rfl, congrArg jump (flag_set c.z)⟩
  case bbr n =>
    refine ⟨.bit i.operand n false, rfl, ?_⟩
    simp only [branchOnBit, Cond.code, cell (beq_iff_eq.mp mode), bind_assoc]
    rfl
  case bbs n =>
    refine ⟨.bit i.operand n true, rfl, ?_⟩
    simp only [branchOnBit, Cond.code, cell (beq_iff_eq.mp mode), bind_assoc]
    rfl

theorem exec_jump (ok : i.Consistent) (jmp : i.cflow = .jmp) (jumps : i.jumps = true) :
    emitInsn inRange isFunc i = .jump (emitXfer inRange isFunc i) ∧
      interpExec i (c.interp s pc) =
        pure { cpu := c.interp s pc, next := i.target, event := .none } := by
  have direct : i.mode ≠ .ind ∧ i.mode ≠ .iax := by
    simpa [Insn.jumps, jmp] using jumps
  have emitted := emitInsn_jmp inRange isFunc ok jmp
  rw [if_neg direct.1, if_neg direct.2] at emitted
  refine ⟨emitted, ?_⟩
  have mode := ok.mode
  have target := ok.direct
  rw [ok.cflow] at jmp
  unfold interpExec
  cases mnemonic : i.mnemonic <;> rw [mnemonic] at jmp mode <;>
    try (simp [Mnemonic.cflow] at jmp; done)
  case jmp =>
    have abs : i.mode = .abs := by
      simpa [Mnemonic.ModeOk, direct] using mode
    rw [target abs (.inl (by rw [ok.cflow, mnemonic]; rfl))]
    simp only [abs]
    rfl

theorem exec_jsr (ok : i.Consistent) (jsr : i.mnemonic = .jsr) :
    interpExec i (c.interp s pc) =
      .write (stackAddr s) (((i.pc + 2) >>> 8).setWidth 8)
        (.write (stackAddr (s - 1)) ((i.pc + 2).setWidth 8)
          (pure { cpu := c.interp (s - 1 - 1) pc, next := i.target, event := .none })) := by
  have abs : i.mode = .abs := by simpa [jsr, Mnemonic.ModeOk] using ok.mode
  rw [ok.direct abs (.inr (by rw [ok.cflow, jsr]; rfl)), interpExec, jsr]
  rfl

theorem exec_rts (rts : i.mnemonic = .rts) :
    interpExec i (c.interp s pc) =
      .read (stackAddr (s + 1)) fun lo => .read (stackAddr (s + 1 + 1)) fun hi =>
        pure { cpu := c.interp (s + 1 + 1) pc, next := word16 lo hi + 1, event := .none } := by
  rw [interpExec, rts]
  rfl

end Control

end LynxRecomp
