import LynxRecomp.Recompiler.Routine

/-!
# Where an emitted line hands control

As far as control goes, what `emit_insn` prints for an instruction depends on the class
of the instruction and on the choice made for its target.
-/

namespace LynxRecomp

/-- The class and the mode fit the mnemonic, as they do in the opcode table, and the operand
and target fit the mode. -/
structure Insn.Consistent (i : Insn) : Prop where
  cflow : i.cflow = i.mnemonic.cflow
  mode : i.mnemonic.ModeOk i.mode = true
  cell : i.mode = .zprel → (i.operand.setWidth 8).setWidth 16 = i.operand
  direct : i.mode = .abs → i.cflow = .jmp ∨ i.cflow = .call → i.target = i.operand

theorem m65c02Decode_consistent (m0 m1 m2 : Byte) (pc : Addr) :
    (m65c02Decode m0 m1 m2 pc).Consistent where
  cflow := (opInfo_consistent m0).1
  mode := (opInfo_consistent m0).2
  cell := by
    intro (mode : (opInfo m0).mode = .zprel)
    simp only [m65c02Decode, insnOperand, mode]
    exact congrArg (BitVec.setWidth 16) (BitVec.setWidth_setWidth_of_le m1 (by decide))
  direct := by
    intro (mode : (opInfo m0).mode = .abs)
      (direct : (opInfo m0).cflow = .jmp ∨ (opInfo m0).cflow = .call)
    simp only [m65c02Decode, insnOperand, insnTarget, mode, if_pos direct]

theorem Image.decode_consistent (img : Image) (a : Addr) : (img.decode a).Consistent :=
  m65c02Decode_consistent _ _ _ _

/-- A conditional branch, `BRA` or `JMP abs`. -/
def Insn.jumps (i : Insn) : Bool :=
  match i.cflow with
  | .branch => true
  | .jmp => i.mode != .ind && i.mode != .iax
  | _ => false

namespace CStmt

/-- After the statement, control goes on with the next line. -/
def straight : CStmt → Bool
  | nop | assign _ _ | reg _ | stack _ | value _ _ | store _ _ | accAlu _ | rmw _ _
  | bitOp _ _ _ => true
  | _ => false

/-- The transfer of a branch or jump. -/
def xfer : CStmt → Option Xfer
  | branch _ x | jump x => some x
  | _ => none

/-- The routine called directly by a `JSR`. -/
def callee : CStmt → Option Addr
  | call a => some a
  | _ => none

/-- The labels that a statement goes to. -/
def gotos (s : CStmt) : List Addr :=
  match s.xfer with
  | some (.goto _ a) => [a]
  | _ => []

/-- The functions that a statement calls by name. -/
def calls (s : CStmt) : List Addr :=
  match s.xfer with
  | some (.tail a) => [a]
  | _ => s.callee.toList

end CStmt

theorem emitRmw_straight (h : AluHelper) (i : Insn) : (emitRmw h i).straight = true := by
  unfold emitRmw
  split
  · cases h <;> rfl
  · rfl

section Classes

variable (inRange isFunc : Addr → Bool) {i : Insn} (ok : i.Consistent)

include ok

theorem emitInsn_normal (normal : i.cflow = .normal) :
    (emitInsn inRange isFunc i).straight = true := by
  rw [ok.cflow] at normal
  unfold emitInsn
  cases mnemonic : i.mnemonic <;> rw [mnemonic] at normal <;>
    first | (simp [Mnemonic.cflow] at normal; done) | rfl | exact emitRmw_straight _ i

theorem emitInsn_branch (branch : i.cflow = .branch) :
    ∃ c, emitInsn inRange isFunc i = .branch c (emitXfer inRange isFunc i) := by
  rw [ok.cflow] at branch
  unfold emitInsn
  cases mnemonic : i.mnemonic <;> rw [mnemonic] at branch <;>
    first | (simp [Mnemonic.cflow] at branch; done) | exact ⟨_, rfl⟩

theorem emitInsn_jmp (jmp : i.cflow = .jmp) :
    emitInsn inRange isFunc i =
      if i.mode = .ind then .jmpIndirect (.abs i.operand)
      else if i.mode = .iax then .jmpIndirect (.abx i.operand)
      else .jump (emitXfer inRange isFunc i) := by
  rw [ok.cflow] at jmp
  unfold emitInsn
  cases mnemonic : i.mnemonic <;> rw [mnemonic] at jmp <;>
    simp [Mnemonic.cflow] at jmp

theorem emitInsn_call (call : i.cflow = .call) :
    emitInsn inRange isFunc i =
      if isFunc i.target then .call i.target else .bootCall i.target := by
  rw [ok.cflow] at call
  unfold emitInsn
  cases mnemonic : i.mnemonic <;> rw [mnemonic] at call <;>
    simp [Mnemonic.cflow] at call

theorem emitInsn_leaves (leaves : i.cflow = .ret ∨ i.cflow = .brk ∨ i.cflow = .stop) :
    emitInsn inRange isFunc i ∈ [.ret, .rti, .brk, .stop] := by
  rw [ok.cflow] at leaves
  unfold emitInsn
  cases mnemonic : i.mnemonic <;> rw [mnemonic] at leaves <;>
    first | (simp [Mnemonic.cflow] at leaves; done) | simp

theorem emitInsn_xfer :
    (emitInsn inRange isFunc i).xfer =
      if i.jumps then some (emitXfer inRange isFunc i) else none := by
  unfold Insn.jumps
  cases class_ : i.cflow with
  | normal =>
    have straight := emitInsn_normal inRange isFunc ok class_
    revert straight
    cases emitInsn inRange isFunc i <;> simp [CStmt.straight, CStmt.xfer]
  | branch =>
    obtain ⟨c, emitted⟩ := emitInsn_branch inRange isFunc ok class_
    rw [emitted]
    rfl
  | jmp =>
    rw [emitInsn_jmp inRange isFunc ok class_]
    cases i.mode <;> rfl
  | call =>
    rw [emitInsn_call inRange isFunc ok class_]
    split <;> rfl
  | ret | brk | stop =>
    have leaves := emitInsn_leaves inRange isFunc ok (by simp [class_])
    revert leaves
    cases emitInsn inRange isFunc i <;> simp [CStmt.xfer]

theorem emitInsn_callee :
    (emitInsn inRange isFunc i).callee =
      if i.cflow = .call ∧ isFunc i.target = true then some i.target else none := by
  cases class_ : i.cflow with
  | normal =>
    have straight := emitInsn_normal inRange isFunc ok class_
    revert straight
    cases emitInsn inRange isFunc i <;> simp [CStmt.straight, CStmt.callee]
  | branch =>
    obtain ⟨c, emitted⟩ := emitInsn_branch inRange isFunc ok class_
    rw [emitted]
    rfl
  | jmp =>
    rw [emitInsn_jmp inRange isFunc ok class_]
    cases i.mode <;> rfl
  | call =>
    rw [emitInsn_call inRange isFunc ok class_]
    cases isFunc i.target <;> rfl
  | ret | brk | stop =>
    have leaves := emitInsn_leaves inRange isFunc ok (by simp [class_])
    revert leaves
    cases emitInsn inRange isFunc i <;> simp [CStmt.callee]

theorem emitInsn_gotos :
    (emitInsn inRange isFunc i).gotos =
      if i.jumps = true ∧ inRange i.target = true then [i.target] else [] := by
  rw [CStmt.gotos, emitInsn_xfer inRange isFunc ok]
  unfold emitXfer
  cases i.jumps <;> cases inRange i.target <;> cases isFunc i.target <;> rfl

theorem emitInsn_calls :
    (emitInsn inRange isFunc i).calls =
      if (i.jumps = true ∧ inRange i.target = false ∨ i.cflow = .call) ∧ isFunc i.target = true then
        [i.target] else [] := by
  have apart : i.cflow = .call → i.jumps = false := fun call => by simp [Insn.jumps, call]
  rw [CStmt.calls, emitInsn_xfer inRange isFunc ok, emitInsn_callee inRange isFunc ok]
  unfold emitXfer
  by_cases call : i.cflow = .call
  · rw [apart call]
    cases isFunc i.target <;> simp [call]
  · cases i.jumps <;> cases inRange i.target <;> cases isFunc i.target <;> simp [call]

theorem calls_of_emitInsn {a : Addr} (member : a ∈ (emitInsn inRange isFunc i).calls) :
    isFunc a = true := by
  rw [emitInsn_calls inRange isFunc ok] at member
  split at member
  · rename_i known
    exact List.mem_singleton.mp member ▸ known.2
  · exact absurd member List.not_mem_nil

end Classes

end LynxRecomp
