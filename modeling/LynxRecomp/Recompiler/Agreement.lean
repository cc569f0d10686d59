import LynxRecomp.Recompiler.Lockstep

/-!
# Emitted statements and interpreted instructions

Apart from the fetch, an instruction that goes on with the next one is the same program
over the bus on both sides. So are its accesses and its results over any bus.
-/

namespace LynxRecomp

open BusProgram

variable {η : Type}

/-- The kinds of instructions that go on with the next one. -/
theorem Mnemonic.normal_kind {m : Mnemonic} (normal : m.cflow = .normal) :
    m.plain = true ∨ m.pushes = true ∨ m.pulls = true ∨ m = .tsx ∨ m = .txs := by
  cases m <;> first | (simp [cflow] at normal; done) | simp [plain, cflow, pushes, pulls]

section Programs

variable {i : Insn} {c : Cpu} (pc : Addr) (inRange isFunc : Addr → Bool)

/-- The interpreter after the statement, with S as the statement left it. -/
def goesOnAlike (i : Insn) (pc : Addr) (c : Cpu) : Code InterpResult := goesOnWith i c.s pc c

theorem exec_plain_alike (ok : i.Consistent) (flags : c.FlagsOk)
    (plain : i.mnemonic.plain = true) :
    interpExec i (c.interp c.s pc) =
      (emitInsn inRange isFunc i).code c >>= goesOnAlike i pc := by
  rw [exec_plain i c c.s pc inRange isFunc ok plain]
  apply (CStmt.code_keeps (emitInsn_keepsS inRange isFunc plain) flags).bind_congr
  rintro c' ⟨s, _⟩
  rw [goesOnAlike, s]

theorem exec_push_alike (pushes : i.mnemonic.pushes = true) (flags : c.FlagsOk) :
    interpExec i (c.interp c.s pc) =
      (emitInsn inRange isFunc i).code c >>= goesOnAlike i pc := by
  rcases exec_push c.s pc inRange isFunc pushes flags with ⟨v, h, interp, emitted, run⟩
  rw [interp, emitted, CStmt.code, run]
  rfl

theorem exec_pull_alike (pulls : i.mnemonic.pulls = true) (flags : c.FlagsOk) :
    interpExec i (c.interp c.s pc) =
      (emitInsn inRange isFunc i).code c >>= goesOnAlike i pc := by
  rcases exec_pull c.s pc inRange isFunc pulls flags with ⟨g, h, interp, emitted, run, kept⟩
  rw [interp, emitted, CStmt.code, run]
  refine congrArg (BusProgram.read _) (funext fun v => ?_)
  change goesOnWith i (c.s + 1) pc _ = goesOnWith i _ pc _
  rw [(kept v).1]

/-- Whatever the instruction does besides going on with the next one, the statement does. -/
theorem exec_normal (ok : i.Consistent) (normal : i.cflow = .normal) (flags : c.FlagsOk) :
    interpExec i (c.interp c.s pc) =
      (emitInsn inRange isFunc i).code c >>= goesOnAlike i pc := by
  rw [ok.cflow] at normal
  rcases Mnemonic.normal_kind normal with plain | pushes | pulls | tsx | txs
  · exact exec_plain_alike pc inRange isFunc ok flags plain
  · exact exec_push_alike pc inRange isFunc pushes flags
  · exact exec_pull_alike pc inRange isFunc pulls flags
  · rw [interpExec, emitInsn, tsx]
    exact congrArg (fun r => pure (goesOn i r)) (interpSetnz_interp c.s { c with x := c.s } c.s pc)
  · rw [interpExec, emitInsn, txs]
    rfl

theorem emitInsn_flagsOk (ok : i.Consistent) (normal : i.cflow = .normal) (flags : c.FlagsOk) :
    ((emitInsn inRange isFunc i).code c).Always Cpu.FlagsOk := by
  rw [ok.cflow] at normal
  rcases Mnemonic.normal_kind normal with plain | pushes | pulls | tsx | txs
  · exact (CStmt.code_keeps (emitInsn_keepsS inRange isFunc plain) flags).mono fun _ kept => kept.2
  · rcases exec_push c.s 0 inRange isFunc pushes flags with ⟨v, h, _, emitted, run⟩
    rw [emitted, CStmt.code, run]
    exact { flags with }
  · rcases exec_pull c.s 0 inRange isFunc pulls flags with ⟨g, h, _, emitted, run, kept⟩
    rw [emitted, CStmt.code, run]
    exact fun v => (kept v).2
  · rw [emitInsn, tsx]
    exact RegHelper.run_flagsOk flags .tsx
  · rw [emitInsn, txs]
    exact RegHelper.run_flagsOk flags .txs

end Programs

section Fetch

/-- The address is one of RAM alone, outside the register pages. -/
def PlainRam (a : Addr) : Prop := a < suzyBase ∨ bootromBase ≤ a

instance (a : Addr) : Decidable (PlainRam a) := inferInstanceAs (Decidable (_ ∨ _))

/-- Plain RAM holds the bytes of the instruction `i`, decoded from `m0`, `m1` and `m2`. -/
structure CodeInRam (hw : Hw η) (i : Insn) (m0 m1 m2 : Byte) : Prop where
  first : PlainRam i.pc ∧ hw.ram i.pc = m0
  second : 2 ≤ i.len → PlainRam (i.pc + 1) ∧ hw.ram (i.pc + 1) = m1
  third : 3 ≤ i.len → PlainRam (i.pc + 2) ∧ hw.ram (i.pc + 2) = m2

theorem lynxMemRead_plain {a : Addr} (plain : PlainRam a) (hw : Hw η) :
    lynxMemRead a hw = (hw.ram a, hw) := by
  unfold lynxMemRead
  unfold PlainRam suzyBase bootromBase at plain
  unfold suzyBase mikeyBase bootromBase
  rw [if_neg (by bv_omega), if_neg (by bv_omega)]

/-- The bytes behind an instruction in plain RAM are read without effect, too, since Suzy's
registers come first. -/
theorem lynxMemRead_behind {a : Addr} (plain : PlainRam a) {k : Nat} (near : k ≤ 2) (hw : Hw η) :
    (lynxMemRead (a + BitVec.ofNat 16 k) hw).2 = hw := by
  by_cases other : PlainRam (a + BitVec.ofNat 16 k)
  · rw [lynxMemRead_plain other]
  · apply lynxMemRead_below_mikey
    unfold PlainRam suzyBase bootromBase at plain other
    unfold mikeyBase
    bv_omega

/-- The interpreter fetches the instruction and leaves the machine as it is. -/
theorem interpFetch_run (hooks : Hooks η) {hw : Hw η} {m0 m1 m2 : Byte} {pc : Addr}
    (code : CodeInRam hw (m65c02Decode m0 m1 m2 pc) m0 m1 m2) :
    (interpFetch pc).run (memBus hooks) hw = (m65c02Decode m0 m1 m2 pc, hw) := by
  rcases code with ⟨⟨plain, first⟩, second, third⟩
  rw [m65c02Decode_pc] at plain first second third
  have one : (lynxMemRead (pc + 1) hw).2 = hw := lynxMemRead_behind plain (k := 1) (by decide) hw
  have two : (lynxMemRead (pc + 2) hw).2 = hw := lynxMemRead_behind plain (k := 2) (by decide) hw
  have run : (interpFetch pc).run (memBus hooks) hw =
      (m65c02Decode m0 (lynxMemRead (pc + 1) hw).1 (lynxMemRead (pc + 2) hw).1 pc, hw) := by
    simp only [interpFetch, get_bind, run_read, memBus_read, lynxMemRead_plain plain, first, one,
      two, pure_eq, run_ret]
  rw [run]
  refine congrArg (·, hw) (m65c02Decode_congr m0 m1 m2 pc ?_ ?_)
  · intro long
    rcases second long with ⟨plain', byte⟩
    rw [lynxMemRead_plain plain', byte]
  · intro long
    rcases third long with ⟨plain', byte⟩
    rw [lynxMemRead_plain plain', byte]

end Fetch

/-- For every instruction that goes on with the next one, the emitted statement and a step of the
interpreter show the same data accesses on the bus, end with equal registers, flags and machine,
and the flags are 0 or 1 again; the PC of the interpreter advances by the decoded length. -/
theorem emitInsn_agrees (hooks : Hooks η) (inRange isFunc : Addr → Bool) (m0 m1 m2 : Byte)
    (pc : Addr) (c : Cpu) (hw : Hw η) (normal : (m65c02Decode m0 m1 m2 pc).cflow = .normal)
    (code : CodeInRam hw (m65c02Decode m0 m1 m2 pc) m0 m1 m2) (flags : c.FlagsOk) :
    let bus := memBus hooks
    let i := m65c02Decode m0 m1 m2 pc
    let stmt := (emitInsn inRange isFunc i).code c
    let c' := (stmt.run bus hw).1
    (interpStep (c.interp c.s pc)).trace bus hw =
        (interpFetch pc).trace bus hw ++ stmt.trace bus hw ∧
      (interpStep (c.interp c.s pc)).run bus hw =
        ((c'.interp c'.s (pc + BitVec.ofNat 16 i.len), .none), (stmt.run bus hw).2) ∧
      c'.FlagsOk := by
  intro bus i stmt c'
  have ok : i.Consistent := m65c02Decode_consistent m0 m1 m2 pc
  have exec : interpExec i (c.interp c.s pc) = stmt >>= goesOnAlike i pc :=
    exec_normal pc inRange isFunc ok normal flags
  have fetched : (interpFetch pc).run bus hw = (i, hw) := interpFetch_run hooks code
  have step : interpStep (c.interp c.s pc) =
      interpFetch pc >>= fun i => interpExec i (c.interp c.s pc) >>= fun r =>
        pure ({ r.cpu with pc := r.next }, r.event) := rfl
  refine ⟨?_, ?_, (emitInsn_flagsOk inRange isFunc ok normal flags).run hw⟩
  · rw [step, trace_bind, fetched, exec, trace_bind, trace_bind]
    change _ ++ ((stmt.trace bus hw ++ []) ++ []) = _
    rw [List.append_nil, List.append_nil]
  · rw [step, run_bind, fetched, exec, run_bind, run_bind]
    rfl

/-- `ADC ($FE,X)` in decimal mode, with a pointer that wraps within the zero page. -/
def pointerHw : Hw Unit :=
  { Hw.zeroed () with
    ram := fun a => if a = 0x0200 then 0x61 else if a = 0x0201 then 0xFE else 0x15 }

def pointerCpu : Cpu := { (Machine.zeroed ()).cpu with a := 0x27, x := 1, d := 1 }

theorem wrappedPointer_agrees :
    (interpStep (pointerCpu.interp 0 0x0200)).trace (memBus Hooks.none) pointerHw =
      (interpFetch 0x0200).trace (memBus Hooks.none) pointerHw ++
        [.read 0x00FF 0x15, .read 0x0000 0x15, .read 0x1515 0x15] :=
  (emitInsn_agrees Hooks.none (fun _ => false) (fun _ => false) 0x61 0xFE 0x15 0x0200 pointerCpu
    pointerHw (by decide +kernel) ⟨by decide +kernel, by decide +kernel, by decide +kernel⟩
    (by constructor <;> decide)).1.trans (by decide +kernel)

end LynxRecomp
