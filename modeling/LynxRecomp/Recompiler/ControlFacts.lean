import LynxRecomp.Recompiler.Control
import LynxRecomp.Recompiler.Interp

/-!
# What the decoder announces about control flow

Discovery carves the image into functions by the class, the length and the target that the
decoder gives an instruction. Here the interpreter is held against them, on any bus.
-/

namespace LynxRecomp

open BusProgram

universe w

variable {σ : Type w}

/-- The word above stack slot `sp` -/
def stackWord (sp : Byte) : Code Addr := do
  let lo ← BusProgram.get (stackAddr (sp + 1))
  let hi ← BusProgram.get (stackAddr (sp + 1 + 1))
  pure (word16 lo hi)

/-- Where an indirect jump finds its target -/
def Insn.pointer (i : Insn) (c : InterpCpu) : Addr :=
  if i.mode = .iax then i.operand + c.x.setWidth 16 else i.operand

section Announced

variable (bus : Bus Addr Byte σ)

/-- The address that a `RTS` turns into `a` is pushed. -/
def PushesReturn (a : Addr) (c : InterpCpu) (s : σ) (c' : InterpCpu) (s' : σ) : Prop :=
  ∃ lo hi, word16 lo hi + 1 = a ∧ c'.s = c.s - 1 - 1 ∧
    s' = bus.write (stackAddr (c.s - 1)) lo (bus.write (stackAddr c.s) hi s)

/-- What the class of an instruction says about the PC after it: `c` and `s` are the CPU and the
bus before, `c'` and `s'` those after. -/
def Insn.Announces (i : Insn) (c : InterpCpu) (s : σ) (c' : InterpCpu) (s' : σ) : Prop :=
  match i.cflow with
  | .normal => c'.pc = i.next
  | .branch => c'.pc = i.next ∨ c'.pc = i.target
  | .jmp =>
    if i.mode = .rel ∨ i.mode = .abs then c'.pc = i.target
    else c'.pc = ((interpRd16 (i.pointer c)).run bus s).1
  | .call => c'.pc = i.target ∧ PushesReturn bus i.next c s c' s'
  | .ret =>
    -- RTI pulls the flags first, and does not step over the address.
    if i.mnemonic = .rti then
      c'.pc = ((stackWord (c.s + 1)).run bus (bus.read (stackAddr (c.s + 1)) s).2).1
    else c'.pc = ((stackWord c.s).run bus s).1 + 1
  | .brk => ∃ hi lo p, c'.pc = ((interpRd16 vecIrq).run bus
      (bus.write (stackAddr (c.s - 1 - 1)) p (bus.write (stackAddr (c.s - 1)) lo
        (bus.write (stackAddr c.s) hi s)))).1
  | .stop => c'.pc ≠ i.next

end Announced

section Next

variable (i : Insn) (c : InterpCpu)

/-- The instruction goes on with the next one, whatever it reads. -/
def GoesOn (p : Code InterpResult) : Prop := p.Always fun r => r.next = i.next

theorem goesOn_onValue (f : Byte → InterpCpu → InterpCpu) : GoesOn i (onValue i c f) :=
  (always_true (interpRdval i c)).bind fun _ _ => rfl

theorem goesOn_storeValue (v : Byte) : GoesOn i (storeValue i c v) :=
  (always_true (interpEa i c)).bind fun _ _ => rfl

theorem goesOn_onCell (f : Byte → InterpCpu → Byte × InterpCpu) : GoesOn i (onCell i c f) :=
  (always_true (interpEa i c)).bind fun _ _ _ => rfl

theorem goesOn_onAccOrCell (f : Byte → InterpCpu → Byte × InterpCpu) :
    GoesOn i (onAccOrCell i c f) := by
  unfold onAccOrCell
  split
  · exact rfl
  · exact goesOn_onCell i c f

theorem interpExec_normal (normal : i.mnemonic.cflow = .normal) : GoesOn i (interpExec i c) := by
  unfold interpExec
  cases mnemonic : i.mnemonic <;> rw [mnemonic] at normal <;>
    first
      | exact goesOn_onValue i c _
      | exact goesOn_storeValue i c _
      | exact goesOn_onCell i c _
      | exact goesOn_onAccOrCell i c _
      | exact rfl
      | exact fun _ => rfl
      | simp [Mnemonic.cflow] at normal

theorem interpExec_branch (branch : i.mnemonic.cflow = .branch) :
    (interpExec i c).Always fun r => r.next = i.next ∨ r.next = i.target := by
  have either (taken : Bool) :
      (branchIf i c taken).next = i.next ∨ (branchIf i c taken).next = i.target := by
    cases taken
    · exact .inl rfl
    · exact .inr rfl
  unfold interpExec
  cases mnemonic : i.mnemonic <;> rw [mnemonic] at branch <;>
    first
      | exact either _
      | exact fun _ => either _
      | simp [Mnemonic.cflow] at branch

end Next

section Step

variable (bus : Bus Addr Byte σ)

/-- An instruction, and then `PC = next` -/
def interpRun (i : Insn) (c : InterpCpu) (s : σ) : InterpCpu × σ :=
  let r := (interpExec i c).run bus s
  ({ r.1.cpu with pc := r.1.next }, r.2)

theorem interpStep_run (c : InterpCpu) (s : σ) :
    let f := (interpFetch c.pc).run bus s
    (((interpStep c).run bus s).1.1, ((interpStep c).run bus s).2) = interpRun bus f.1 c f.2 := by
  unfold interpStep
  simp only [run_bind]
  rfl

variable {bus} {i : Insn} {c : InterpCpu} {s : σ}

theorem announces_jmp (ok : i.Consistent) (jmp : i.cflow = .jmp) :
    let r := interpRun bus i c s
    i.Announces bus c s r.1 r.2 := by
  have mode := ok.mode
  have direct := fun abs => ok.direct abs (.inl jmp)
  simp only [Insn.Announces, jmp]
  rw [ok.cflow] at jmp
  unfold interpRun interpExec
  cases mnemonic : i.mnemonic <;> rw [mnemonic] at jmp mode <;>
    try (simp [Mnemonic.cflow] at jmp; done)
  case bra =>
    rw [if_pos (.inl (beq_iff_eq.mp mode))]
    rfl
  case jmp =>
    simp only [Mnemonic.ModeOk, Bool.or_eq_true, beq_iff_eq] at mode
    rcases mode with (abs | ind) | iax
    · simp only [abs, direct abs]
      rfl
    · simp only [ind, Insn.pointer]
      rfl
    · simp only [iax, Insn.pointer]
      rfl

theorem announces_call (ok : i.Consistent) (call : i.cflow = .call) (len : i.len = 3) :
    let r := interpRun bus i c s
    i.Announces bus c s r.1 r.2 := by
  have mode := ok.mode
  have direct := fun abs => ok.direct abs (.inr call)
  simp only [Insn.Announces, call]
  rw [ok.cflow] at call
  unfold interpRun interpExec
  cases mnemonic : i.mnemonic <;> rw [mnemonic] at call mode <;>
    try (simp [Mnemonic.cflow] at call; done)
  case jsr =>
    rw [direct (beq_iff_eq.mp mode)]
    refine ⟨rfl, (i.pc + 2).setWidth 8, ((i.pc + 2) >>> 8).setWidth 8, ?_, rfl, rfl⟩
    rw [word16_split, Insn.next, len, BitVec.add_assoc]
    rfl

theorem announces_ret (ok : i.Consistent) (ret : i.cflow = .ret) :
    let r := interpRun bus i c s
    i.Announces bus c s r.1 r.2 := by
  simp only [Insn.Announces, ret]
  rw [ok.cflow] at ret
  unfold interpRun interpExec
  cases mnemonic : i.mnemonic <;> rw [mnemonic] at ret <;>
    try (simp [Mnemonic.cflow] at ret; done)
  case rti => rfl
  case rts => rfl

theorem announces_brk (ok : i.Consistent) (brk : i.cflow = .brk) :
    let r := interpRun bus i c s
    i.Announces bus c s r.1 r.2 := by
  simp only [Insn.Announces, brk]
  rw [ok.cflow] at brk
  unfold interpRun interpExec
  cases mnemonic : i.mnemonic <;> rw [mnemonic] at brk <;>
    try (simp [Mnemonic.cflow] at brk; done)
  case brk => exact ⟨_, _, _, rfl⟩

theorem announces_stop (ok : i.Consistent) (stop : i.cflow = .stop) :
    let r := interpRun bus i c s
    ¬ i.Announces bus c s r.1 r.2 := by
  simp only [Insn.Announces, stop, not_not]
  rw [ok.cflow] at stop
  unfold interpRun interpExec
  cases mnemonic : i.mnemonic <;> rw [mnemonic] at stop <;>
    try (simp [Mnemonic.cflow] at stop; done)
  case wai => rfl
  case stp => rfl

theorem opInfo_stop : ∀ op : Byte, (opInfo op).cflow = .stop ↔ op = 0xCB ∨ op = 0xDB := by
  decide +kernel

theorem announces_iff (m0 m1 m2 : Byte) (pc : Addr) :
    let i := m65c02Decode m0 m1 m2 pc
    let r := interpRun bus i c s
    i.Announces bus c s r.1 r.2 ↔ m0 ≠ 0xCB ∧ m0 ≠ 0xDB := by
  intro i r
  have ok : i.Consistent := m65c02Decode_consistent m0 m1 m2 pc
  have opcode : i.cflow ≠ .stop ↔ m0 ≠ 0xCB ∧ m0 ≠ 0xDB :=
    (not_congr (opInfo_stop m0)).trans not_or
  rw [← opcode]
  cases flow : i.cflow with
  | normal =>
    have next : ((interpExec i c).run bus s).1.next = i.next :=
      (interpExec_normal i c (ok.cflow.symm.trans flow)).run s
    refine iff_of_true ?_ (by decide)
    simp only [Insn.Announces, flow]
    exact next
  | branch =>
    have next : ((interpExec i c).run bus s).1.next = i.next ∨
        ((interpExec i c).run bus s).1.next = i.target :=
      (interpExec_branch i c (ok.cflow.symm.trans flow)).run s
    refine iff_of_true ?_ (by decide)
    simp only [Insn.Announces, flow]
    exact next
  | jmp => exact iff_of_true (announces_jmp ok flow) (by decide)
  | call =>
    have abs : i.mode = .abs := by
      have mode := ok.mode
      have call : i.mnemonic.cflow = .call := ok.cflow.symm.trans flow
      cases mnemonic : i.mnemonic <;> rw [mnemonic] at call mode <;>
        try (simp [Mnemonic.cflow] at call; done)
      case jsr => exact beq_iff_eq.mp mode
    have len : i.len = 3 := congrArg m65c02ModeLen abs
    exact iff_of_true (announces_call ok flow len) (by decide)
  | ret => exact iff_of_true (announces_ret ok flow) (by decide)
  | brk => exact iff_of_true (announces_brk ok flow) (by decide)
  | stop => exact iff_of_false (announces_stop ok flow) fun other => other rfl

/-- The decoder's announcement holds for the interpreter's step, except where it is `WAI` or `STP`:
the step goes on past these. -/
theorem interpStep_announced (bus : Bus Addr Byte σ) (c : InterpCpu) (s : σ) :
    let f := (interpFetch c.pc).run bus s
    let r := (interpStep c).run bus s
    f.1.Announces bus c f.2 r.1.1 r.2 ↔ f.1.opcode ≠ 0xCB ∧ f.1.opcode ≠ 0xDB := by
  intro f r
  have step : (r.1.1, r.2) = interpRun bus f.1 c f.2 := interpStep_run bus c s
  have cpu : r.1.1 = (interpRun bus f.1 c f.2).1 := congrArg Prod.fst step
  have state : r.2 = (interpRun bus f.1 c f.2).2 := congrArg Prod.snd step
  rw [cpu, state]
  exact announces_iff _ _ _ _

end Step

/-- A CPU at the address `pc` -/
def interpCpuAt (pc : Addr) : InterpCpu :=
  { a := 0, x := 0, y := 0, s := 0xFF, pc := pc, n := 0, v := 0, d := 0, i := 0, z := 0, c := 0 }

/-- Memory with a `STP` at address 0 -/
def stopped : Addr → Byte := fun a => if a = 0 then 0xDB else 0

theorem stopped_runsOn :
    let f := (interpFetch 0).run memory stopped
    let r := (interpStep (interpCpuAt 0)).run memory stopped
    f.1.cflow = .stop ∧ r.1.1.pc = f.1.next ∧
      ¬ f.1.Announces memory (interpCpuAt 0) f.2 r.1.1 r.2 := by
  intro f r
  have stop : f.1.cflow = .stop := by decide
  have next : r.1.1.pc = f.1.next := by decide
  refine ⟨stop, next, ?_⟩
  simp only [Insn.Announces, stop, not_not]
  exact next

section Return

variable {c c' : InterpCpu} {m m' : Addr → Byte} {a : Addr}

/-- A `RTS` finds the pushed address, as long as it is still there. -/
theorem PushesReturn.resumes (pushes : PushesReturn memory a c m c' m') {ret : Insn}
    (rts : ret.mnemonic = .rts) : (interpRun memory ret c' m').1.pc = a := by
  rcases pushes with ⟨lo, hi, rfl, sp, rfl⟩
  have below : stackAddr (c'.s + 1) = stackAddr (c.s - 1) := by
    rw [sp]
    congr 1
    bv_omega
  have above : stackAddr (c'.s + 1 + 1) = stackAddr c.s := by
    rw [sp]
    congr 1
    bv_omega
  have apart : stackAddr c.s ≠ stackAddr (c.s - 1) := by
    rw [Ne, stackAddr_inj]
    bv_omega
  let m' := Function.update (Function.update m (stackAddr c.s) hi) (stackAddr (c.s - 1)) lo
  have pulled : (interpRun memory ret c' m').1.pc =
      word16 (m' (stackAddr (c'.s + 1))) (m' (stackAddr (c'.s + 1 + 1))) + 1 := by
    unfold interpRun interpExec
    rw [rts]
    rfl
  have low : m' (stackAddr (c'.s + 1)) = lo := by
    rw [below]
    exact Function.update_self ..
  have high : m' (stackAddr (c'.s + 1 + 1)) = hi := by
    rw [above]
    exact (Function.update_of_ne apart ..).trans (Function.update_self ..)
  rw [low, high] at pulled
  exact pulled

end Return

end LynxRecomp
