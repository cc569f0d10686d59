import LynxRecomp.Recompiler.Stacks

/-!
# The emitted code simulates the interpreter

One instruction of the interpreter is a few steps of the emitted code: one line, and at a
return the empty rests of the functions that tail-called. What holds in between relates
the routines that are executing to the frames and to the two stacks.
-/

namespace LynxRecomp

open BusProgram Relation

variable {η : Type} {img : Image} {seeds : List Addr} {f : Addr} {hooks : Hooks η}
  {calls : Transfers η} {top : Byte} {ret : Addr}

/-- The interpreter stands at `s` and the emitted code at `cs`, both in the routine `act`
with the routines `acts` under it. -/
structure Sim (img : Image) (seeds : List Addr) (f : Addr) (top : Byte) (ret : Addr)
    (act : Activation) (acts : List Activation) (s : InterpState η) (cs : CState η) : Prop where
  cpu : s.cpu = cs.m.cpu.interp s.cpu.s act.pc
  flags : cs.m.cpu.FlagsOk
  entries : s.entries = entriesFrom s.cpu.s act.own acts
  frames : cs.frames = act.frames img seeds ++
    acts.flatMap (Activation.frames img seeds)
  placed : act.Placed img f
  waiting : ∀ a ∈ acts, a.Placed img f
  stacked : Stacked top ret act.own acts s.hw.ram cs.m.hw.ram s.cpu.s cs.m.cpu.s
  alike : Alike cs.m.hw s.hw
  code : ∀ a, CodeCell img f a → s.hw.ram a = img.byte (img.off a)

section Fetch

theorem body_whole {fs : Addr} {i : Insn} (member : i ∈ body img fs) :
    i.len ≤ img.avail i.pc := by
  obtain ⟨v, visited, rfl⟩ := List.mem_map.mp member
  exact ((bodyVisits_chain img fs).visit v visited).2.2.1

/-- The bytes of an instruction lie in the image, one after the other. -/
theorem body_byte (inRam : img.InRam) {fs a : Addr} (inside : a ∈ boundaries img fs) {k : Nat}
    (within : k < (img.decode a).len) :
    a + BitVec.ofNat 16 k < (img.decode a).next ∧ a ≤ a + BitVec.ofNat 16 k ∧
      (a + BitVec.ofNat 16 k).toNat < 0xFC00 ∧
      img.off (a + BitVec.ofNat 16 k) = img.off a + k := by
  obtain ⟨_, inImg, ascends, _⟩ := body_decoded (mem_boundaries_iff.mp inside)
  have whole := body_whole (mem_boundaries_iff.mp inside)
  obtain ⟨low, high⟩ := inRam
  obtain ⟨from_, _⟩ := inImage_iff.mp inImg
  have len := img.decode_len a
  have next := img.decode_next a
  simp only [Image.decode_pc, Image.avail, Image.off] at *
  refine ⟨?_, ?_, ?_, ?_⟩ <;> bv_omega

theorem codeCell_off_stack (translated : Translated img seeds f) {a : Addr}
    (cell : CodeCell img f a) : ¬ stackPage a := by
  obtain ⟨gs, _, i, member, from_, _⟩ := cell
  have low := (translated.inRam.bounds (body_decoded member).2.1).1
  unfold stackPage
  bv_omega

/-- The interpreter fetches the instruction that was decoded at translation. -/
theorem fetch_eq (translated : Translated img seeds f) {act : Activation}
    (placed : act.Placed img f) {hw : Hw η}
    (code : ∀ a, CodeCell img f a → hw.ram a = img.byte (img.off a)) :
    (interpFetch act.pc).run (memBus hooks) hw = (img.decode act.pc, hw) := by
  have inside := placed.2
  have byte (k : Nat) (within : k < (img.decode act.pc).len) :
      (lynxMemRead (act.pc + BitVec.ofNat 16 k) hw).1 = img.byte (img.off act.pc + k) := by
    obtain ⟨below, from_, low, off⟩ := body_byte translated.inRam inside within
    have ram : act.pc + BitVec.ofNat 16 k < suzyBase := by
      unfold suzyBase
      bv_omega
    rw [lynxMemRead_ram ram, ← off]
    exact code _ ⟨act.fn, placed.1, _, placed_mem placed, from_, below⟩
  have quiet (k : Nat) (small : k ≤ 2) :
      (lynxMemRead (act.pc + BitVec.ofNat 16 k) hw).2 = hw := by
    have bounds := translated.inRam.bounds (boundary_inImage inside)
    refine lynxMemRead_below_mikey ?_ hw
    unfold mikeyBase
    bv_omega
  have len := img.decode_len act.pc
  have zero : act.pc + BitVec.ofNat 16 0 = act.pc := BitVec.add_zero _
  have byte0 := byte 0 (by omega)
  have quiet0 := quiet 0 (by omega)
  rw [zero] at byte0 quiet0
  simp only [interpFetch, get_bind, run_read, memBus_read, quiet0]
  have quiet1 : (lynxMemRead (act.pc + 1) hw).2 = hw := quiet 1 (by omega)
  have quiet2 : (lynxMemRead (act.pc + 2) hw).2 = hw := quiet 2 (by omega)
  simp only [quiet1, quiet2, pure_eq, run_ret, byte0]
  refine congrArg (·, hw) ?_
  exact m65c02Decode_congr _ _ _ _ (fun two => (byte 1 two).symm)
    fun three => (byte 2 three).symm

end Fetch

section Moves

variable {act : Activation} {acts : List Activation} {s : InterpState η} {cs : CState η}

theorem Sim.fetched (translated : Translated img seeds f)
    (sim : Sim img seeds f top ret act acts s cs) :
    s.fetched hooks = (img.decode act.pc, s.hw) := by
  have pc : s.cpu.pc = act.pc := congrArg InterpCpu.pc sim.cpu
  rw [InterpState.fetched, pc]
  exact fetch_eq translated sim.placed sim.code

theorem Sim.insn (translated : Translated img seeds f)
    (sim : Sim img seeds f top ret act acts s cs) : s.insn hooks = img.decode act.pc :=
  congrArg Prod.fst (sim.fetched translated)

/-- What one step does, once the instruction is known. -/
theorem Sim.next_eq (translated : Translated img seeds f)
    (sim : Sim img seeds f top ret act acts s cs) {r : InterpResult} {hw : Hw η}
    (run : (interpExec (img.decode act.pc) (cs.m.cpu.interp s.cpu.s act.pc)).run (memBus hooks) s.hw
      = (r, hw)) :
    s.next hooks =
      { cpu := { r.cpu with pc := r.next }
        hw := hw
        entries := entriesAfter (img.decode act.pc).mnemonic s.cpu.s r.cpu.s s.entries } := by
  have fetched : s.fetched hooks = _ := sim.fetched translated
  rw [InterpState.fetched] at fetched
  rw [← sim.cpu] at run
  unfold InterpState.next interpStep
  rw [sim.insn translated]
  simp only [run_bind, fetched, run, pure_eq, run_ret]

/-- An instruction that leaves the stack alone keeps the two sides together. -/
theorem Sim.move (sim : Sim img seeds f top ret act acts s cs) (act' : Activation) {c : Cpu}
    {hwi hwc : Hw η} (sp : c.s = cs.m.cpu.s) (flags : c.FlagsOk) (alike : Alike hwc hwi)
    (kept : Untouched (CodeCell img f) s.hw.ram hwi.ram)
    (kept' : Untouched (CodeCell img f) cs.m.hw.ram hwc.ram) (own : act'.own = act.own)
    (placed : act'.Placed img f) :
    Sim img seeds f top ret act' acts ⟨c.interp s.cpu.s act'.pc, hwi, s.entries⟩
      ⟨⟨c, hwc⟩, act'.frames img seeds ++
        acts.flatMap (Activation.frames img seeds)⟩ where
  cpu := rfl
  flags := flags
  entries := by rw [own]; exact sim.entries
  frames := rfl
  placed := placed
  waiting := sim.waiting
  stacked := by
    rw [own, sp]
    exact sim.stacked.congr (fun a page => kept a (.inl page)) fun a page => kept' a (.inl page)
  alike := alike
  code a cell := by rw [kept a (.inr cell)]; exact sim.code a cell

/-- An instruction that changes nothing but the CPU and the stack. -/
theorem Sim.restack (translated : Translated img seeds f)
    (sim : Sim img seeds f top ret act acts s cs) (act' : Activation) (acts' : List Activation)
    {c : Cpu} {ri rc : Addr → Byte} {s' : Byte} (flags : c.FlagsOk) (placed : act'.Placed img f)
    (waiting : ∀ a ∈ acts', a.Placed img f)
    (stacked : Stacked top ret act'.own acts' ri rc s' c.s) (off : AgreeOffStack ri s.hw.ram)
    (off' : AgreeOffStack rc cs.m.hw.ram) :
    Sim img seeds f top ret act' acts'
      ⟨c.interp s' act'.pc, s.hw.withRam ri, entriesFrom s' act'.own acts'⟩
      ⟨⟨c, cs.m.hw.withRam rc⟩, act'.frames img seeds ++
        acts'.flatMap (Activation.frames img seeds)⟩ where
  cpu := rfl
  flags := flags
  entries := rfl
  frames := rfl
  placed := placed
  waiting := waiting
  stacked := stacked
  alike := by
    have rest : cs.m.hw.withRam rc = s.hw.withRam rc := by
      rw [sim.alike.rest]
      rfl
    refine ⟨rest, fun a outside => ?_⟩
    exact (off' a outside).trans ((sim.alike.ram a outside).trans (off a outside).symm)
  code a cell := (off a (codeCell_off_stack translated cell)).trans (sim.code a cell)

theorem Sim.state_eq (sim : Sim img seeds f top ret act acts s cs) :
    cs = ⟨cs.m, act.frames img seeds ++
      acts.flatMap (Activation.frames img seeds)⟩ := by
  rw [← sim.frames]

/-- The emitted code keeps up with one step of the interpreter. -/
def KeepsUp (hooks : Hooks η) (calls : Transfers η) (img : Image) (seeds : List Addr) (f : Addr)
    (top : Byte) (ret : Addr) (s : InterpState η) (cs : CState η) : Prop :=
  ∃ n act acts cs',
    CState.steps hooks { calls with tick := id } (emittedFile img seeds) n cs = some cs' ∧
      Sim img seeds f top ret act acts (s.next hooks) cs'

theorem Sim.keepsUp (sim : Sim img seeds f top ret act acts s cs) {act' : Activation}
    {acts' : List Activation} {s' : InterpState η} {cs' : CState η} {n : Nat}
    (next : s.next hooks = s')
    (steps : CState.steps hooks { calls with tick := id } (emittedFile img seeds) n
      ⟨cs.m, act.frames img seeds ++ acts.flatMap (Activation.frames img seeds)⟩ = some cs')
    (moved : Sim img seeds f top ret act' acts' s' cs') :
    KeepsUp hooks calls img seeds f top ret s cs := by
  refine ⟨n, act', acts', cs', ?_, next ▸ moved⟩
  rw [sim.state_eq]
  exact steps

theorem entriesAfter_other {m : Mnemonic} (call : m ≠ .jsr) (ret : m ≠ .rts) (s s' : Byte)
    (entries : List Byte) : entriesAfter m s s' entries = entries := by
  unfold entriesAfter
  cases m <;> first | rfl | exact absurd rfl call | exact absurd rfl ret

theorem Sim.access (translated : Translated img seeds f)
    (sim : Sim img seeds f top ret act acts s cs) (proper : s.Proper hooks (CodeCell img f))
    (other : (img.decode act.pc).mnemonic.usesStack = false) :
    (interpExec (img.decode act.pc) (cs.m.cpu.interp s.cpu.s act.pc)).Accesses (memBus hooks)
      (Clean (CodeCell img f)) s.hw := by
  have access := proper.access
  rw [sim.insn translated, sim.fetched translated, sim.cpu] at access
  exact access other

/-- An instruction that accesses memory cleanly by address reads the same on both sides. -/
theorem Sim.run_access (translated : Translated img seeds f) (off_stack : hooks.OffStack)
    (sim : Sim img seeds f top ret act acts s cs) (proper : s.Proper hooks (CodeCell img f))
    (other : (img.decode act.pc).mnemonic.usesStack = false) {α : Type} {p : Code α}
    {k : α → InterpResult}
    (exec : interpExec (img.decode act.pc) (cs.m.cpu.interp s.cpu.s act.pc) =
      p >>= fun r => pure (k r)) :
    (interpExec (img.decode act.pc) (cs.m.cpu.interp s.cpu.s act.pc)).run (memBus hooks) s.hw =
        (k (p.run (memBus hooks) cs.m.hw).1, (p.run (memBus hooks) s.hw).2) ∧
      Alike (p.run (memBus hooks) cs.m.hw).2 (p.run (memBus hooks) s.hw).2 ∧
      Untouched (CodeCell img f) s.hw.ram (p.run (memBus hooks) s.hw).2.ram ∧
      Untouched (CodeCell img f) cs.m.hw.ram (p.run (memBus hooks) cs.m.hw).2.ram := by
  have clean := sim.access translated proper other
  rw [exec, accesses_bind] at clean
  rcases run_clean off_stack sim.alike clean.1 with ⟨same, alike, kept', kept⟩
  refine ⟨?_, alike, kept, kept'⟩
  rw [exec, run_bind, same]
  rfl

theorem plain_other {m : Mnemonic} (plain : m.plain = true) :
    m.usesStack = false ∧ m ≠ .jsr ∧ m ≠ .rts := by
  cases m <;> first
    | exact absurd plain Bool.false_ne_true
    | simp [Mnemonic.usesStack, Mnemonic.pushes, Mnemonic.pulls]

theorem jumps_other {m : Mnemonic} (jumps : m.cflow = .branch ∨ m.cflow = .jmp) :
    m.usesStack = false ∧ m ≠ .jsr ∧ m ≠ .rts := by
  cases m <;> first
    | (simp [Mnemonic.cflow] at jumps; done)
    | simp [Mnemonic.usesStack, Mnemonic.pushes, Mnemonic.pulls]

theorem Sim.plain (translated : Translated img seeds f) (off_stack : hooks.OffStack)
    (sim : Sim img seeds f top ret act acts s cs) (proper : s.Proper hooks (CodeCell img f))
    (plain : (img.decode act.pc).mnemonic.plain = true) :
    KeepsUp hooks calls img seeds f top ret s cs := by
  have ok := img.decode_consistent act.pc
  have normal := plain_normal ok plain
  rcases plain_other plain with ⟨other, call, rts⟩
  let stmt := emittedStmt img seeds act.fn (img.decode act.pc)
  have exec : interpExec (img.decode act.pc) (cs.m.cpu.interp s.cpu.s act.pc) =
      stmt.code cs.m.cpu >>= goesOnWith (img.decode act.pc) s.cpu.s act.pc :=
    exec_plain _ _ _ _ _ _ ok plain
  rcases sim.run_access translated off_stack proper other exec with ⟨run, alike, kept, kept'⟩
  have keeps := CStmt.code_keeps (emitInsn_keepsS _ _ plain : stmt.keepsS = true) sim.flags
  have ends : ((stmt.code cs.m.cpu).run (memBus hooks) cs.m.hw).1.s = cs.m.cpu.s ∧
      ((stmt.code cs.m.cpu).run (memBus hooks) cs.m.hw).1.FlagsOk := keeps.run cs.m.hw
  have next := sim.next_eq translated run
  rw [entriesAfter_other call rts] at next
  have goes := placed_next translated sim.placed (by rw [Insn.continues, normal])
  apply sim.keepsUp next (steps_of_step (step_normal translated sim.placed cs.m _ normal))
  exact sim.move { act with pc := (img.decode act.pc).next } ends.1 ends.2 alike kept kept' rfl
    ⟨sim.placed.1, goes⟩

theorem Sim.branch (translated : Translated img seeds f) (off_stack : hooks.OffStack)
    (sim : Sim img seeds f top ret act acts s cs) (proper : s.Proper hooks (CodeCell img f))
    (branch : (img.decode act.pc).cflow = .branch) :
    KeepsUp hooks calls img seeds f top ret s cs := by
  have ok := img.decode_consistent act.pc
  rcases jumps_other (.inl (ok.cflow ▸ branch)) with ⟨other, call, rts⟩
  rcases exec_branch cs.m.cpu s.cpu.s act.pc (fun a => decide (a ∈ boundaries img act.fn))
    (isFunc (analyzeDiscover img seeds)) ok branch with ⟨cond, emitted, exec⟩
  rcases sim.run_access translated off_stack proper other exec with ⟨run, alike, kept, kept'⟩
  have next := sim.next_eq translated run
  rw [entriesAfter_other call rts] at next
  have moved := sim.move (act.branch img seeds (img.decode act.pc)
      ((cond.code cs.m.cpu).run (memBus hooks) cs.m.hw).1) rfl sim.flags alike kept kept'
    (act.branch_own _ _) (placed_branch translated sim.placed branch _)
  rw [act.branch_pc] at moved
  exact sim.keepsUp next
    (steps_of_step (step_branch translated sim.placed cs.m _ branch emitted)) moved

theorem Sim.jump (translated : Translated img seeds f)
    (sim : Sim img seeds f top ret act acts s cs) (jmp : (img.decode act.pc).cflow = .jmp)
    (jumps : (img.decode act.pc).jumps = true) :
    KeepsUp hooks calls img seeds f top ret s cs := by
  have ok := img.decode_consistent act.pc
  rcases jumps_other (.inr (ok.cflow ▸ jmp)) with ⟨_, call, rts⟩
  rcases exec_jump cs.m.cpu s.cpu.s act.pc (fun a => decide (a ∈ boundaries img act.fn))
    (isFunc (analyzeDiscover img seeds)) ok jmp jumps with ⟨emitted, exec⟩
  have next : s.next hooks = _ := sim.next_eq translated (by rw [exec])
  rw [entriesAfter_other call rts] at next
  have moved := sim.move (act.transfer img seeds (img.decode act.pc).target)
    rfl sim.flags sim.alike (.refl _) (.refl _) act.transfer_own
    (placed_transfer translated sim.placed jumps)
  rw [act.transfer_pc] at moved
  exact sim.keepsUp next
    (steps_of_step (step_jump translated sim.placed cs.m _ jumps emitted)) moved

section Stack

theorem update_off_stack (ram : Addr → Byte) (s v : Byte) :
    AgreeOffStack (Function.update ram (stackAddr s) v) ram := by
  refine fun a outside => Function.update_of_ne (fun same => outside ?_) _ _
  rw [same]
  exact stackAddr_stackPage s

theorem push_other {m : Mnemonic} (stack : m.pushes = true ∨ m.pulls = true) :
    m.cflow = .normal ∧ m ≠ .jsr ∧ m ≠ .rts := by
  cases m <;> first
    | (simp [Mnemonic.pushes, Mnemonic.pulls] at stack; done)
    | exact ⟨rfl, by decide, by decide⟩

theorem run_push (i : Insn) (c : InterpCpu) (v : Byte) (hw : Hw η) :
    (pushValue i c v).run (memBus hooks) hw = (goesOn i { c with s := c.s - 1 },
      hw.withRam (Function.update hw.ram (stackAddr c.s) v)) :=
  congrArg (Prod.mk _) (lynxMemWrite_ram hooks (stackAddr_lt c.s) v hw)

theorem Sim.push (translated : Translated img seeds f)
    (sim : Sim img seeds f top ret act acts s cs) (proper : s.Proper hooks (CodeCell img f))
    (pushes : (img.decode act.pc).mnemonic.pushes = true) :
    KeepsUp hooks calls img seeds f top ret s cs := by
  have ok := img.decode_consistent act.pc
  obtain ⟨normal, call, rts⟩ := push_other (.inl pushes)
  rw [← ok.cflow] at normal
  obtain ⟨v, h, exec, emitted, pushed⟩ := exec_push s.cpu.s act.pc
    (fun a => decide (a ∈ boundaries img act.fn)) (isFunc (analyzeDiscover img seeds)) pushes
    sim.flags
  have insn : s.insn hooks = _ := sim.insn translated
  have room : 0 < s.cpu.s := proper.push (insn ▸ pushes)
  have next : s.next hooks = _ := sim.next_eq translated (by rw [exec, run_push])
  rw [entriesAfter_other call rts, sim.entries, ← entriesFrom_push s.cpu.s act.own acts v] at next
  have goes := placed_next translated sim.placed (by rw [Insn.continues, normal])
  have machine : cs.m.exec hooks (fun c => (emittedStmt img seeds act.fn
      (img.decode act.pc)).code c) = ⟨{ cs.m.cpu with s := cs.m.cpu.s - 1 },
        cs.m.hw.withRam (Function.update cs.m.hw.ram (stackAddr cs.m.cpu.s) v)⟩ := by
    rw [emittedStmt, emitted, Machine.exec, CStmt.code, pushed]
    exact congrArg (Machine.mk _) (lynxMemWrite_ram hooks (stackAddr_lt _) v _)
  have moved := sim.restack translated ⟨act.fn, (img.decode act.pc).next, v :: act.own, act.callers⟩
    acts (c := { cs.m.cpu with s := cs.m.cpu.s - 1 }) { sim.flags with } ⟨sim.placed.1, goes⟩
    sim.waiting (sim.stacked.push room v) (update_off_stack _ _ _) (update_off_stack _ _ _)
  refine ⟨1, _, acts, _, steps_of_step ((congrArg _ sim.state_eq).trans
    ((step_normal translated sim.placed cs.m _ normal).trans ?_)), next ▸ moved⟩
  rw [machine]
  rfl

theorem run_get_stack {α : Type} (p : Byte) (k : Byte → Code α) (hw : Hw η) :
    (BusProgram.read (stackAddr p) k).run (memBus hooks) hw =
      (k (hw.ram (stackAddr p))).run (memBus hooks) hw := by
  rw [run_read, memBus_read, lynxMemRead_ram (stackAddr_lt p)]

theorem Sim.pull (translated : Translated img seeds f)
    (sim : Sim img seeds f top ret act acts s cs) (proper : s.Proper hooks (CodeCell img f))
    (pulls : (img.decode act.pc).mnemonic.pulls = true) :
    KeepsUp hooks calls img seeds f top ret s cs := by
  have ok := img.decode_consistent act.pc
  obtain ⟨normal, call, rts⟩ := push_other (.inr pulls)
  rw [← ok.cflow] at normal
  obtain ⟨fn, pc, own, callers⟩ := act
  have insn : s.insn hooks = _ := sim.insn translated
  obtain ⟨e, entry, below⟩ := proper.pull (insn ▸ pulls)
  rw [sim.entries, entriesFrom_head, Option.mem_some] at entry
  cases own with
  | nil =>
    have same : e = s.cpu.s := by simpa using entry.symm
    exact absurd (same ▸ below) (BitVec.lt_irrefl _)
  | cons v own =>
    obtain ⟨left, right, stacked⟩ := sim.stacked.pull
    obtain ⟨g, h, exec, emitted, pulled, keeps⟩ := exec_pull s.cpu.s pc
      (fun a => decide (a ∈ boundaries img fn)) (isFunc (analyzeDiscover img seeds)) pulls sim.flags
    have next : s.next hooks = _ := sim.next_eq translated (by
      rw [exec, get_bind, run_get_stack, left])
    rw [entriesAfter_other call rts, sim.entries, ← entriesFrom_pull s.cpu.s own acts v] at next
    have goes := placed_next translated sim.placed (by rw [Insn.continues, normal])
    have machine : cs.m.exec hooks (fun c => (emittedStmt img seeds fn
        (img.decode pc)).code c) =
        ⟨g v { cs.m.cpu with s := cs.m.cpu.s + 1 }, cs.m.hw⟩ := by
      rw [emittedStmt, emitted, Machine.exec, CStmt.code, pulled, get_bind, run_get_stack, right]
      rfl
    have moved := sim.restack translated ⟨fn, (img.decode pc).next, own, callers⟩ acts
      (keeps v).2 ⟨sim.placed.1, goes⟩ sim.waiting ((keeps v).1 ▸ stacked) (fun _ _ => rfl)
      (fun _ _ => rfl)
    refine ⟨1, _, acts, _, steps_of_step ((congrArg _ sim.state_eq).trans
      ((step_normal translated sim.placed cs.m _ normal).trans ?_)), next ▸ moved⟩
    rw [machine]
    rfl

theorem pushedReturn_off_stack (r : Addr) (s : Byte) (ram : Addr → Byte) :
    AgreeOffStack (pushedReturn r s ram) ram := fun a outside =>
  (update_off_stack _ _ _ a outside).trans (update_off_stack _ _ _ a outside)

theorem run_pushedReturn {α : Type} (r : Addr) (s : Byte) (p : Code α) (hw : Hw η) :
    (BusProgram.write (stackAddr s) ((r >>> 8).setWidth 8)
        (.write (stackAddr (s - 1)) (r.setWidth 8) p)).run (memBus hooks) hw =
      p.run (memBus hooks) (hw.withRam (pushedReturn r s hw.ram)) := by
  rw [run_write, run_write, memBus_write, memBus_write, lynxMemWrite_ram hooks (stackAddr_lt s),
    lynxMemWrite_ram hooks (stackAddr_lt _)]
  rfl

/-- The address that a `JSR` pushes is the one before the next instruction. -/
theorem jsr_return {a : Addr} (jsr : (img.decode a).mnemonic = .jsr) :
    (img.decode a).pc + 2 = (img.decode a).next - 1 := by
  have mode := (img.decode_consistent a).mode
  rw [jsr] at mode
  have abs : (img.decode a).mode = .abs := beq_iff_eq.mp mode
  have len : (img.decode a).len = m65c02ModeLen (img.decode a).mode := rfl
  rw [abs] at len
  rw [Image.decode_next, len, Image.decode_pc]
  change a + 2 = a + 3 - 1
  bv_omega

theorem Sim.call (translated : Translated img seeds f)
    (sim : Sim img seeds f top ret act acts s cs) (proper : s.Proper hooks (CodeCell img f))
    (jsr : (img.decode act.pc).mnemonic = .jsr) : KeepsUp hooks calls img seeds f top ret s cs := by
  have ok := img.decode_consistent act.pc
  have call : (img.decode act.pc).cflow = .call := by rw [ok.cflow, jsr]; rfl
  have insn : s.insn hooks = _ := sim.insn translated
  have room : 1 < s.cpu.s := proper.call (insn ▸ jsr)
  have exec := exec_jsr cs.m.cpu s.cpu.s act.pc ok jsr
  have next : s.next hooks = _ := sim.next_eq translated (by rw [exec, run_pushedReturn])
  rw [jsr, jsr_return jsr] at next
  have goes := placed_next translated sim.placed (by rw [Insn.continues, call])
  let resumed : Activation := { act with pc := (img.decode act.pc).next }
  have waiting : ∀ a ∈ resumed :: acts, a.Placed img f := by
    intro a member
    obtain rfl | under := List.mem_cons.mp member
    · exact ⟨sim.placed.1, goes⟩
    · exact sim.waiting a under
  let callee := Activation.entered (img.decode act.pc).target
  have moved := sim.restack translated callee (resumed :: acts) sim.flags
    (placed_call translated sim.placed call) waiting (sim.stacked.call room resumed rfl)
    (pushedReturn_off_stack _ _ _) (fun _ _ => rfl)
  have entries : (s.cpu.s - 1 - 1) :: s.entries =
      entriesFrom (s.cpu.s - 1 - 1) callee.own (resumed :: acts) := by
    rw [sim.entries]
    exact (entriesFrom_call s.cpu.s resumed acts).symm
  rw [← entries] at moved
  exact ⟨1, _, _, _, steps_of_step ((congrArg _ sim.state_eq).trans
    (step_call translated sim.placed cs.m _ call)), next ▸ moved⟩

theorem run_rts {i : Insn} (rts : i.mnemonic = .rts) (c : Cpu) (s : Byte) (pc : Addr) (hw : Hw η) :
    (interpExec i (c.interp s pc)).run (memBus hooks) hw =
      ({ cpu := c.interp (s + 1 + 1) pc
         next := word16 (hw.ram (stackAddr (s + 1))) (hw.ram (stackAddr (s + 1 + 1))) + 1
         event := .none }, hw) := by
  rw [exec_rts c s pc rts, run_get_stack, run_get_stack]
  rfl

/-- A balanced routine has nothing of its own on the stack. -/
theorem Sim.own_eq_nil (sim : Sim img seeds f top ret act acts s cs)
    (balanced : s.entries.head? = some s.cpu.s) : act.own = [] := by
  have room := sim.stacked.room.2
  have small := top.isLt
  rw [sim.entries, entriesFrom_head, Option.some.injEq] at balanced
  refine List.eq_nil_of_length_eq_zero ?_
  bv_omega

theorem Sim.return (translated : Translated img seeds f)
    (sim : Sim img seeds f top ret act acts s cs) (rts : (img.decode act.pc).mnemonic = .rts)
    (balanced : s.Balanced hooks) (going : ¬ s.AtReturn hooks) :
    KeepsUp hooks calls img seeds f top ret s cs := by
  have insn : s.insn hooks = _ := sim.insn translated
  have head := balanced (insn ▸ rts)
  have empty := sim.own_eq_nil head
  have stacked := sim.stacked
  have entries := sim.entries
  rw [empty] at stacked entries
  have next : s.next hooks = _ := sim.next_eq translated (run_rts rts _ _ _ _)
  rw [rts, entriesAfter, if_pos head, entries] at next
  cases acts with
  | nil =>
    have last : s.entries = [s.cpu.s] := by
      rw [entries]
      exact congrArg (· :: []) (BitVec.add_zero _)
    exact absurd ⟨insn ▸ rts, last⟩ going
  | cons a acts =>
    obtain ⟨back, under⟩ := stacked.return
    rw [entriesFrom_return, back] at next
    have moved := sim.restack translated a acts sim.flags (sim.waiting a List.mem_cons_self)
      (fun b member => sim.waiting b (List.mem_cons_of_mem a member)) under (fun _ _ => rfl)
      (fun _ _ => rfl)
    exact ⟨_, _, _, _, (congrArg _ sim.state_eq).trans (steps_return sim.placed cs.m _ rts),
      next ▸ moved⟩

end Stack

/-- Every instruction of a translated routine is of one of the kinds above. -/
theorem Translatable.kinds {fs : Addr} (translatable : Translatable img seeds fs) {i : Insn}
    (member : i ∈ body img fs) :
    i.mnemonic.plain = true ∨ i.mnemonic.pushes = true ∨ i.mnemonic.pulls = true ∨
      i.cflow = .branch ∨ (i.cflow = .jmp ∧ i.jumps = true) ∨ i.mnemonic = .jsr ∨
      i.mnemonic = .rts := by
  obtain ⟨allowed, ind, iax⟩ := translatable.direct i member
  have ok := body_consistent member
  have jumps : i.cflow = .jmp → i.jumps = true := fun jmp => by simp [Insn.jumps, jmp, ind, iax]
  rw [ok.cflow] at jumps ⊢
  cases mnemonic : i.mnemonic <;> rw [mnemonic] at allowed jumps <;>
    simp_all [Mnemonic.plain, Mnemonic.cflow, Mnemonic.pushes, Mnemonic.pulls]

/-- One step of the interpreter. -/
theorem Sim.step (translated : Translated img seeds f) (off_stack : hooks.OffStack)
    (sim : Sim img seeds f top ret act acts s cs) (proper : s.Proper hooks (CodeCell img f))
    (balanced : s.Balanced hooks) (going : ¬ s.AtReturn hooks) :
    KeepsUp hooks calls img seeds f top ret s cs := by
  obtain kind | kind | kind | kind | ⟨kind, jumps⟩ | kind | kind :=
    (translated.routines act.fn sim.placed.1).kinds (placed_mem sim.placed)
  · exact sim.plain translated off_stack proper kind
  · exact sim.push translated proper kind
  · exact sim.pull translated proper kind
  · exact sim.branch translated off_stack proper kind
  · exact sim.jump translated kind jumps
  · exact sim.call translated proper kind
  · exact sim.return translated kind balanced going

end Moves

end LynxRecomp
