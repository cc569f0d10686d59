import LynxRecomp.Recompiler.Coverage
import LynxRecomp.Recompiler.Correctness

/-!
# Where computed jumps lead

Discovery follows the first 64 pointers of a jump table, while they look like code
targets; X can select 128. Up to the 64th pointer a computed jump lands on a routine of
the table, whatever the image, unless a pointer lies across the top of memory.
-/

namespace LynxRecomp

variable {η : Type}

section Dispatching

/-- `lynx_recomp_register`, where the function at `a` is the host function `routines a`. -/
def lynxRecompRegister (file : CFile) (routines : Addr → Machine η → Machine η)
    (d : Dispatch η) : Dispatch η :=
  file.registers.foldl (fun d a => lynxRegister a (routines a) d) d

/-- `lynx_jmp_indirect` with the hook it starts out with. -/
def lynxJmpIndirect (d : Dispatch η) (addr : Addr) (m : Machine η) : Machine η :=
  lynxCallAddr d addr m

theorem registered_table (routines : Addr → Machine η → Machine η) {as : List Addr} {a : Addr}
    {d : Dispatch η} (known : a ∈ as ∨ d.table a = some (routines a)) :
    (as.foldl (fun d a => lynxRegister a (routines a) d) d).table a = some (routines a) := by
  induction as generalizing d with
  | nil => exact known.resolve_left List.not_mem_nil
  | cons b as ih =>
    apply ih
    by_cases same : a = b
    · right
      rw [same]
      exact Function.update_self ..
    · rcases known with member | registered
      · exact .inl ((List.mem_cons.mp member).resolve_left same)
      · exact .inr ((Function.update_of_ne same ..).trans registered)

/-- A registered function is called, not the fallback. -/
theorem lynxJmpIndirect_registered (routines : Addr → Machine η → Machine η) {file : CFile}
    {a : Addr} (known : a ∈ file.registers) (d : Dispatch η) (m : Machine η) :
    lynxJmpIndirect (lynxRecompRegister file routines d) a m = routines a m := by
  have found : (lynxRecompRegister file routines d).table a = some (routines a) :=
    registered_table routines (.inl known)
  rw [lynxJmpIndirect, lynxCallAddr, found]

end Dispatching

section Pointers

/-- The pointer at `p`; the address of its high byte wraps. -/
def Image.pointer (img : Image) (p : Addr) : Addr :=
  word16 (img.byte (img.off p)) (img.byte (img.off (p + 1)))

/-- The image holds a pointer at `p` that is not zero and leads into the image. -/
structure Image.CodePointer (img : Image) (p : Addr) : Prop where
  low : inImage img p = true
  high : inImage img (p + 1) = true
  nonzero : img.pointer p ≠ 0
  inside : inImage img (img.pointer p) = true

/-- Where pointer number `e` of a table at `a` is. -/
def entryAt (a : Addr) (e : Nat) : Addr := a + BitVec.ofNat 16 (2 * e)

/-- A run of code pointers at `a` that includes number `e`. -/
def Image.PointerRun (img : Image) (a : Addr) (e : Nat) : Prop :=
  ∀ k ≤ e, img.CodePointer (entryAt a k)

/-- With `x` in X, a jump of this mode takes pointer number `e` of those at its operand. -/
inductive AddrMode.Selects (x : Byte) : AddrMode → Nat → Prop where
  | ind : Selects x .ind 0
  | iax {e : Nat} : x.toNat = 2 * e → Selects x .iax e

/-- The instruction is a `JMP (abs)` or a `JMP (abs,X)`, which with `x` in X takes pointer number
`e` of those at its operand. -/
def Insn.Selects (i : Insn) (x : Byte) (e : Nat) : Prop := i.mnemonic = .jmp ∧ i.mode.Selects x e

/-- The walk of discovery gets to pointer number `e` of the run at `a` and reads none of the
pointers up to it across the top of memory. -/
def Walked (a : Addr) (e : Nat) : Prop := e < 64 ∧ ∀ k ≤ e, entryAt a k ≠ 0xFFFF

instance (a : Addr) (e : Nat) : Decidable (Walked a e) := inferInstanceAs (Decidable (_ ∧ _))

variable {img : Image} {a : Addr} {e : Nat}

theorem entryAt_zero (a : Addr) : entryAt a 0 = a := BitVec.add_zero a

theorem entryAt_succ (a : Addr) (e : Nat) : entryAt a (e + 1) = entryAt (a + 2) e := by
  unfold entryAt
  bv_omega

/-- Except at `$FFFF`, discovery reads a pointer as the CPU does. -/
theorem imgRd16_eq_pointer {p : Addr} (low : inImage img p = true)
    (high : inImage img (p + 1) = true) (below : p ≠ 0xFFFF) : imgRd16 img p = img.pointer p := by
  rw [imgRd16, low, high, Image.pointer, Image.off_succ low below]
  rfl

/-- The walk takes up a code pointer and goes on behind it. -/
theorem jumpTable_cons (n : Nat) (pointer : img.CodePointer a) (below : a ≠ 0xFFFF) :
    jumpTable img (n + 1) a = img.pointer a :: jumpTable img n (a + 2) := by
  have value := imgRd16_eq_pointer pointer.low pointer.high below
  have valid : ¬ (img.pointer a = 0 ∨ inImage img (img.pointer a) = false) := by
    rintro (zero | outside)
    · exact pointer.nonzero zero
    · exact absurd (pointer.inside.symm.trans outside) (by decide)
  rw [jumpTable, value]
  exact if_neg valid

theorem mem_jumpTable {n : Nat} (run : img.PointerRun a e)
    (inner : ∀ k ≤ e, entryAt a k ≠ 0xFFFF) (early : e < n) :
    img.pointer (entryAt a e) ∈ jumpTable img n a := by
  induction e generalizing n a with
  | zero =>
    rcases n with _ | n
    · exact absurd early (Nat.lt_irrefl 0)
    · have first := run 0 (Nat.le_refl 0)
      have below := inner 0 (Nat.le_refl 0)
      rw [entryAt_zero] at first below ⊢
      rw [jumpTable_cons n first below]
      exact List.mem_cons_self
  | succ e ih =>
    rcases n with _ | n
    · exact absurd early (Nat.not_lt_zero _)
    · have first := run 0 (Nat.zero_le _)
      have below := inner 0 (Nat.zero_le _)
      rw [entryAt_zero] at first below
      rw [jumpTable_cons n first below, entryAt_succ]
      apply List.mem_cons_of_mem
      apply ih _ _ (Nat.lt_of_succ_lt_succ early)
      · intro k le
        rw [← entryAt_succ]
        exact run (k + 1) (Nat.succ_le_succ le)
      · intro k le
        rw [← entryAt_succ]
        exact inner (k + 1) (Nat.succ_le_succ le)

end Pointers

section Jumps

variable {img : Image} {seeds : List Addr}

/-- At run time the bytes at `p` read as the image has them. -/
structure Hw.HoldsPointer (hw : Hw η) (img : Image) (p : Addr) : Prop where
  low : (lynxMemRead p hw).1 = img.byte (img.off p)
  high : (lynxMemRead (p + 1) (lynxMemRead p hw).2).1 = img.byte (img.off (p + 1))

/-- The address that a computed jump passes to `lynx_jmp_indirect`, and the machine behind the
bus at this call. -/
def CStmt.indirectTarget (hooks : Hooks η) (m : Machine η) : CStmt → Option (Addr × Hw η)
  | .jmpIndirect a => some ((a.code m.cpu >>= lynxMemRead16).run (memBus hooks) m.hw)
  | _ => none

/-- The line passes the start of a function of the table to `lynx_jmp_indirect`, and after
`lynx_recomp_register` the next step of the emitted code is a call of that function. -/
def JumpsToFunc (hooks : Hooks η) (img : Image) (seeds : List Addr) (line : CLine)
    (m : Machine η) : Prop :=
  ∃ r, line.stmt.indirectTarget hooks m = some r ∧
    r.1 ∈ (analyzeDiscover img seeds).funcs.map Func.start ∧
    ∀ (calls : Transfers η) (routines : Addr → Machine η → Machine η) (d : Dispatch η)
      (fn : CFunction) (rest : List CLine) (below : List Frame),
      let file := emitFunctions img (analyzeDiscover img seeds)
      CState.step hooks
        { calls with jmpIndirect := lynxJmpIndirect (lynxRecompRegister file routines d) } file
        ⟨m, ⟨fn, line :: rest⟩ :: below⟩ = some ⟨routines r.1 { m with hw := r.2 }, below⟩

theorem jumpsToFunc_iff {hooks : Hooks η} {line : CLine} {m : Machine η} {r : Addr × Hw η}
    (target : line.stmt.indirectTarget hooks m = some r) :
    JumpsToFunc hooks img seeds line m ↔ r.1 ∈ starts img seeds := by
  have known := analyzeDiscover_starts img seeds
  constructor
  · rintro ⟨r', target', member, _⟩
    obtain rfl := Option.some.inj (target.symm.trans target')
    exact known ▸ member
  · intro member
    refine ⟨r, target, known ▸ member, ?_⟩
    intro calls routines d fn rest below
    have registered : r.1 ∈ (emitFunctions img (analyzeDiscover img seeds)).registers := by
      rw [emitFunctions_eq]
      exact member
    cases stmt : line.stmt with
    | jmpIndirect a =>
      rw [stmt] at target
      obtain rfl := Option.some.inj target
      simp only [CState.step, stmt, lynxJmpIndirect_registered routines registered]
    | _ =>
      rw [stmt] at target
      exact absurd target (by simp [CStmt.indirectTarget])

/-- The jump that discovery decodes as `v` in the routine at `fs` has a line in the function of
the routine, and the line lands on a routine of the table. -/
def Lands (hooks : Hooks η) (img : Image) (seeds : List Addr) (fs : Addr) (v : Visit)
    (m : Machine η) : Prop :=
  ∃ f ∈ (emitFunctions img (analyzeDiscover img seeds)).functions, f.start = fs ∧
    ∃ line ∈ f.lines, line.pc = v.insn.pc ∧ JumpsToFunc hooks img seeds line m

theorem Insn.Selects.cflow {i : Insn} {x : Byte} {e : Nat} (selects : i.Selects x e)
    (ok : i.Consistent) : i.cflow = .jmp := by
  rw [ok.cflow, selects.1]
  rfl

/-- What a computed jump of a routine passes on. -/
theorem computed_target (hooks : Hooks η) {fs : Addr} {i : Insn} (member : i ∈ body img fs)
    {m : Machine η} {e : Nat} (selects : i.Selects m.cpu.x e)
    (same : m.hw.HoldsPointer img (entryAt i.operand e)) :
    ∃ hw, (emittedLine img (analyzeDiscover img seeds) fs i).stmt.indirectTarget hooks m =
      some (img.pointer (entryAt i.operand e), hw) := by
  have ok := body_consistent member
  have read (a : AddrExpr) (at_ : a.code m.cpu = pure (entryAt i.operand e)) :
      ∃ hw, CStmt.indirectTarget hooks m (.jmpIndirect a) =
        some (img.pointer (entryAt i.operand e), hw) := by
    refine ⟨_, congrArg some (Prod.ext ?_ rfl)⟩
    rw [at_]
    exact congrArg₂ word16 same.low same.high
  rw [emittedLine, emitInsn_jmp _ _ ok (selects.cflow ok)]
  obtain ⟨_, selects⟩ := selects
  generalize mode : i.mode = way at selects ⊢
  cases selects with
  | ind =>
    rw [if_pos rfl]
    apply read
    rw [entryAt_zero]
    rfl
  | iax x =>
    rw [if_neg (by decide), if_pos rfl]
    apply read
    refine congrArg pure ?_
    unfold entryAt
    bv_omega

/-- A computed jump lands exactly if it lies below the top of memory and its target is a start. -/
theorem lands_iff (hooks : Hooks η) {fs : Addr} (start : fs ∈ starts img seeds) {v : Visit}
    (visited : v ∈ sweep img fs) {m : Machine η} {e : Nat} (selects : v.insn.Selects m.cpu.x e)
    (same : m.hw.HoldsPointer img (entryAt v.insn.operand e)) :
    Lands hooks img seeds fs v m ↔
      v.BelowTop fs ∧ img.pointer (entryAt v.insn.operand e) ∈ starts img seeds := by
  have jumps (below : v.BelowTop fs) :
      JumpsToFunc hooks img seeds (emittedLine img (analyzeDiscover img seeds) fs v.insn) m ↔
        img.pointer (entryAt v.insn.operand e) ∈ starts img seeds := by
    rcases computed_target hooks (mem_body_of_belowTop visited below) selects same with ⟨hw, target⟩
    exact jumpsToFunc_iff target
  constructor
  · rintro ⟨f, function, begins, line, emitted, at_, lands⟩
    have below := (emitted_iff start visited).mp ⟨f, function, begins, line, emitted, at_⟩
    rw [emitFunctions_eq] at function
    rcases List.mem_map.mp function with ⟨other, _, rfl⟩
    obtain rfl : other = fs := begins
    rcases List.mem_map.mp emitted with ⟨i, member, rfl⟩
    have decoded : i = v.insn := by
      rw [(body_decoded member).1, (sweepFrom_decoded v visited).1]
      exact congrArg img.decode at_
    rw [decoded] at lands
    exact ⟨below, (jumps below).mp lands⟩
  · rintro ⟨below, known⟩
    refine ⟨emittedRoutine img (analyzeDiscover img seeds) fs, ?_, rfl,
      emittedLine img (analyzeDiscover img seeds) fs v.insn,
      List.mem_map_of_mem (mem_body_of_belowTop visited below), rfl, (jumps below).mpr known⟩
    rw [emitFunctions_eq]
    exact List.mem_map_of_mem start

/-- The pointers that discovery gets to make entries known. -/
theorem entry_of_walked {fs : Addr} (entry : Entry img seeds fs) {v : Visit}
    (visited : v ∈ sweep img fs) {x : Byte} {e : Nat} (selects : v.insn.Selects x e)
    (run : img.PointerRun v.insn.operand e) (walked : Walked v.insn.operand e) :
    Entry img seeds (img.pointer (entryAt v.insn.operand e)) := by
  have decoded := (sweepFrom_decoded v visited).1
  have jmp := selects.cflow (by rw [decoded]; exact img.decode_consistent _)
  refine .succ entry (List.mem_flatMap.mpr ⟨v, visited, ?_⟩)
  unfold Visit.pushes
  rw [jmp]
  apply List.mem_append_right
  obtain ⟨_, selects⟩ := selects
  generalize mode : v.insn.mode = way at selects ⊢
  cases selects with
  | ind =>
    have first := run 0 (Nat.le_refl 0)
    have below := walked.2 0 (Nat.le_refl 0)
    rw [entryAt_zero] at first below ⊢
    simp only [imgRd16_eq_pointer first.low first.high below, if_pos first.inside]
    exact List.mem_singleton_self _
  | iax _ => exact mem_jumpTable run walked.2 walked.1

end Jumps

/-- Wherever an image has a computed jump of this mode and operand that with `x` in X takes pointer
number `e` of a run, and the machine still holds that pointer, the jump lands exactly if it lies
below the top of memory. -/
def AlwaysLands (hooks : Hooks η) (mode : AddrMode) (a : Addr) (x : Byte) (e : Nat) : Prop :=
  ∀ (img : Image) (seeds : List Addr),
    Worklist.Fits maxFuncs (routineEntries img) (seeds.filter (inImage img)) →
    ∀ f ∈ (analyzeDiscover img seeds).funcs, ∀ v ∈ sweep img f.start,
      v.insn.mode = mode → v.insn.operand = a → v.insn.Selects x e → img.PointerRun a e →
      ∀ m : Machine η, m.cpu.x = x → m.hw.HoldsPointer img (entryAt a e) →
        (Lands hooks img seeds f.start v m ↔ v.BelowTop f.start)

theorem alwaysLands_of_walked (hooks : Hooks η) {mode : AddrMode} {a : Addr} {x : Byte} {e : Nat}
    (walked : Walked a e) : AlwaysLands hooks mode a x e := by
  intro img seeds fits f function v visited _ operand selects run m inX same
  rw [analyzeDiscover_funcs] at function
  rcases List.mem_map.mp function with ⟨fs, start, rfl⟩
  rw [← operand] at run same walked
  change Lands hooks img seeds fs v m ↔ v.BelowTop fs
  rw [lands_iff hooks start visited (inX ▸ selects) same]
  have entry := (mem_starts_iff fits).mp start
  exact and_iff_left ((mem_starts_iff fits).mpr (entry_of_walked entry visited selects run walked))

end LynxRecomp
