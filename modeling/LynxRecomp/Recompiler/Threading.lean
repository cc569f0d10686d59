import Mathlib.Data.List.TakeWhile
import LynxRecomp.Recompiler.Refinement

/-!
# Where control is in the emitted code

A routine that is executing stands in the frames of the C call stack: its own, with the
lines from its instruction on, and one for each function that came to it by a tail call.
Every instruction of a translated routine has its line, and each line takes the frames to
where the instruction goes.
-/

namespace LynxRecomp

variable {img : Image} {seeds : List Addr} {fs a : Addr}

section Bodies

theorem inImage_iff : inImage img a = true ↔ img.base ≤ a ∧ img.off a < img.rom.length := by
  simp [inImage, Image.off]

/-- In RAM, nothing of the image wraps around. -/
theorem Image.InRam.bounds (inRam : img.InRam) (inside : inImage img a = true) :
    0x0200 ≤ a ∧ a.toNat < 0xFC00 := by
  obtain ⟨low, high⟩ := inRam
  obtain ⟨from_, within⟩ := inImage_iff.mp inside
  unfold Image.off at within
  constructor <;> bv_omega

theorem body_eq_sweep (inRam : img.InRam) : body img fs = (sweep img fs).map Visit.insn := by
  have all : ∀ v ∈ sweep img fs, v.ascends = true := by
    intro v member
    obtain ⟨decoded, inside⟩ := sweepFrom_decoded v member
    obtain ⟨_, top⟩ := inRam.bounds inside
    have len := img.decode_len v.insn.pc
    have next := img.decode_next v.insn.pc
    refine decide_eq_true ?_
    rw [decoded, Image.decode_pc]
    bv_omega
  rw [body, bodyVisits, List.takeWhile_eq_self_iff.mpr all]

theorem Translatable.start_mem (translatable : Translatable img seeds fs) (inRam : img.InRam) :
    fs ∈ boundaries img fs := by
  obtain ⟨v, last, _⟩ := translatable.ends
  have nonempty : body img fs ≠ [] := by
    rw [body_eq_sweep inRam]
    exact List.ne_nil_of_mem (List.mem_map_of_mem (List.mem_of_getLast? last))
  obtain ⟨i, is, split⟩ := List.exists_cons_of_ne_nil nonempty
  have member : i ∈ body img fs := split ▸ List.mem_cons_self
  exact List.mem_map.mpr ⟨i, member, body_cons split⟩

/-- Only a terminator is the last instruction of the routine. -/
theorem Translatable.next_mem (translatable : Translatable img seeds fs) (inRam : img.InRam)
    (member : a ∈ boundaries img fs) (continues : (img.decode a).continues = true) :
    (img.decode a).next ∈ boundaries img fs := by
  obtain ⟨before, after, split⟩ := List.append_of_mem (mem_boundaries_iff.mp member)
  cases after with
  | nil =>
    obtain ⟨v, last, terminator⟩ := translatable.ends
    have end_ : (body img fs).getLast? = some v.insn := by
      rw [body_eq_sweep inRam, List.getLast?_map, last]
      rfl
    rw [split, List.getLast?_append] at end_
    have same : img.decode a = v.insn := by simpa using end_
    rw [← same] at terminator
    revert continues terminator
    unfold Insn.continues Insn.terminator
    cases (img.decode a).cflow <;> simp
  | cons j after =>
    have adjacent := body_adjacent_iff.mp ⟨before, after, split⟩
    rw [← adjacent.2.2]
    exact List.mem_map_of_mem adjacent.2.1

theorem Translatable.label_mem (translatable : Translatable img seeds fs) (inRam : img.InRam)
    {i : Insn} (member : i ∈ body img fs) (jumps : i.jumps = true)
    (inside : i.target ∈ boundaries img fs) :
    i.target ∈ (routine img fs).labels := by
  have inImg := boundary_inImage inside
  have nonzero : i.target ≠ 0 := by
    obtain ⟨low, _⟩ := inRam.bounds inImg
    bv_omega
  have recorded := target_recorded member jumps inImg (.inr nonzero)
  exact (mem_labels img).mpr ((Capped.mem_keep_of_fits translatable.labels).mpr recorded)

end Bodies

/-- The function emitted for the routine at `fs`. -/
abbrev emittedFunction (img : Image) (seeds : List Addr) (fs : Addr) : CFunction :=
  emittedRoutine img (analyzeDiscover img seeds) fs

theorem find_eq (img : Image) (seeds : List Addr)
    (known : isFunc (analyzeDiscover img seeds) a = true) :
    (emittedFile img seeds).find a = some (emittedFunction img seeds a) := by
  have start := (isFunc_iff img seeds).mp known
  rw [CFile.find, emittedFile, emitFunctions_eq, List.find?_map]
  have found : (starts img seeds).find? ((fun f : CFunction => f.start == a) ∘
      emittedRoutine img (analyzeDiscover img seeds)) = some a := by
    change (starts img seeds).find? (fun b => b == a) = some a
    cases found : (starts img seeds).find? (fun b => b == a) with
    | none => exact absurd (beq_self_eq_true a) (List.find?_eq_none.mp found a start)
    | some b =>
      have same : (b == a) = true := List.find?_some (p := fun b => b == a) found
      rw [beq_iff_eq.mp same]
  rw [found]
  rfl

/-- The lines of the routine at `fs` from the instruction at `a` on. -/
def linesAt (img : Image) (seeds : List Addr) (fs a : Addr) : List CLine :=
  ((body img fs).dropWhile fun i => i.pc != a).map (emittedLine img (analyzeDiscover img seeds) fs)

section Lines

theorem dropWhile_of_split {before after : List Insn}
    (split : body img fs = before ++ img.decode a :: after) :
    (body img fs).dropWhile (fun i => i.pc != a) = img.decode a :: after := by
  have nodup := boundaries_nodup img fs
  rw [boundaries, split, List.map_append, List.map_cons] at nodup
  have apart := (List.nodup_append.mp nodup).2.2
  rw [split, List.dropWhile_append_of_pos, List.dropWhile_cons_of_neg (by simp)]
  intro i earlier
  have ne := apart i.pc (List.mem_map_of_mem earlier) a List.mem_cons_self
  simpa using ne

theorem linesAt_start (start : fs ∈ boundaries img fs) :
    (emittedFunction img seeds fs).enter =
      ⟨emittedFunction img seeds fs, linesAt img seeds fs fs⟩ := by
  obtain ⟨i, is, split⟩ := List.exists_cons_of_ne_nil
    (List.ne_nil_of_mem (mem_boundaries_iff.mp start))
  rw [linesAt, split, List.dropWhile_cons_of_neg (by simp [body_cons split]), ← split]
  rfl

theorem linesFrom_eq (labelled : a ∈ (routine img fs).labels) :
    (emittedFunction img seeds fs).linesFrom a = linesAt img seeds fs a := by
  rw [CFunction.linesFrom, linesAt, emittedFunction, emittedRoutine, List.dropWhile_map]
  refine congrArg (List.map _) ?_
  have same : ((fun l : CLine => !(l.labelled && l.pc == a)) ∘
      emittedLine img (analyzeDiscover img seeds) fs) = fun i => i.pc != a := by
    funext i
    by_cases here : i.pc = a
    · simp [emittedLine, isBranchTarget, here, labelled]
    · have differs : (i.pc == a) = false := beq_eq_false_iff_ne.mpr here
      simp [emittedLine, differs, bne]
  rw [same]

theorem linesAt_cons (seeds : List Addr) (inside : a ∈ boundaries img fs) : ∃ rest,
    linesAt img seeds fs a = emittedLine img (analyzeDiscover img seeds) fs (img.decode a) :: rest ∧
      ((img.decode a).next ∈ boundaries img fs →
        rest = linesAt img seeds fs (img.decode a).next) := by
  obtain ⟨before, after, split⟩ := List.append_of_mem (mem_boundaries_iff.mp inside)
  refine ⟨after.map (emittedLine img (analyzeDiscover img seeds) fs), ?_, fun next => ?_⟩
  · rw [linesAt, dropWhile_of_split split]
    rfl
  · obtain ⟨before', after', split'⟩ := body_adjacent_iff.mpr
      ⟨mem_boundaries_iff.mp inside, mem_boundaries_iff.mp next, rfl⟩
    have first := dropWhile_of_split split
    rw [dropWhile_of_split split'] at first
    have second : body img fs =
        (before' ++ [img.decode a]) ++ img.decode (img.decode a).next :: after' := by simp [split']
    rw [linesAt, dropWhile_of_split second]
    exact congrArg (List.map _) (List.cons.inj first).2.symm

end Lines

/-- The statement for an instruction of the routine at `fs`. -/
abbrev emittedStmt (img : Image) (seeds : List Addr) (fs : Addr) (i : Insn) : CStmt :=
  emitInsn (fun a => decide (a ∈ boundaries img fs)) (isFunc (analyzeDiscover img seeds)) i

/-- The transfer of a branch or jump of the routine at `fs`. -/
abbrev emittedXfer (img : Image) (seeds : List Addr) (fs : Addr) (i : Insn) : Xfer :=
  emitXfer (fun a => decide (a ∈ boundaries img fs)) (isFunc (analyzeDiscover img seeds)) i

/-- A routine that is executing: where it goes on, the bytes it has pushed and not yet
pulled, last one first, and the functions that came to it by tail calls. -/
structure Activation where
  fn : Addr
  pc : Addr
  own : List Byte
  callers : List CFunction

namespace Activation

/-- The routine at `g` has just been entered. -/
def entered (g : Addr) : Activation := { fn := g, pc := g, own := [], callers := [] }

/-- A function with nothing left to do waits for each tail call to return. -/
def frames (img : Image) (seeds : List Addr) (act : Activation) : List Frame :=
  ⟨emittedFunction img seeds act.fn, linesAt img seeds act.fn act.pc⟩ ::
    act.callers.map fun g => ⟨g, []⟩

/-- After a branch or jump to `a` -/
def transfer (img : Image) (seeds : List Addr) (act : Activation) (a : Addr) : Activation :=
  if a ∈ boundaries img act.fn then { act with pc := a }
  else
    { act with fn := a, pc := a, callers := emittedFunction img seeds act.fn :: act.callers }

theorem transfer_own (act : Activation) {a : Addr} : (act.transfer img seeds a).own = act.own := by
  unfold transfer
  split <;> rfl

theorem transfer_pc (act : Activation) {a : Addr} : (act.transfer img seeds a).pc = a := by
  unfold transfer
  split <;> rfl

/-- After the branch `i`, taken or not -/
def branch (img : Image) (seeds : List Addr) (act : Activation) (i : Insn) (taken : Bool) :
    Activation :=
  if taken then act.transfer img seeds i.target else { act with pc := i.next }

theorem branch_own (act : Activation) (i : Insn) (taken : Bool) :
    (act.branch img seeds i taken).own = act.own := by
  cases taken with
  | true => exact act.transfer_own
  | false => rfl

theorem branch_pc (act : Activation) (i : Insn) (taken : Bool) :
    (act.branch img seeds i taken).pc = if taken then i.target else i.next := by
  cases taken with
  | true => exact act.transfer_pc
  | false => rfl

/-- The activation stands at an instruction of a routine that `f` reaches. -/
def Placed (img : Image) (f : Addr) (act : Activation) : Prop :=
  Reached img f act.fn ∧ act.pc ∈ boundaries img act.fn

end Activation

section Steps

variable {η : Type} {hooks : Hooks η} {calls : Transfers η} {f : Addr} {act : Activation}

variable (translated : Translated img seeds f) (placed : act.Placed img f) (m : Machine η)
  (below : List Frame)

theorem step_line {fn : CFunction} {line : CLine} {rest : List CLine}
    (straight : line.stmt.straight = true) :
    CState.step hooks calls (emittedFile img seeds) ⟨m, ⟨fn, line :: rest⟩ :: below⟩ =
      some ⟨m.exec hooks fun c => line.stmt.code c, ⟨fn, rest⟩ :: below⟩ := by
  obtain ⟨pc, labelled, stmt⟩ := line
  cases stmt <;> first | rfl | exact absurd straight Bool.false_ne_true

theorem steps_callers (callers : List CFunction) :
    CState.steps hooks calls (emittedFile img seeds) callers.length
      ⟨m, callers.map (fun g => ⟨g, []⟩) ++ below⟩ = some ⟨m, below⟩ := by
  induction callers with
  | nil => rfl
  | cons g callers ih => exact ih

include placed in
theorem placed_mem : img.decode act.pc ∈ body img act.fn := mem_boundaries_iff.mp placed.2

include placed in
/-- The function returns through the functions that came to it by tail calls. -/
theorem steps_return (rts : (img.decode act.pc).mnemonic = .rts) :
    CState.steps hooks calls (emittedFile img seeds) (1 + act.callers.length)
        ⟨m, act.frames img seeds ++ below⟩ = some ⟨m, below⟩ := by
  obtain ⟨rest, lines, _⟩ := linesAt_cons seeds placed.2
  have ret : emittedStmt img seeds act.fn (img.decode act.pc) = .ret := by
    rw [emittedStmt, emitInsn, rts]
  refine steps_trans (steps_of_step ?_) (steps_callers m below act.callers)
  rw [Activation.frames, lines, List.cons_append, CState.step]
  simp only [emittedLine, ret]

include translated placed

theorem placed_next (continues : (img.decode act.pc).continues = true) :
    (img.decode act.pc).next ∈ boundaries img act.fn :=
  (translated.routines act.fn placed.1).next_mem translated.inRam placed.2 continues

theorem step_normal (normal : (img.decode act.pc).cflow = .normal) :
    CState.step hooks calls (emittedFile img seeds) ⟨m, act.frames img seeds ++ below⟩ =
      some ⟨m.exec hooks fun c => (emittedStmt img seeds act.fn (img.decode act.pc)).code c,
        { act with pc := (img.decode act.pc).next }.frames img seeds ++ below⟩ := by
  obtain ⟨rest, lines, next⟩ := linesAt_cons seeds placed.2
  have straight := emitInsn_normal (fun a => decide (a ∈ boundaries img act.fn))
    (isFunc (analyzeDiscover img seeds)) (img.decode_consistent act.pc) normal
  have goes := next (placed_next translated placed (by rw [Insn.continues, normal]))
  rw [Activation.frames, lines, List.cons_append, step_line _ _ straight, goes]
  rfl

theorem placed_transfer (jumps : (img.decode act.pc).jumps = true) :
    (act.transfer img seeds (img.decode act.pc).target).Placed img f := by
  unfold Activation.transfer
  split
  · exact ⟨placed.1, by assumption⟩
  · rename_i outside
    have reached : Reached img f (img.decode act.pc).target :=
      placed.1.tail ⟨_, placed_mem placed, rfl, .inr ⟨jumps, outside⟩⟩
    exact ⟨reached, (translated.routines _ reached).start_mem translated.inRam⟩

theorem placed_branch (branch : (img.decode act.pc).cflow = .branch) (taken : Bool) :
    (act.branch img seeds (img.decode act.pc) taken).Placed img f := by
  cases taken with
  | true => exact placed_transfer translated placed (by rw [Insn.jumps, branch])
  | false => exact ⟨placed.1, placed_next translated placed (by rw [Insn.continues, branch])⟩

theorem take_transfer (jumps : (img.decode act.pc).jumps = true) :
    (emittedXfer img seeds act.fn (img.decode act.pc)).take { calls with tick := id }
        (emittedFile img seeds) (emittedFunction img seeds act.fn) m
        (act.callers.map (fun g => ⟨g, []⟩) ++ below) =
      some ⟨m, (act.transfer img seeds (img.decode act.pc).target).frames img seeds ++ below⟩ := by
  have routine_ := translated.routines act.fn placed.1
  have moved := placed_transfer translated placed jumps
  unfold Activation.transfer at moved ⊢
  unfold emittedXfer emitXfer
  by_cases inside : (img.decode act.pc).target ∈ boundaries img act.fn
  · rw [if_pos inside] at moved ⊢
    rw [if_pos (decide_eq_true inside), Xfer.take,
      linesFrom_eq (routine_.label_mem translated.inRam (placed_mem placed) jumps inside)]
    obtain ⟨rest, lines, _⟩ := linesAt_cons seeds inside
    simp only [Activation.frames, lines, id, ite_self]
    rfl
  · rw [if_neg inside] at moved ⊢
    have known := (routine_.jumps _ (placed_mem placed) jumps).resolve_left inside
    rw [if_neg (by simpa using inside), if_pos known, Xfer.take, find_eq img seeds known,
      Option.map_some, linesAt_start moved.2]
    rfl

theorem step_branch {cond : Cond} (branch : (img.decode act.pc).cflow = .branch)
    (emitted : emittedStmt img seeds act.fn (img.decode act.pc) =
      .branch cond (emittedXfer img seeds act.fn (img.decode act.pc))) :
    CState.step hooks { calls with tick := id } (emittedFile img seeds)
        ⟨m, act.frames img seeds ++ below⟩ =
      let r := (cond.code m.cpu).run (memBus hooks) m.hw
      some ⟨{ m with hw := r.2 },
        (act.branch img seeds (img.decode act.pc) r.1).frames img seeds ++ below⟩ := by
  obtain ⟨rest, lines, next⟩ := linesAt_cons seeds placed.2
  have goes := next (placed_next translated placed (by rw [Insn.continues, branch]))
  have jumps : (img.decode act.pc).jumps = true := by rw [Insn.jumps, branch]
  rw [Activation.frames, lines, List.cons_append, CState.step]
  simp only [emittedLine, emitted, Activation.branch]
  split
  · rw [take_transfer translated placed _ below jumps]
  · rw [goes]
    rfl

theorem step_jump (jumps : (img.decode act.pc).jumps = true)
    (emitted : emittedStmt img seeds act.fn (img.decode act.pc) =
      .jump (emittedXfer img seeds act.fn (img.decode act.pc))) :
    CState.step hooks { calls with tick := id } (emittedFile img seeds)
        ⟨m, act.frames img seeds ++ below⟩ =
      some ⟨m, (act.transfer img seeds (img.decode act.pc).target).frames img seeds ++ below⟩ := by
  obtain ⟨rest, lines, _⟩ := linesAt_cons seeds placed.2
  rw [Activation.frames, lines, List.cons_append, CState.step]
  simp only [emittedLine, emitted]
  exact take_transfer translated placed m below jumps

theorem placed_call (call : (img.decode act.pc).cflow = .call) :
    (Activation.entered (img.decode act.pc).target).Placed img f := by
  have reached : Reached img f (img.decode act.pc).target :=
    placed.1.tail ⟨_, placed_mem placed, rfl, .inl call⟩
  exact ⟨reached, (translated.routines _ reached).start_mem translated.inRam⟩

theorem step_call (call : (img.decode act.pc).cflow = .call) :
    CState.step hooks calls (emittedFile img seeds) ⟨m, act.frames img seeds ++ below⟩ =
      some ⟨m, (Activation.entered (img.decode act.pc).target).frames img seeds ++
        ({ act with pc := (img.decode act.pc).next }.frames img seeds ++ below)⟩ := by
  obtain ⟨rest, lines, next⟩ := linesAt_cons seeds placed.2
  have goes := next (placed_next translated placed (by rw [Insn.continues, call]))
  have known := (translated.routines act.fn placed.1).calls _ (placed_mem placed) call
  have entry : (img.decode act.pc).target ∈ boundaries img (img.decode act.pc).target :=
    (placed_call translated placed call).2
  have emitted := emitInsn_call (fun a => decide (a ∈ boundaries img act.fn))
    (isFunc (analyzeDiscover img seeds)) (img.decode_consistent act.pc) call
  rw [if_pos known] at emitted
  rw [Activation.frames, lines, List.cons_append, CState.step]
  simp only [emittedLine, emitted]
  rw [find_eq img seeds known, Option.map_some, linesAt_start entry, goes]
  rfl

end Steps

end LynxRecomp
