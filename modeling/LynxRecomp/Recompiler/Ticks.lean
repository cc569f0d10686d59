import LynxRecomp.Lib.Rings
import LynxRecomp.Recompiler.WellFormed

/-!
# Which loops tick

A goto ticks if it goes back. Control that never ticks therefore moves forward inside a
function until it leaves for another one by a tail transfer, and a loop without a tick
is a ring of functions that leave for one another in this way.
-/

namespace LynxRecomp

open Relation

/-- An instruction of the emitted program: the function it stands in and its address. -/
structure Point where
  fn : Addr
  pc : Addr
  deriving DecidableEq, Repr

/-- Control can go on with the next line. -/
def CStmt.fallsThrough : CStmt → Bool
  | .branch _ _ | .call _ | .bootCall _ => true
  | s => s.straight

/-- One instruction can hand control to another without `lynx_tick()`. -/
inductive HandsOn (file : CFile) : Point → Point → Prop where
  | fall {f : CFunction} {line next : CLine} {before after : List CLine}
      (defined : f ∈ file.functions) (lines : f.lines = before ++ line :: next :: after)
      (falls : line.stmt.fallsThrough = true) :
      HandsOn file ⟨f.start, line.pc⟩ ⟨f.start, next.pc⟩
  | goto {f : CFunction} {line next : CLine} (defined : f ∈ file.functions)
      (from_ : line ∈ f.lines) (goes : line.stmt.xfer = some (.goto false next.pc))
      (lands : next ∈ f.lines) :
      HandsOn file ⟨f.start, line.pc⟩ ⟨f.start, next.pc⟩
  | tail {f g : CFunction} {line first : CLine} {rest : List CLine} (defined : f ∈ file.functions)
      (from_ : line ∈ f.lines) (goes : line.stmt.xfer = some (.tail g.start))
      (callee : g ∈ file.functions) (entry : g.lines = first :: rest) :
      HandsOn file ⟨f.start, line.pc⟩ ⟨g.start, first.pc⟩

/-- No instruction can come back to itself without a tick. -/
def EveryLoopTicks (file : CFile) : Prop := ∀ p, ¬ TransGen (HandsOn file) p p

/-- The instruction can be followed by the next one. -/
def Insn.continues (i : Insn) : Bool :=
  match i.cflow with
  | .normal | .branch | .call => true
  | _ => false

/-- Inside the routine at `fs`, the instruction at `a` can go on with the one at `b`, the
next one or the target further down of a branch or jump. -/
def Forward (img : Image) (fs a b : Addr) : Prop :=
  a ∈ boundaries img fs ∧ b ∈ boundaries img fs ∧
    ((img.decode a).continues = true ∧ b = (img.decode a).next ∨
      (img.decode a).jumps = true ∧ b = (img.decode a).target ∧ a < b)

/-- The instruction at `a` branches or jumps out of the routine at `fs` to the one at `gs`. -/
def Leaves (img : Image) (seeds : List Addr) (fs a gs : Addr) : Prop :=
  a ∈ boundaries img fs ∧ (img.decode a).jumps = true ∧ (img.decode a).target = gs ∧
    gs ∉ boundaries img fs ∧ gs ∈ starts img seeds ∧ gs ∈ boundaries img gs

/-- From the start of the routine at `fs`, control can move forward to a branch or jump to
the start of the routine at `gs`. -/
def TailStep (img : Image) (seeds : List Addr) (fs gs : Addr) : Prop :=
  fs ∈ starts img seeds ∧ ∃ a, ReflTransGen (Forward img fs) fs a ∧ Leaves img seeds fs a gs

/-- Two elements next to each other in an image come from two next to each other. -/
theorem adjacent_of_map {α β : Type} {f : α → β} {l : List α} {a b : β} {before after : List β}
    (split : l.map f = before ++ a :: b :: after) :
    ∃ before' after' x y, l = before' ++ x :: y :: after' ∧ f x = a ∧ f y = b := by
  obtain ⟨before', tail, rfl, _, mapped⟩ := List.map_eq_append_iff.mp split
  obtain ⟨x, tail', rfl, hx, mapped'⟩ := List.map_eq_cons_iff.mp mapped
  obtain ⟨y, after', rfl, hy, _⟩ := List.map_eq_cons_iff.mp mapped'
  exact ⟨before', after', x, y, rfl, hx, hy⟩

section Moves

variable {img : Image} {seeds : List Addr}

/-- A move inside a function. -/
def Moves (img : Image) (seeds : List Addr) (p q : Point) : Prop :=
  p.fn ∈ starts img seeds ∧ q.fn = p.fn ∧ Forward img p.fn p.pc q.pc

/-- A tail transfer, which lands on the start of a function. -/
def Jumps (img : Image) (seeds : List Addr) (p q : Point) : Prop :=
  p.fn ∈ starts img seeds ∧ Leaves img seeds p.fn p.pc q.fn ∧ q.pc = q.fn

theorem emitInsn_fallsThrough (inRange isFunc : Addr → Bool) {i : Insn} (ok : i.Consistent) :
    (emitInsn inRange isFunc i).fallsThrough = i.continues := by
  unfold Insn.continues
  cases class_ : i.cflow with
  | normal =>
    have straight := emitInsn_normal inRange isFunc ok class_
    revert straight
    cases emitInsn inRange isFunc i <;> simp [CStmt.straight, CStmt.fallsThrough]
  | branch =>
    obtain ⟨c, emitted⟩ := emitInsn_branch inRange isFunc ok class_
    rw [emitted]
    rfl
  | jmp =>
    rw [emitInsn_jmp inRange isFunc ok class_]
    cases i.mode <;> rfl
  | call =>
    rw [emitInsn_call inRange isFunc ok class_]
    split <;> rfl
  | ret | brk | stop =>
    have leaves := emitInsn_leaves inRange isFunc ok (by simp [class_])
    revert leaves
    cases emitInsn inRange isFunc i <;> simp [CStmt.straight, CStmt.fallsThrough]

/-- A goto without a tick goes to a boundary further down. -/
theorem untimedGoto_iff {t : FuncTable} {fs a : Addr} {i : Insn} (member : i ∈ body img fs) :
    (emittedLine img t fs i).stmt.xfer = some (.goto false a) ↔
      i.jumps = true ∧ i.target = a ∧ a ∈ boundaries img fs ∧ i.pc < a := by
  rw [emittedLine, emitInsn_xfer _ _ (body_consistent member), emitXfer, tickIfBack]
  by_cases jumps : i.jumps = true <;> by_cases inside : i.target ∈ boundaries img fs
  · simp only [jumps, inside, decide_true, if_true, Option.some.injEq, Xfer.goto.injEq,
      decide_eq_false_iff_not, BitVec.not_le, true_and]
    constructor
    · rintro ⟨down, same⟩
      exact ⟨same, same ▸ inside, same ▸ down⟩
    · rintro ⟨same, -, down⟩
      exact ⟨same ▸ down, same⟩
  · have away : i.target = a → a ∉ boundaries img fs := fun same => same ▸ inside
    simp only [jumps, inside, decide_false, if_true, true_and, Bool.false_eq_true, if_false]
    split <;> simp_all
  · simp [jumps]
  · simp [jumps]

theorem tail_iff {t : FuncTable} {fs a : Addr} {i : Insn} (member : i ∈ body img fs) :
    (emittedLine img t fs i).stmt.xfer = some (.tail a) ↔
      i.jumps = true ∧ i.target = a ∧ a ∉ boundaries img fs ∧ isFunc t a = true := by
  rw [emittedLine, emitInsn_xfer _ _ (body_consistent member), emitXfer]
  by_cases jumps : i.jumps = true <;> by_cases inside : i.target ∈ boundaries img fs
  · have here : i.target = a → a ∈ boundaries img fs := fun same => same ▸ inside
    simp only [jumps, inside, decide_true, if_true, true_and]
    simp_all
  · simp only [jumps, inside, decide_false, if_true, true_and]
    by_cases known : isFunc t i.target = true
    · simp only [known, if_true, Bool.false_eq_true, if_false, Option.some.injEq, Xfer.tail.injEq]
      constructor
      · intro same
        exact ⟨same, same ▸ inside, same ▸ known⟩
      · intro target
        exact target.1
    · have unknown : i.target = a → ¬ isFunc t a = true := fun same => same ▸ known
      simp_all
  · simp [jumps]
  · simp [jumps]

theorem mem_boundaries_iff {fs a : Addr} : a ∈ boundaries img fs ↔ img.decode a ∈ body img fs := by
  constructor
  · intro h
    obtain ⟨i, member, rfl⟩ := List.mem_map.mp h
    exact (body_decoded member).1 ▸ member
  · exact fun h => List.mem_map.mpr ⟨_, h, rfl⟩

/-- Lines stand next to each other exactly if the second is at the next address. -/
theorem body_adjacent_iff {fs : Addr} {i j : Insn} :
    (∃ before after, body img fs = before ++ i :: j :: after) ↔
      i ∈ body img fs ∧ j ∈ body img fs ∧ j.pc = i.next := by
  have chain := bodyVisits_chain img fs
  constructor
  · rintro ⟨before, after, split⟩
    refine ⟨by simp [split], by simp [split], ?_⟩
    obtain ⟨before', after', v, w, visits, rfl, rfl⟩ := adjacent_of_map split
    rw [visits] at chain
    exact chain.after.head_pc
  · rintro ⟨hi, hj, follows⟩
    obtain ⟨v, hv, rfl⟩ := List.mem_map.mp hi
    obtain ⟨w, hw, rfl⟩ := List.mem_map.mp hj
    obtain ⟨before, after, visits⟩ := chain.adjacent hv hw follows
    exact ⟨before.map Visit.insn, after.map Visit.insn, by simp [body, visits]⟩

/-- The first instruction of a body that has one is at the start. -/
theorem body_cons {fs : Addr} {i : Insn} {is : List Insn} (split : body img fs = i :: is) :
    i.pc = fs := by
  have chain := bodyVisits_chain img fs
  obtain ⟨v, vs, visits, rfl, _⟩ := List.map_eq_cons_iff.mp split
  rw [visits] at chain
  exact chain.head_pc

/-- The file emitted for what discovery found. -/
abbrev emittedFile (img : Image) (seeds : List Addr) : CFile :=
  emitFunctions img (analyzeDiscover img seeds)

theorem mem_emittedFile {f : CFunction} :
    f ∈ (emittedFile img seeds).functions ↔
      ∃ fs ∈ starts img seeds, emittedRoutine img (analyzeDiscover img seeds) fs = f := by
  rw [emittedFile, emitFunctions_eq, List.mem_map]

theorem handsOn_next {fs a : Addr} (start : fs ∈ starts img seeds) (from_ : a ∈ boundaries img fs)
    (lands : (img.decode a).next ∈ boundaries img fs)
    (continues : (img.decode a).continues = true) :
    HandsOn (emittedFile img seeds) ⟨fs, a⟩ ⟨fs, (img.decode a).next⟩ := by
  obtain ⟨before, after, split⟩ := body_adjacent_iff.mpr
    ⟨mem_boundaries_iff.mp from_, mem_boundaries_iff.mp lands, rfl⟩
  have lines := congrArg (List.map (emittedLine img (analyzeDiscover img seeds) fs)) split
  rw [List.map_append, List.map_cons, List.map_cons] at lines
  refine HandsOn.fall (mem_emittedFile.mpr ⟨fs, start, rfl⟩) lines ?_
  rw [emittedLine, emitInsn_fallsThrough _ _ (img.decode_consistent a)]
  exact continues

theorem handsOn_goto {fs a : Addr} (start : fs ∈ starts img seeds) (from_ : a ∈ boundaries img fs)
    (lands : (img.decode a).target ∈ boundaries img fs) (jumps : (img.decode a).jumps = true)
    (down : a < (img.decode a).target) :
    HandsOn (emittedFile img seeds) ⟨fs, a⟩ ⟨fs, (img.decode a).target⟩ := by
  have member := mem_boundaries_iff.mp from_
  refine HandsOn.goto (mem_emittedFile.mpr ⟨fs, start, rfl⟩) (List.mem_map_of_mem member) ?_
    (List.mem_map_of_mem (mem_boundaries_iff.mp lands))
  exact (untimedGoto_iff member).mpr ⟨jumps, rfl, lands, down⟩

theorem handsOn_tail {fs a gs : Addr} (start : fs ∈ starts img seeds)
    (leaves : Leaves img seeds fs a gs) : HandsOn (emittedFile img seeds) ⟨fs, a⟩ ⟨gs, gs⟩ := by
  obtain ⟨from_, jumps, target, away, known, nonempty⟩ := leaves
  have member := mem_boundaries_iff.mp from_
  obtain ⟨j, rest, split⟩ := List.exists_cons_of_ne_nil
    (List.ne_nil_of_mem (mem_boundaries_iff.mp nonempty))
  obtain rfl := body_cons split
  have lines := congrArg (List.map (emittedLine img (analyzeDiscover img seeds) j.pc)) split
  rw [List.map_cons] at lines
  exact HandsOn.tail (mem_emittedFile.mpr ⟨fs, start, rfl⟩) (List.mem_map_of_mem member)
    ((tail_iff member).mpr ⟨jumps, target, away, (isFunc_iff img seeds).mpr known⟩)
    (mem_emittedFile.mpr ⟨j.pc, known, rfl⟩) lines

theorem handsOn_iff {p q : Point} :
    HandsOn (emittedFile img seeds) p q ↔
      Rings.Either (Moves img seeds) (Jumps img seeds) p q := by
  constructor
  · intro hands
    cases hands with
    | fall defined lines falls =>
      obtain ⟨fs, start, rfl⟩ := mem_emittedFile.mp defined
      obtain ⟨before, after, i, j, split, rfl, rfl⟩ := adjacent_of_map lines
      obtain ⟨hi, hj, follows⟩ := body_adjacent_iff.mp ⟨before, after, split⟩
      rw [emittedLine, emitInsn_fallsThrough _ _ (body_consistent hi)] at falls
      rw [(body_decoded hi).1] at falls follows
      exact .inl ⟨start, rfl, List.mem_map_of_mem hi, List.mem_map_of_mem hj, .inl ⟨falls, follows⟩⟩
    | goto defined from_ goes lands =>
      obtain ⟨fs, start, rfl⟩ := mem_emittedFile.mp defined
      obtain ⟨i, hi, rfl⟩ := List.mem_map.mp from_
      obtain ⟨j, hj, rfl⟩ := List.mem_map.mp lands
      obtain ⟨jumps, target, inside, down⟩ := (untimedGoto_iff hi).mp goes
      rw [(body_decoded hi).1] at jumps target
      exact .inl ⟨start, rfl, List.mem_map_of_mem hi, inside, .inr ⟨jumps, target.symm, down⟩⟩
    | tail defined from_ goes callee entry =>
      obtain ⟨fs, start, rfl⟩ := mem_emittedFile.mp defined
      obtain ⟨gs, known, rfl⟩ := mem_emittedFile.mp callee
      obtain ⟨i, hi, rfl⟩ := List.mem_map.mp from_
      obtain ⟨j, rest, split, rfl, _⟩ := List.map_eq_cons_iff.mp entry
      obtain ⟨jumps, target, away, _⟩ := (tail_iff hi).mp goes
      rw [(body_decoded hi).1] at jumps target
      have first : j.pc = gs := body_cons split
      have nonempty : gs ∈ boundaries img gs :=
        List.mem_map.mpr ⟨j, split ▸ List.mem_cons_self, first⟩
      exact .inr ⟨start, ⟨List.mem_map_of_mem hi, jumps, target, away, known, nonempty⟩, first⟩
  · obtain ⟨fs, a⟩ := p
    obtain ⟨gs, b⟩ := q
    simp only [Rings.Either, Moves, Jumps]
    rintro (⟨start, rfl, from_, lands, ⟨continues, rfl⟩ | ⟨jumps, rfl, down⟩⟩ |
      ⟨start, leaves, rfl⟩)
    · exact handsOn_next start from_ lands continues
    · exact handsOn_goto start from_ lands jumps down
    · exact handsOn_tail start leaves

theorem forward_lt {fs a b : Addr} (forward : Forward img fs a b) : a < b := by
  obtain ⟨from_, _, ⟨_, rfl⟩ | ⟨_, _, down⟩⟩ := forward
  · exact (body_decoded (mem_boundaries_iff.mp from_)).2.2.1
  · exact down

theorem moves_acyclic (p : Point) : ¬ TransGen (Moves img seeds) p p := by
  have rises {p q : Point} (moves : TransGen (Moves img seeds) p q) : p.pc < q.pc := by
    induction moves with
    | single step => exact forward_lt step.2.2
    | tail _ step ih => exact addr_lt_of_lt_of_le ih (BitVec.le_of_lt (forward_lt step.2.2))
  exact fun cycle => BitVec.lt_irrefl _ (rises cycle)

theorem moves_iff {fs : Addr} (start : fs ∈ starts img seeds) {a : Addr} {q : Point} :
    ReflTransGen (Moves img seeds) ⟨fs, a⟩ q ↔
      q.fn = fs ∧ ReflTransGen (Forward img fs) a q.pc := by
  constructor
  · intro moves
    induction moves with
    | refl => exact ⟨rfl, .refl⟩
    | tail _ step ih =>
      obtain ⟨_, same, forward⟩ := step
      rw [ih.1] at same forward
      exact ⟨same, ih.2.tail forward⟩
  · obtain ⟨fn, b⟩ := q
    rintro ⟨same, forward⟩
    change fn = fs at same
    subst same
    change ReflTransGen (Forward img fn) a b at forward
    induction forward with
    | refl => exact .refl
    | tail _ step ih => exact ih.tail ⟨start, rfl, step⟩

theorem hop_lands {p q : Point} (hop : Rings.Hop (Moves img seeds) (Jumps img seeds) p q) :
    q = ⟨q.fn, q.fn⟩ ∧ q.fn ∈ starts img seeds := by
  obtain ⟨_, _, _, leaves, entry⟩ := hop
  obtain ⟨_, _, _, _, known, _⟩ := leaves
  obtain ⟨gs, b⟩ := q
  change b = gs at entry
  exact ⟨congrArg (Point.mk gs) entry, known⟩

theorem hop_iff {fs : Addr} {q : Point} (start : fs ∈ starts img seeds) :
    Rings.Hop (Moves img seeds) (Jumps img seeds) ⟨fs, fs⟩ q ↔
      TailStep img seeds fs q.fn ∧ q.pc = q.fn := by
  constructor
  · rintro ⟨c, moves, _, leaves, entry⟩
    obtain ⟨same, forward⟩ := (moves_iff start).mp moves
    rw [same] at leaves
    exact ⟨⟨start, c.pc, forward, leaves⟩, entry⟩
  · rintro ⟨⟨_, a, forward, leaves⟩, entry⟩
    exact ⟨⟨fs, a⟩, (moves_iff start).mpr ⟨rfl, forward⟩, start, leaves, entry⟩

theorem ring_iff {fs : Addr} {q : Point} (start : fs ∈ starts img seeds) :
    TransGen (Rings.Hop (Moves img seeds) (Jumps img seeds)) ⟨fs, fs⟩ q ↔
      TransGen (TailStep img seeds) fs q.fn ∧ q.pc = q.fn := by
  constructor
  · intro hops
    induction hops with
    | single hop =>
      obtain ⟨step, entry⟩ := (hop_iff start).mp hop
      exact ⟨.single step, entry⟩
    | tail before hop ih =>
      obtain ⟨last, _, earlier⟩ := TransGen.tail'_iff.mp before
      obtain ⟨at_, known⟩ := hop_lands earlier
      rw [at_] at hop
      obtain ⟨step, entry⟩ := (hop_iff known).mp hop
      exact ⟨ih.1.tail step, entry⟩
  · obtain ⟨gs, b⟩ := q
    rintro ⟨steps, entry⟩
    change TransGen _ fs gs at steps
    change b = gs at entry
    subst entry
    induction steps with
    | single step => exact .single ((hop_iff start).mpr ⟨step, rfl⟩)
    | tail _ step ih => exact ih.tail ((hop_iff step.1).mpr ⟨step, rfl⟩)

end Moves

/-- Every loop ticks exactly if no ring of routines leave for one another moving forward. -/
theorem every_loop_ticks_iff (img : Image) (seeds : List Addr) :
    EveryLoopTicks (emitFunctions img (analyzeDiscover img seeds)) ↔
      ∀ fs, ¬ TransGen (TailStep img seeds) fs fs := by
  have same : HandsOn (emitFunctions img (analyzeDiscover img seeds)) =
      Rings.Either (Moves img seeds) (Jumps img seeds) :=
    funext₂ fun _ _ => propext handsOn_iff
  rw [EveryLoopTicks, ← not_exists, ← not_exists, same, Rings.cycle_iff_ring moves_acyclic]
  refine not_congr ⟨?_, ?_⟩
  · rintro ⟨p, ring⟩
    obtain ⟨_, _, hop⟩ := TransGen.tail'_iff.mp ring
    obtain ⟨at_, start⟩ := hop_lands hop
    rw [at_] at ring
    exact ⟨p.fn, ((ring_iff start).mp ring).1⟩
  · rintro ⟨fs, ring⟩
    obtain ⟨_, step, _⟩ := TransGen.head'_iff.mp ring
    exact ⟨⟨fs, fs⟩, (ring_iff step.1).mpr ⟨ring, rfl⟩⟩

/-- `$0200: JMP $0206`, `$0206: JMP $0200`: the first jump makes `$0206` a routine, the second
returns to `$0200` by a call. -/
def ringImage : Image := ⟨0x200, [0x4C, 0x06, 0x02, 0x00, 0x00, 0x00, 0x4C, 0x00, 0x02]⟩

/-- The emitted function at `a` is a tail transfer to the one at `b`. -/
def tailFunction (a b : Addr) : CFunction := ⟨a, [⟨a, false, .jump (.tail b)⟩]⟩

theorem handsOn_tailFunction {F : CFile} {a b c : Addr}
    (from_ : tailFunction a b ∈ F.functions) (callee : tailFunction b c ∈ F.functions) :
    HandsOn F ⟨a, a⟩ ⟨b, b⟩ :=
  HandsOn.tail (f := tailFunction a b) (g := tailFunction b c) from_ List.mem_cons_self rfl callee
    rfl

theorem tailRing_never_ticks :
    ¬ EveryLoopTicks (emitFunctions ringImage (analyzeDiscover ringImage [0x200])) := by
  have emitted : (emitFunctions ringImage (analyzeDiscover ringImage [0x200])).functions =
      [tailFunction 0x200 0x206, tailFunction 0x206 0x200] := by decide +kernel
  have out := handsOn_tailFunction (F := emittedFile ringImage [0x200])
    (emitted ▸ List.mem_cons_self) (emitted ▸ List.mem_cons_of_mem _ List.mem_cons_self)
  have back := handsOn_tailFunction (F := emittedFile ringImage [0x200])
    (emitted ▸ List.mem_cons_of_mem _ List.mem_cons_self) (emitted ▸ List.mem_cons_self)
  exact fun ticks => ticks _ (.tail (.single out) back)

end LynxRecomp
