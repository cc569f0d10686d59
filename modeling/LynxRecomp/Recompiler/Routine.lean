import LynxRecomp.Recompiler.Discovery
import LynxRecomp.Recompiler.Emit

/-!
# The body of a routine

A sweep decodes one instruction after the other. As long as the addresses do not wrap
around the top of memory the extent of the routine follows them, so the instructions
up to that point are the body: exactly those that the emitter meets again between the
start and the end of the routine.
-/

namespace LynxRecomp

/-- The instruction does not reach past the top of memory. -/
def Visit.ascends (v : Visit) : Bool := decide (v.insn.pc < v.insn.next)

/-- The sweep of the routine at `fs` does not go past the top of memory up to and with this
instruction. -/
def Visit.BelowTop (fs : Addr) (v : Visit) : Prop := fs ≤ v.insn.pc ∧ v.insn.pc < v.insn.next

instance (fs : Addr) (v : Visit) : Decidable (v.BelowTop fs) := inferInstanceAs (Decidable (_ ∧ _))

def bodyVisits (img : Image) (fs : Addr) : List Visit := (sweep img fs).takeWhile Visit.ascends

/-- The instructions between the start and the end of the routine at `fs`. -/
def body (img : Image) (fs : Addr) : List Insn := (bodyVisits img fs).map Visit.insn

/-- The instruction boundaries inside the routine at `fs`. -/
def boundaries (img : Image) (fs : Addr) : List Addr := (body img fs).map Insn.pc

theorem addr_lt_of_lt_of_le {a b c : Addr} (lt : a < b) (le : b ≤ c) : a < c := by bv_omega

/-- Visits that decode the image one after the other from `a` up to `e`. -/
inductive Chain (img : Image) : Addr → List Visit → Addr → Prop where
  | nil (a : Addr) : Chain img a [] a
  | cons {a e : Addr} {vs : List Visit} (inside : inImage img a = true)
      (whole : ¬ img.avail a < (img.decode a).len) (ascends : a < (img.decode a).next)
      (rest : Chain img (img.decode a).next vs e) :
      Chain img a (⟨img.decode a, (img.decode a).next⟩ :: vs) e

namespace Chain

variable {img : Image} {a e : Addr} {vs : List Visit}

theorem le (chain : Chain img a vs e) : a ≤ e := by
  induction chain with
  | nil a => exact BitVec.le_refl a
  | cons _ _ ascends _ ih => exact BitVec.le_trans (BitVec.le_of_lt ascends) ih

theorem pc_ge (chain : Chain img a vs e) : ∀ v ∈ vs, a ≤ v.insn.pc := by
  induction chain with
  | nil a => exact fun v h => absurd h List.not_mem_nil
  | cons _ _ ascends _ ih =>
    intro v hv
    obtain rfl | later := List.mem_cons.mp hv
    · exact BitVec.le_refl _
    · exact BitVec.le_trans (BitVec.le_of_lt ascends) (ih v later)

/-- What is known of each visit of a chain. -/
theorem visit (chain : Chain img a vs e) : ∀ v ∈ vs,
    v.insn = img.decode v.insn.pc ∧ inImage img v.insn.pc = true ∧
      v.insn.len ≤ img.avail v.insn.pc ∧ v.insn.pc < v.insn.next ∧ v.insn.next ≤ e ∧
      v.extent = v.insn.next := by
  induction chain with
  | nil a => exact fun v h => absurd h List.not_mem_nil
  | cons inside whole ascends rest ih =>
    intro v hv
    obtain rfl | later := List.mem_cons.mp hv
    · exact ⟨rfl, inside, Nat.le_of_not_lt whole, ascends, rest.le, rfl⟩
    · exact ih v later

theorem pairwise (chain : Chain img a vs e) :
    vs.Pairwise fun v w => v.insn.next ≤ w.insn.pc := by
  induction chain with
  | nil a => exact List.Pairwise.nil
  | cons _ _ _ rest ih => exact List.Pairwise.cons rest.pc_ge ih

theorem length_le (chain : Chain img a vs e) : vs.length ≤ e.toNat - a.toNat := by
  induction chain with
  | nil a => simp
  | cons _ _ ascends rest ih =>
    have := rest.le
    simp only [List.length_cons]
    rw [BitVec.lt_def] at ascends
    rw [BitVec.le_def] at this
    omega

theorem head_pc {v : Visit} (chain : Chain img a (v :: vs) e) : v.insn.pc = a := by
  cases chain
  rfl

theorem after {before after : List Visit} {v : Visit}
    (chain : Chain img a (before ++ v :: after) e) : Chain img v.insn.next after e := by
  induction before generalizing a with
  | nil =>
    cases chain with
    | cons _ _ _ rest => exact rest
  | cons u before ih =>
    cases chain with
    | cons _ _ _ rest => exact ih rest

/-- The visit at the next address is the next one of the chain. -/
theorem adjacent {v w : Visit} (chain : Chain img a vs e) (hv : v ∈ vs) (hw : w ∈ vs)
    (follows : w.insn.pc = v.insn.next) : ∃ before after, vs = before ++ v :: w :: after := by
  obtain ⟨before, after, rfl⟩ := List.append_of_mem hv
  obtain ⟨_, _, _, ascends, _⟩ := chain.visit v hv
  have order := List.pairwise_append.mp chain.pairwise
  have later : w ∈ after := by
    obtain earlier | rfl | later := by simpa using hw
    · have below := order.2.2 w earlier v List.mem_cons_self
      obtain ⟨_, _, _, up, _⟩ := chain.visit w hw
      bv_omega
    · exact absurd (follows ▸ ascends) (BitVec.lt_irrefl _)
    · exact later
  cases after with
  | nil => exact absurd later List.not_mem_nil
  | cons u after =>
    refine ⟨before, after, ?_⟩
    obtain rfl | beyond := List.mem_cons.mp later
    · rfl
    · have rest := chain.after
      have first := rest.head_pc
      have below := List.rel_of_pairwise_cons rest.pairwise beyond
      obtain ⟨_, _, _, up, _⟩ := chain.visit u (by simp)
      bv_omega

end Chain

section Sweep

variable {img : Image} {fs : Addr}

theorem extentOf_cons (v : Visit) (vs : List Visit) (e : Addr) :
    extentOf (v :: vs) e = extentOf vs v.extent := by
  rw [extentOf, extentOf, List.getLast?_cons]
  cases vs.getLast? <;> rfl

/-- A turn of the sweep meets nothing, or an instruction of the image and what the turns after it
meet, if any come. -/
theorem sweepFrom_succ (n : Nat) (addr maxt end_ : Addr) :
    sweepFrom img fs (n + 1) addr maxt end_ = [] ∨
      (inImage img addr = true ∧ (addr - fs).toNat < 0x1000) ∧
        ∃ rest, sweepFrom img fs (n + 1) addr maxt end_ =
            ⟨img.decode addr, raiseEnd end_ (img.decode addr).next⟩ :: rest ∧
          (rest = [] ∨ ∃ maxt', rest = sweepFrom img fs n (img.decode addr).next maxt'
            (raiseEnd end_ (img.decode addr).next)) := by
  rw [sweepFrom]
  split
  · rename_i guard
    simp only
    split
    · exact .inl rfl
    · refine .inr ⟨guard, ?_⟩
      split
      · exact ⟨[], rfl, .inl rfl⟩
      · exact ⟨_, rfl, .inr ⟨_, rfl⟩⟩
  · exact .inl rfl

theorem sweepFrom_decoded {n : Nat} {addr maxt end_ : Addr} :
    ∀ v ∈ sweepFrom img fs n addr maxt end_,
      v.insn = img.decode v.insn.pc ∧ inImage img v.insn.pc = true := by
  induction n generalizing addr maxt end_ with
  | zero => exact fun v h => absurd h List.not_mem_nil
  | succ n ih =>
    intro v member
    obtain none | ⟨guard, rest, turn, tail⟩ := @sweepFrom_succ img fs n addr maxt end_
    · exact absurd (none ▸ member) List.not_mem_nil
    · rw [turn] at member
      obtain rfl | later := List.mem_cons.mp member
      · exact ⟨rfl, guard.1⟩
      · obtain rfl | ⟨maxt', rfl⟩ := tail
        · exact absurd later List.not_mem_nil
        · exact ih v later

theorem decode_next_low {addr : Addr} (wrapped : addr < fs) (near : (addr - fs).toNat < 0x1000) :
    (img.decode addr).next < fs := by
  have len := img.decode_len addr
  have next := img.decode_next addr
  bv_omega

/-- Once the sweep has wrapped around, it meets instructions below the start only. -/
theorem sweepFrom_low (n : Nat) {addr maxt end_ : Addr} (wrapped : addr < fs) :
    ∀ v ∈ sweepFrom img fs n addr maxt end_, v.insn.pc < fs := by
  induction n generalizing addr maxt end_ with
  | zero => exact fun v h => absurd h List.not_mem_nil
  | succ n ih =>
    intro v member
    obtain none | ⟨guard, rest, turn, tail⟩ := @sweepFrom_succ img fs n addr maxt end_
    · exact absurd (none ▸ member) List.not_mem_nil
    · rw [turn] at member
      obtain rfl | later := List.mem_cons.mp member
      · exact wrapped
      · obtain rfl | ⟨maxt', rfl⟩ := tail
        · exact absurd later List.not_mem_nil
        · exact ih (decode_next_low wrapped guard.2) v later

/-- Once the sweep has wrapped around, the extent stays what it is. -/
theorem sweepFrom_wrapped (n : Nat) {addr maxt end_ : Addr} (wrapped : addr < fs) (le : fs ≤ end_) :
    extentOf (sweepFrom img fs n addr maxt end_) end_ = end_ := by
  induction n generalizing addr maxt with
  | zero => rfl
  | succ n ih =>
    obtain none | ⟨guard, rest, turn, tail⟩ := @sweepFrom_succ img fs n addr maxt end_
    · rw [none]
      rfl
    · have low := @decode_next_low img fs addr wrapped guard.2
      have kept : raiseEnd end_ (img.decode addr).next = end_ :=
        if_neg (BitVec.not_lt.mpr (BitVec.le_of_lt (addr_lt_of_lt_of_le low le)))
      rw [kept] at turn tail
      rw [turn, extentOf_cons]
      obtain rfl | ⟨maxt', rfl⟩ := tail
      · rfl
      · exact ih low

theorem decode_next_wrapped {addr : Addr} (wrapped : ¬ addr < (img.decode addr).next) :
    (img.decode addr).next ≤ 2 ∧ 0xFFFD ≤ addr := by
  have len := img.decode_len addr
  have next := img.decode_next addr
  bv_omega

/-- Up to the end of the routine, the sweep is a chain. -/
theorem sweepFrom_chain (n : Nat) {addr maxt : Addr} (le : fs ≤ addr) :
    Chain img addr ((sweepFrom img fs n addr maxt addr).takeWhile Visit.ascends)
      (extentOf (sweepFrom img fs n addr maxt addr) addr) := by
  induction n generalizing addr maxt with
  | zero => exact .nil addr
  | succ n ih =>
    rw [sweepFrom]
    split
    · rename_i guard
      simp only
      split
      · exact .nil addr
      · rename_i whole
        by_cases ascends : addr < (img.decode addr).next
        · have up (e : Addr) : Visit.ascends ⟨img.decode addr, e⟩ = true := decide_eq_true ascends
          have raised : raiseEnd addr (img.decode addr).next = (img.decode addr).next :=
            if_pos ascends
          simp only [raised]
          split
          · rw [List.takeWhile_cons_of_pos (up _), extentOf_cons]
            exact .cons guard.1 whole ascends (.nil _)
          · rw [List.takeWhile_cons_of_pos (up _), extentOf_cons]
            exact .cons guard.1 whole ascends
              (ih (BitVec.le_trans le (BitVec.le_of_lt ascends)))
        · -- the instruction ends at the top of memory or wraps; the sweep goes on low down
          have down (e : Addr) : ¬ Visit.ascends ⟨img.decode addr, e⟩ = true :=
            fun h => ascends (of_decide_eq_true h)
          have kept : raiseEnd addr (img.decode addr).next = addr := if_neg ascends
          simp only [kept]
          split
          · rw [List.takeWhile_cons_of_neg (down _), extentOf_cons]
            exact .nil addr
          · rw [List.takeWhile_cons_of_neg (down _), extentOf_cons]
            obtain ⟨low, high⟩ := decode_next_wrapped ascends
            have inside := guard.2
            rw [sweepFrom_wrapped n (by clear ih whole kept; bv_omega) le]
            exact .nil addr
    · exact .nil addr

theorem bodyVisits_chain (img : Image) (fs : Addr) :
    Chain img fs (bodyVisits img fs) (routine img fs).end_ :=
  sweepFrom_chain 0x1000 (BitVec.le_refl fs)

/-- What the sweep meets behind its first wrap is not below the top of memory. -/
theorem mem_takeWhile_ascends (n : Nat) {addr maxt end_ : Addr} (le : fs ≤ addr) {v : Visit}
    (visited : v ∈ sweepFrom img fs n addr maxt end_) (below : v.BelowTop fs) :
    v ∈ (sweepFrom img fs n addr maxt end_).takeWhile Visit.ascends := by
  induction n generalizing addr maxt end_ with
  | zero => exact absurd visited List.not_mem_nil
  | succ n ih =>
    obtain none | ⟨guard, rest, turn, tail⟩ := @sweepFrom_succ img fs n addr maxt end_
    · exact absurd (none ▸ visited) List.not_mem_nil
    · rw [turn] at visited ⊢
      obtain rfl | later := List.mem_cons.mp visited
      · have up : Visit.ascends ⟨img.decode addr, raiseEnd end_ (img.decode addr).next⟩ = true :=
          decide_eq_true below.2
        rw [List.takeWhile_cons_of_pos up]
        exact List.mem_cons_self
      · obtain rfl | ⟨maxt', rfl⟩ := tail
        · exact absurd later List.not_mem_nil
        · by_cases ascends : addr < (img.decode addr).next
          · have up : Visit.ascends ⟨img.decode addr, raiseEnd end_ (img.decode addr).next⟩ =
                true := decide_eq_true ascends
            rw [List.takeWhile_cons_of_pos up]
            exact List.mem_cons_of_mem _ (ih (BitVec.le_trans le (BitVec.le_of_lt ascends)) later)
          · -- the sweep goes on low down, below the start of the routine
            obtain ⟨low, high⟩ := decode_next_wrapped ascends
            have inside := guard.2
            have under := sweepFrom_low n (by clear ih; bv_omega) v later
            exact absurd below.1 (BitVec.not_le.mpr under)

/-- The body of a routine holds what its sweep meets below the top of memory. -/
theorem mem_body_of_belowTop {v : Visit} (visited : v ∈ sweep img fs) (below : v.BelowTop fs) :
    v.insn ∈ body img fs :=
  List.mem_map_of_mem (mem_takeWhile_ascends 0x1000 (BitVec.le_refl fs) visited below)

theorem belowTop_of_mem_boundaries {v : Visit} (visited : v ∈ sweep img fs)
    (boundary : v.insn.pc ∈ boundaries img fs) : v.BelowTop fs := by
  obtain ⟨i, member, at_⟩ := List.mem_map.mp boundary
  obtain ⟨w, met, rfl⟩ := List.mem_map.mp member
  obtain ⟨decoded, _, _, ascends, _⟩ := (bodyVisits_chain img fs).visit w met
  have same : v.insn = w.insn := by
    rw [decoded, at_]
    exact (sweepFrom_decoded v visited).1
  rw [Visit.BelowTop, same]
  exact ⟨(bodyVisits_chain img fs).pc_ge w met, ascends⟩

end Sweep

section Emission

variable {img : Image}

/-- The line emitted for an instruction of the routine at `fs`. -/
def emittedLine (img : Image) (t : FuncTable) (fs : Addr) (i : Insn) : CLine where
  pc := i.pc
  labelled := isBranchTarget (routine img fs) i.pc
  stmt := emitInsn (fun a => decide (a ∈ boundaries img fs)) (isFunc t) i

/-- The function emitted for the routine at `fs`. -/
def emittedRoutine (img : Image) (t : FuncTable) (fs : Addr) : CFunction where
  start := fs
  lines := (body img fs).map (emittedLine img t fs)

/-- The second decode pass marks the boundaries that the sweep met. -/
theorem markBoundary_chain {f : Func} {a e : Addr} {vs : List Visit} (chain : Chain img a vs e)
    (until_ : f.end_ = e) (le : f.start ≤ a) (n : Nat) (enough : vs.length < n) (g : Boundary)
    (b : Addr) :
    markBoundary img f n a g b = (decide (b ∈ vs.map fun v => v.insn.pc) || g b) := by
  induction chain generalizing n g with
  | nil a =>
    obtain ⟨n, rfl⟩ := Nat.exists_eq_add_of_lt enough
    rw [markBoundary, if_neg (by rw [until_]; exact BitVec.lt_irrefl a)]
    simp
  | @cons a e vs _ _ ascends rest ih =>
    match n, enough with
    | n + 1, enough =>
      have below := rest.le
      have next := img.decode_next a
      have len := img.decode_len a
      rw [markBoundary, if_pos (by rw [until_]; exact addr_lt_of_lt_of_le ascends below)]
      rw [if_neg (by rw [until_]; clear ih; bv_omega),
        ih until_ (BitVec.le_trans le (BitVec.le_of_lt ascends)) n (Nat.lt_of_succ_lt_succ enough)]
      by_cases same : b = a
      · simp [same]
      · simp [same]

theorem emitLines_chain {f : Func} {a e : Addr} {vs : List Visit} (chain : Chain img a vs e)
    (until_ : f.end_ = e) (n : Nat) (enough : vs.length < n) (g : Boundary) (t : FuncTable) :
    emitLines img g t f n a = vs.map fun v =>
      { pc := v.insn.pc, labelled := isBranchTarget f v.insn.pc,
        stmt := emitInsn (inFuncRange g f) (isFunc t) v.insn } := by
  induction chain generalizing n with
  | nil a =>
    obtain ⟨n, rfl⟩ := Nat.exists_eq_add_of_lt enough
    rw [emitLines, if_neg (by rw [until_]; exact BitVec.lt_irrefl a)]
    rfl
  | @cons a e vs _ whole ascends rest ih =>
    match n, enough with
    | n + 1, enough =>
      rw [emitLines, if_pos (by rw [until_]; exact addr_lt_of_lt_of_le ascends rest.le)]
      simp only
      rw [if_neg whole, ih until_ n (Nat.lt_of_succ_lt_succ enough)]
      rfl

theorem bodyVisits_length (img : Image) (fs : Addr) : (bodyVisits img fs).length < 0x10000 := by
  have bound := (bodyVisits_chain img fs).length_le
  have top := (routine img fs).end_.isLt
  omega

/-- Inside the routine, the bitmap holds the boundaries of the body, whatever was left of
the routines before it. -/
theorem inFuncRange_routine (fs : Addr) (g : Boundary) :
    inFuncRange (markBoundary img (routine img fs) 0x10000 fs (clearBoundary (routine img fs) g))
      (routine img fs) = fun a => decide (a ∈ boundaries img fs) := by
  have chain := bodyVisits_chain img fs
  funext a
  have pcs : boundaries img fs = (bodyVisits img fs).map fun v => v.insn.pc := by
    rw [boundaries, body, List.map_map]
    rfl
  rw [inFuncRange, markBoundary_chain chain rfl (BitVec.le_refl fs) _ (bodyVisits_length img fs),
    pcs, clearBoundary, Bool.eq_iff_iff]
  simp only [Bool.and_eq_true, Bool.or_eq_true, decide_eq_true_eq]
  constructor
  · rintro ⟨⟨low, high⟩, marked | left⟩
    · exact marked
    · rw [if_pos ⟨low, high⟩] at left
      exact absurd left Bool.false_ne_true
  · intro marked
    obtain ⟨v, member, rfl⟩ := List.mem_map.mp marked
    obtain ⟨_, _, _, ascends, below, _⟩ := chain.visit v member
    exact ⟨⟨chain.pc_ge v member, addr_lt_of_lt_of_le ascends below⟩, .inl marked⟩

theorem emitBodies_eq (t : FuncTable) (ss : List Addr) (g : Boundary) :
    emitBodies img t (ss.map (routine img)) g = ss.map (emittedRoutine img t) := by
  induction ss generalizing g with
  | nil => rfl
  | cons fs ss ih =>
    rw [List.map_cons, emitBodies, List.map_cons, ih]
    refine congrArg (· :: _) (congrArg (CFunction.mk fs) ?_)
    have begins : (routine img fs).start = fs := rfl
    rw [begins, emitLines_chain (bodyVisits_chain img fs) rfl _ (bodyVisits_length img fs),
      inFuncRange_routine, body, List.map_map]
    rfl

end Emission

section File

variable (img : Image) (seeds : List Addr)

/-- The file that the emitter writes for what discovery found. -/
theorem emitFunctions_eq :
    emitFunctions img (analyzeDiscover img seeds) =
      { functions := (starts img seeds).map (emittedRoutine img (analyzeDiscover img seeds))
        registers := starts img seeds } := by
  rw [emitFunctions, analyzeDiscover_starts, analyzeDiscover_funcs, emitBodies_eq]

theorem emitFunctions_starts :
    (emitFunctions img (analyzeDiscover img seeds)).functions.map CFunction.start =
      starts img seeds := by
  rw [emitFunctions_eq, List.map_map]
  exact List.map_id _

theorem isFunc_iff {a : Addr} :
    isFunc (analyzeDiscover img seeds) a = true ↔ a ∈ starts img seeds := by
  rw [isFunc, funcTableFind, analyzeDiscover_funcs, List.find?_isSome]
  simp only [List.mem_map, beq_iff_eq]
  constructor
  · rintro ⟨_, ⟨fs, member, rfl⟩, rfl⟩
    exact member
  · exact fun member => ⟨routine img a, ⟨a, member, rfl⟩, rfl⟩

theorem mem_labels {fs a : Addr} :
    a ∈ (routine img fs).labels ↔ a ∈ Capped.keep maxLabels (recordedTargets img fs) :=
  (List.perm_insertionSort _ _).mem_iff

theorem starts_nodup : (starts img seeds).Nodup := (Worklist.run_sound _ _).1

theorem starts_length : (starts img seeds).length ≤ maxFuncs := (Worklist.run_sound _ _).2.1

end File

end LynxRecomp
