import Mathlib.Data.List.GetD
import Mathlib.Data.List.TakeWhile
import LynxRecomp.Recompiler.Bounds
import LynxRecomp.Recompiler.Ticks

/-!
# Routines are not cut in the middle

The loop of `discover_one` stops at a terminator that no branch jumps over, at the edge of the
image, or at its size limit. In the first case the routine ends with that terminator, and
control never runs off the end of its body. Nothing is said of a routine whose instructions go
past the top of memory.
-/

namespace LynxRecomp

/-- Why the loop of `discover_one` stops: the routine is complete, the next instruction is not in
the image as a whole, or the routine is too long. A loop that goes past the top of memory is not
followed further. -/
inductive StopReason where
  | complete
  | noFit
  | limit
  | wrapped
  deriving DecidableEq, Repr

/-- Why the loop of `discover_one` stops, from `addr` on. -/
def stopFrom (img : Image) (fs : Addr) : Nat → Addr → Addr → Addr → StopReason
  | 0, addr, _, _ => if inImage img addr then .limit else .noFit
  | n + 1, addr, maxt, end_ =>
    if inImage img addr = true ∧ (addr - fs).toNat < 0x1000 then
      let i := img.decode addr
      if img.avail addr < i.len then .noFit
      else if ¬ addr < i.next then .wrapped
      else
        let end_ := raiseEnd end_ i.next
        let maxt := raiseMaxt img i end_ maxt
        if i.terminator ∧ maxt < i.next then .complete
        else stopFrom img fs n i.next maxt end_
    else if inImage img addr then .limit else .noFit

def stopReason (img : Image) (fs : Addr) : StopReason := stopFrom img fs 0x1000 fs fs fs

/-- The whole instructions from `a` to `end_` -/
def wholeInsns (img : Image) (end_ : Addr) : Nat → Addr → List Insn
  | 0, _ => []
  | n + 1, a =>
    if a < end_ ∧ (img.decode a).len ≤ (end_ - a).toNat then
      img.decode a :: wholeInsns img end_ n (img.decode a).next
    else []

/-- The whole instructions of a routine -/
def Func.insns (img : Image) (f : Func) : List Insn := wholeInsns img f.end_ 0x10000 f.start

/-- The routine is not cut: it ends with a terminator, no branch leaves it forwards, and its
emitted body does not run off its end. -/
structure Func.Whole (img : Image) (f : Func) : Prop where
  last : ∃ i, (f.insns img).getLast? = some i ∧ i.terminator = true
  branches : ∀ i ∈ f.insns img, i.cflow = .branch → inImage img i.target = true →
    f.start ≤ i.target → i.target < f.end_
  brace : ∀ (g : Boundary) (t : FuncTable), ∃ line,
    (emitLines img g t f 0x10000 f.start).getLast? = some line ∧ line.stmt.fallsThrough = false

section Sweep

variable {img : Image} {fs : Addr}

theorem addr_lt_of_le_of_lt {a b c : Addr} (le : a ≤ b) (lt : b < c) : a < c := by bv_omega

theorem raiseMaxt_ge (i : Insn) (end_ maxt : Addr) : maxt ≤ raiseMaxt img i end_ maxt := by
  unfold raiseMaxt
  split
  · split
    · rename_i raised
      exact BitVec.le_of_lt raised.2
    · exact BitVec.le_refl _
  · split
    · rename_i raised
      exact BitVec.le_of_lt raised.2.2.2
    · exact BitVec.le_refl _
  · exact BitVec.le_refl _

theorem target_le_raiseMaxt {i : Insn} (end_ maxt : Addr) (branch : i.cflow = .branch)
    (inside : inImage img i.target = true) : i.target ≤ raiseMaxt img i end_ maxt := by
  simp only [raiseMaxt, branch, inside, true_and]
  split
  · exact BitVec.le_refl _
  · rename_i covered
    exact BitVec.not_lt.mp covered

/-- The visits end with a terminator that no branch of theirs jumps over, nor one to `maxt`. -/
structure EndsWhole (img : Image) (maxt : Addr) (vs : List Visit) (last : Visit) : Prop where
  getLast : vs.getLast? = some last
  terminator : last.insn.terminator = true
  beyond : maxt < last.insn.next
  branches : ∀ v ∈ vs, v.insn.cflow = .branch → inImage img v.insn.target = true →
    v.insn.target < last.insn.next

theorem EndsWhole.cons {maxt maxt' : Addr} {vs : List Visit} {last v : Visit}
    (ends : EndsWhole img maxt' vs last) (raised : maxt ≤ maxt')
    (covered : v.insn.cflow = .branch → inImage img v.insn.target = true →
      v.insn.target ≤ maxt') : EndsWhole img maxt (v :: vs) last where
  getLast := by
    rw [List.getLast?_cons, ends.getLast]
    rfl
  terminator := ends.terminator
  beyond := addr_lt_of_le_of_lt raised ends.beyond
  branches := by
    intro w member branch inside
    rcases List.mem_cons.mp member with rfl | later
    · exact addr_lt_of_le_of_lt (covered branch inside) ends.beyond
    · exact ends.branches w later branch inside

theorem EndsWhole.single {maxt : Addr} {v : Visit} (terminator : v.insn.terminator = true)
    (beyond : maxt < v.insn.next) : EndsWhole img maxt [v] v where
  getLast := rfl
  terminator := terminator
  beyond := beyond
  branches := by
    intro w member branch _
    rw [List.mem_singleton.mp member] at branch
    rw [Insn.terminator, branch] at terminator
    exact absurd terminator Bool.false_ne_true

/-- A complete sweep does not wrap around, and ends with a terminator. -/
theorem stopFrom_complete (n : Nat) {addr maxt : Addr}
    (complete : stopFrom img fs n addr maxt addr = .complete) :
    (∀ v ∈ sweepFrom img fs n addr maxt addr, v.ascends = true) ∧
      ∃ last, EndsWhole img maxt (sweepFrom img fs n addr maxt addr) last := by
  induction n generalizing addr maxt with
  | zero =>
    unfold stopFrom at complete
    split at complete <;> cases complete
  | succ n ih =>
    rw [stopFrom] at complete
    rw [sweepFrom]
    split at complete
    · rename_i guard
      rw [if_pos guard]
      simp only at complete ⊢
      split at complete
      · cases complete
      · rename_i whole
        rw [if_neg whole]
        split at complete
        · cases complete
        · rename_i level
          have ascends := Decidable.not_not.mp level
          have raised := @raiseMaxt_ge img (img.decode addr)
            (raiseEnd addr (img.decode addr).next) maxt
          have up (e : Addr) : Visit.ascends ⟨img.decode addr, e⟩ = true := decide_eq_true ascends
          split at complete
          · rename_i ends
            rw [if_pos ends]
            have beyond : maxt < (img.decode addr).next := addr_lt_of_le_of_lt raised ends.2
            refine ⟨fun v member => ?_, _, .single ends.1 beyond⟩
            rw [List.mem_singleton.mp member]
            exact up _
          · rename_i goesOn
            rw [if_neg goesOn]
            have extent : raiseEnd addr (img.decode addr).next = (img.decode addr).next :=
              if_pos ascends
            rw [extent] at complete raised ⊢
            rcases ih complete with ⟨rest, last, ends⟩
            refine ⟨fun v member => ?_, last, ends.cons raised ?_⟩
            · rcases List.mem_cons.mp member with rfl | later
              · exact up _
              · exact rest v later
            · exact fun branch inside => target_le_raiseMaxt _ _ branch inside
    · split at complete <;> cases complete

end Sweep

section Whole

variable {img : Image}

theorem wholeInsns_chain {a e : Addr} {vs : List Visit} (chain : Chain img a vs e) (n : Nat)
    (enough : vs.length < n) : wholeInsns img e n a = vs.map Visit.insn := by
  induction chain generalizing n with
  | nil a =>
    rcases n with _ | n
    · exact absurd enough (Nat.not_lt_zero _)
    · exact if_neg fun inside => BitVec.lt_irrefl a inside.1
  | @cons a e vs _ _ ascends rest ih =>
    rcases n with _ | n
    · exact absurd enough (Nat.not_lt_zero _)
    · have below := rest.le
      have next := img.decode_next a
      have len := img.decode_len a
      have fits : a < e ∧ (img.decode a).len ≤ (e - a).toNat := by
        clear ih
        constructor <;> bv_omega
      rw [wholeInsns, if_pos fits, ih n (Nat.lt_of_succ_lt_succ enough)]
      rfl

theorem sweptRoutine_insns (img : Image) (fs : Addr) :
    (sweptRoutine img fs).insns img = body img fs :=
  wholeInsns_chain (bodyVisits_chain img fs) 0x10000 (bodyVisits_length img fs)

theorem terminator_continues {i : Insn} : i.terminator = !i.continues := by
  unfold Insn.terminator Insn.continues
  cases i.cflow <;> rfl

/-- The last line of an emitted body is that of the last instruction. -/
theorem emitLines_last (fs : Addr) (g : Boundary) (t : FuncTable) {i : Insn}
    (last : (body img fs).getLast? = some i) : ∃ line,
      (emitLines img g t (sweptRoutine img fs) 0x10000 fs).getLast? = some line ∧
      line.stmt.fallsThrough = i.continues := by
  have lines := emitLines_chain (f := sweptRoutine img fs) (bodyVisits_chain img fs) rfl 0x10000
    (bodyVisits_length img fs) g t
  rw [body, List.getLast?_map] at last
  rcases Option.map_eq_some_iff.mp last with ⟨v, lastVisit, rfl⟩
  have consistent : v.insn.Consistent := by
    have member := List.mem_of_getLast? lastVisit
    rcases (bodyVisits_chain img fs).visit v member with ⟨decoded, _⟩
    rw [decoded]
    exact img.decode_consistent _
  have falls := emitInsn_fallsThrough (inFuncRange g (sweptRoutine img fs)) (isFunc t) consistent
  rw [lines, List.getLast?_map, lastVisit]
  exact ⟨_, rfl, falls⟩

/-- A routine that `discover_one` completes is whole. -/
theorem sweptRoutine_whole {fs : Addr} (complete : stopReason img fs = .complete) :
    (sweptRoutine img fs).Whole img := by
  rcases stopFrom_complete 0x1000 complete with ⟨ascends, last, ends⟩
  have all : bodyVisits img fs = sweep img fs := List.takeWhile_eq_self_iff.mpr ascends
  have end_ : (sweptRoutine img fs).end_ = last.insn.next := by
    have member : last ∈ bodyVisits img fs := by
      rw [all]
      exact List.mem_of_getLast? ends.getLast
    rcases (bodyVisits_chain img fs).visit last member with ⟨_, _, _, _, _, extent⟩
    change ((sweep img fs).getLast?.map Visit.extent).getD fs = _
    rw [sweep, ends.getLast]
    exact extent
  have lastInsn : (body img fs).getLast? = some last.insn := by
    rw [body, List.getLast?_map, all]
    exact congrArg (Option.map Visit.insn) ends.getLast
  refine ⟨⟨last.insn, ?_, ends.terminator⟩, ?_, ?_⟩
  · rw [sweptRoutine_insns]
    exact lastInsn
  · rw [sweptRoutine_insns, body, all, end_]
    intro i member branch inside _
    rcases List.mem_map.mp member with ⟨v, visited, rfl⟩
    exact ends.branches v visited branch inside
  · intro g t
    rcases emitLines_last fs g t lastInsn with ⟨line, lastLine, falls⟩
    refine ⟨line, lastLine, ?_⟩
    rw [falls, ← Bool.not_eq_true', ← terminator_continues]
    exact ends.terminator

/-- A routine that `discover_one` records is whole, unless decoding stopped because the next
instruction does not fit in the image, or at the size limit, or went past the top of memory. -/
theorem discoverOne_whole (img : Image) (fs : Addr) (d : Disc) (t : FuncTable) {f : Func}
    (recorded : (discoverOne img fs d t).2.funcs = t.funcs ++ [f])
    (fits : stopReason img fs ≠ .noFit) (short : stopReason img fs ≠ .limit)
    (level : stopReason img fs ≠ .wrapped) :
    f.start = fs ∧ f.Whole img := by
  have same : f = sweptRoutine img fs := by
    by_cases full : maxFuncs ≤ t.funcs.length
    · rw [discoverOne, if_pos full] at recorded
      exact absurd (congrArg List.length recorded) (by simp)
    · rw [discoverOne_funcs img d fs full] at recorded
      exact (List.singleton_inj.mp (List.append_cancel_left recorded)).symm
  have complete : stopReason img fs = .complete := by
    cases reason : stopReason img fs with
    | complete => rfl
    | noFit => exact absurd reason fits
    | limit => exact absurd reason short
    | wrapped => exact absurd reason level
  rw [same]
  exact ⟨rfl, sweptRoutine_whole complete⟩

/-- Nothing discovered yet -/
def noDisc : Disc := { work := [], seen := fun _ => false }

/-- `NOP`, `BNE` past the first `RTS`, `RTS`, `RTS` -/
def branchImage : Image := ⟨0x0200, [0xEA, 0xD0, 0x01, 0x60, 0x60]⟩

theorem branchImage_whole :
    (discoverOne branchImage 0x0200 noDisc ⟨[], []⟩).2.funcs =
        [] ++ [sweptRoutine branchImage 0x0200] ∧
      stopReason branchImage 0x0200 ≠ .noFit ∧ stopReason branchImage 0x0200 ≠ .limit ∧
      stopReason branchImage 0x0200 ≠ .wrapped ∧
      (sweptRoutine branchImage 0x0200).Whole branchImage := by
  have recorded := discoverOne_funcs branchImage noDisc (t := ⟨[], []⟩) 0x0200 (by decide)
  have fits : stopReason branchImage 0x0200 ≠ .noFit := by decide +kernel
  have short : stopReason branchImage 0x0200 ≠ .limit := by decide +kernel
  have level : stopReason branchImage 0x0200 ≠ .wrapped := by decide +kernel
  exact ⟨recorded, fits, short, level, (discoverOne_whole _ _ _ _ recorded fits short level).2⟩

end Whole

section Limit

/-- More `NOP`s than a routine may hold -/
def nopImage : Image := ⟨0x0200, List.replicate 0x1001 0xEA⟩

theorem nopImage_inImage {a : Addr} :
    inImage nopImage a = true ↔ 0x0200 ≤ a ∧ (a - 0x0200).toNat < 0x1001 := by
  have size : nopImage.rom.length = 0x1001 := List.length_replicate
  rw [inImage, Bool.and_eq_true, decide_eq_true_iff, decide_eq_true_iff, size]
  rfl

theorem nopImage_decode {a : Addr} (inside : inImage nopImage a = true) :
    (nopImage.decode a).len = 1 ∧ (nopImage.decode a).terminator = false := by
  have opcode : nopImage.byte (nopImage.off a) = 0xEA := by
    exact List.getD_replicate _ (nopImage_inImage.mp inside).2
  unfold Image.decode
  rw [opcode]
  exact ⟨rfl, rfl⟩

/-- The sweep goes on for as long as it may. -/
theorem nopImage_limit (n k : Nat) (maxt end_ : Addr) (total : k + n = 0x1000) :
    stopFrom nopImage 0x0200 n (0x0200 + BitVec.ofNat 16 k) maxt end_ = .limit := by
  have inside : inImage nopImage (0x0200 + BitVec.ofNat 16 k) = true :=
    nopImage_inImage.mpr (by constructor <;> bv_omega)
  induction n generalizing k maxt end_ with
  | zero => exact if_pos inside
  | succ n ih =>
    rcases nopImage_decode inside with ⟨len, goesOn⟩
    have size : nopImage.rom.length = 0x1001 := List.length_replicate
    have offset : nopImage.off (0x0200 + BitVec.ofNat 16 k) = k := by
      change ((0x0200 : Addr) + BitVec.ofNat 16 k - 0x0200).toNat = k
      bv_omega
    have whole : ¬ nopImage.avail (0x0200 + BitVec.ofNat 16 k) < 1 := by
      rw [Image.avail, size, offset]
      omega
    have next : (nopImage.decode (0x0200 + BitVec.ofNat 16 k)).next =
        0x0200 + BitVec.ofNat 16 (k + 1) := by
      rw [Image.decode_next, len, BitVec.add_assoc, ← BitVec.ofNat_add]
    rw [stopFrom, if_pos ⟨inside, by clear ih; bv_omega⟩]
    simp only [len, goesOn, next]
    have up : (0x0200 : Addr) + BitVec.ofNat 16 k < 0x0200 + BitVec.ofNat 16 (k + 1) := by
      clear ih
      bv_omega
    rw [if_neg whole, if_neg (not_not_intro up), if_neg (fun ends => Bool.false_ne_true ends.1)]
    have total' : k + 1 + n = 0x1000 := by omega
    exact ih (k + 1) _ _ total' (nopImage_inImage.mpr (by constructor <;> bv_omega))

/-- The routine is cut at the limit, between two `NOP`s. -/
theorem nopImage_notWhole :
    (discoverOne nopImage 0x0200 noDisc ⟨[], []⟩).2.funcs = [] ++ [sweptRoutine nopImage 0x0200] ∧
      stopReason nopImage 0x0200 ≠ .noFit ∧ ¬ (sweptRoutine nopImage 0x0200).Whole nopImage := by
  have limit : stopReason nopImage 0x0200 = .limit := nopImage_limit 0x1000 0 _ _ rfl
  refine ⟨discoverOne_funcs nopImage noDisc 0x0200 (by decide), ?_, ?_⟩
  · rw [limit]
    decide
  · rintro ⟨⟨i, last, terminator⟩, _⟩
    rw [sweptRoutine_insns] at last
    rcases List.mem_map.mp (List.mem_of_getLast? last) with ⟨v, member, rfl⟩
    rcases (bodyVisits_chain nopImage 0x0200).visit v member with ⟨decoded, inside, _⟩
    rw [decoded, (nopImage_decode inside).2] at terminator
    exact Bool.false_ne_true terminator

end Limit

end LynxRecomp
