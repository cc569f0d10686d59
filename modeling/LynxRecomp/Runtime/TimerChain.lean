import LynxRecomp.Lib.Cascade
import LynxRecomp.Runtime.Timer

/-!
# The timers as a cascade

Each timer owns its four registers and its bit of the interrupt latch; a count works on
these alone and may be a count of the linked timer, too. So the loops of
`lynx_timer_step` serve the dividers of a cascade, one after the other.
-/

namespace LynxRecomp

open Cascade

/-- The divider that a control register sets, in microseconds: none if the clock is off or
linked. Timers and channels have the same bits for it. -/
def divider (ctl : Byte) : Option Nat :=
  if ctl &&& 0x08 = 0 then none
  else if ctl &&& 0x07 = 7 then none
  else some (2 ^ (ctl &&& 0x07).toNat)

theorem divider_some {ctl : Byte} {p : Nat} (h : divider ctl = some p) :
    ctl &&& 0x08 ≠ 0 ∧ ctl &&& 0x07 ≠ 7 ∧ 2 ^ (ctl &&& 0x07).toNat = p := by
  unfold divider at h
  split at h
  · cases h
  · rename_i on
    split at h
    · cases h
    · rename_i free
      exact ⟨on, free, Option.some.inj h⟩

theorem divider_pos {ctl : Byte} {p : Nat} (h : divider ctl = some p) : 0 < p := by
  rw [← (divider_some h).2.2]
  exact Nat.two_pow_pos _

/-- What a timer owns: its registers and its bit of the latch. -/
@[ext]
structure TimerCell where
  backup : Byte
  ctlA : Byte
  count : Byte
  ctlB : Byte
  irq : Bool

namespace TimerCell

/-- One count -/
def counted (x : TimerCell) : TimerCell :=
  if x.count = 0 then
    { x with
      count := if x.ctlA &&& tctlaReload ≠ 0 then x.backup else x.count
      ctlB := x.ctlB ||| (tctlbDone ||| tctlbBorrowout)
      irq := x.irq || x.ctlA &&& tctlaInt != 0 }
  else { x with count := x.count - 1 }

/-- The divider of a timer that counts and is not linked, in microseconds. -/
def period (x : TimerCell) : Option Nat :=
  if x.ctlA &&& tctlaCount = 0 then none
  else if x.ctlA &&& tctlaClock = 7 then none
  else some (2 ^ (x.ctlA &&& tctlaClock).toNat)

/-- The timer counts the underflows of its predecessor. -/
def linked (x : TimerCell) : Bool := x.ctlA &&& tctlaCount != 0 && x.ctlA &&& tctlaClock == 7

@[simp] theorem counted_ctlA (x : TimerCell) : x.counted.ctlA = x.ctlA := by
  unfold counted
  split <;> rfl

@[simp] theorem counted_backup (x : TimerCell) : x.counted.backup = x.backup := by
  unfold counted
  split <;> rfl

theorem counted_period (x : TimerCell) : x.counted.period = x.period := by
  rw [period, counted_ctlA]
  rfl

theorem counted_linked (x : TimerCell) : x.counted.linked = x.linked := by
  rw [linked, counted_ctlA]
  rfl

end TimerCell

/-- The link chain, as far as its members are linked. -/
def timerChain (linked : Fin 8 → Bool) : Cascade (Fin 8) TimerCell where
  step := TimerCell.counted
  carry x := x.count == 0
  next i := (linkSucc i).filter linked

/-- The place of a timer in the chain -/
def chainRank : Fin 8 → Nat
  | 0 => 0
  | 2 => 1
  | 4 => 2
  | 1 => 3
  | 3 => 4
  | 5 => 5
  | 6 => 6
  | 7 => 6

theorem linkSucc_rank : ∀ i j : Fin 8, linkSucc i = some j → chainRank i < chainRank j := by decide

theorem chainRank_lt : ∀ i : Fin 8, chainRank i < 8 := by decide

theorem timerChain_acyclic (linked : Fin 8 → Bool) (i j : Fin 8)
    (drives : (timerChain linked).next i = some j) : chainRank i < chainRank j :=
  linkSucc_rank i j (Option.filter_eq_some_iff.mp drives).1

theorem treg_inj {i j : Fin 8} {f g : Nat} (hf : f < 4) (hg : g < 4) :
    treg i f = treg j g ↔ i = j ∧ f = g := by
  have hi := i.isLt
  have hj := j.isLt
  unfold treg
  constructor
  · intro same
    have values := congrArg BitVec.toNat same
    simp only [BitVec.toNat_ofNat] at values
    constructor <;> omega
  · rintro ⟨rfl, rfl⟩
    rfl

theorem treg_lt {i : Fin 8} {f : Nat} (hf : f < 4) : treg i f < 0x20 := by
  have hi := i.isLt
  unfold treg
  bv_omega

/-- The registers of the timers are the first 32. -/
theorem exists_treg {a : Byte} (below : a < 0x20) : ∃ (i : Fin 8) (f : Fin 4), a = treg i f := by
  have small : a.toNat < 32 := below
  refine ⟨⟨a.toNat / 4, by omega⟩, ⟨a.toNat % 4, by omega⟩, ?_⟩
  unfold treg
  simp only
  bv_omega

def timerCell (s : TimerRegs) (i : Fin 8) : TimerCell where
  backup := s.1 (treg i 0)
  ctlA := s.1 (treg i 1)
  count := s.1 (treg i 2)
  ctlB := s.1 (treg i 3)
  irq := s.2.irqLatch.getLsbD i

theorem timerCell_linked (s : TimerRegs) (i : Fin 8) :
    (timerCell s i).linked = countsLinked s.1 i := rfl

section Tick

theorem update_treg_above (r : Byte → Byte) (i : Fin 8) {f : Nat} (hf : f < 4) (v : Byte) {a : Byte}
    (above : 0x20 ≤ a) : Function.update r (treg i f) v a = r a := by
  apply Function.update_of_ne
  rintro rfl
  have below : treg i f < 0x20 := treg_lt hf
  bv_omega

theorem update_treg (r : Byte → Byte) (i j : Fin 8) {f g : Nat} (hf : f < 4) (hg : g < 4)
    (v : Byte) :
    Function.update r (treg i f) v (treg j g) = if j = i ∧ g = f then v else r (treg j g) := by
  rw [Function.update_apply]
  simp only [treg_inj hg hf]

theorem irqBit : ∀ i j : Fin 8, ((1 <<< i.val : Nat) : Byte).getLsbD j = decide (j = i) := by decide

theorem underflow_reg (i j : Fin 8) (s : TimerRegs) {g : Nat} (hg : g < 4) :
    (underflow i s).1 (treg j g) =
      if j = i ∧ g = 3 then s.1 (treg i 3) ||| (tctlbDone ||| tctlbBorrowout)
      else if j = i ∧ g = 2 ∧ s.1 (treg i 1) &&& tctlaReload ≠ 0 then s.1 (treg i 0)
      else s.1 (treg j g) := by
  have three : 3 < 4 := by decide
  unfold underflow
  simp only
  by_cases reload : s.1 (treg i 1) &&& tctlaReload ≠ 0
  · rw [if_pos reload, update_treg _ _ _ three hg, update_treg _ _ _ (by decide) hg,
      update_treg _ _ _ (by decide) three]
    grind
  · rw [if_neg reload, update_treg _ _ _ three hg]
    grind

theorem underflow_irqBit (i j : Fin 8) (s : TimerRegs) :
    (underflow i s).2.irqLatch.getLsbD j =
      (s.2.irqLatch.getLsbD j || decide (j = i) && (s.1 (treg i 1) &&& tctlaInt != 0)) := by
  unfold underflow
  simp only
  by_cases int : s.1 (treg i 1) &&& tctlaInt = 0
  · rw [if_neg (not_not.mpr int), int]
    simp
  · rw [if_pos int, BitVec.getLsbD_or, irqBit, bne_iff_ne.mpr int, Bool.and_true]

theorem timerCell_underflow {i : Fin 8} {s : TimerRegs} (zero : s.1 (treg i 2) = 0) :
    timerCell (underflow i s) = Function.update (timerCell s) i (timerCell s i).counted := by
  funext j
  have counted : (timerCell s i).counted = _ := if_pos zero
  have irq := underflow_irqBit i j s
  by_cases same : j = i
  · subst same
    rw [Function.update_self, counted]
    ext1
    case irq => exact irq.trans (by simp [timerCell])
    all_goals simp [timerCell, underflow_reg]
  · rw [Function.update_of_ne same]
    ext1
    case irq => exact irq.trans (by simp [timerCell, same])
    all_goals simp [timerCell, underflow_reg, same]

theorem timerCell_decrement {i : Fin 8} {s : TimerRegs} (some_ : s.1 (treg i 2) ≠ 0) :
    timerCell (Function.update s.1 (treg i 2) (s.1 (treg i 2) - 1), s.2) =
      Function.update (timerCell s) i ((timerCell s i).counted) := by
  funext j
  have counted : (timerCell s i).counted = _ := if_neg some_
  by_cases same : j = i
  · subst same
    rw [Function.update_self, counted]
    simp [timerCell, update_treg]
  · rw [Function.update_of_ne same]
    simp [timerCell, update_treg, same]

/-- A count leaves the phases alone. -/
theorem phases_kept (phase : Fin 8 → Word) : KeptByCounts fun s => s.2.phase = phase where
  underflow i s h := by
    simp only [underflow]
    split
    · exact h
    · exact h
  decrement _ _ h := h

/-- The other registers belong to no timer. -/
theorem registers_kept {a : Byte} (above : 0x20 ≤ a) (v : Byte) :
    KeptByCounts fun s => s.1 a = v where
  underflow i s h := by
    simp only [underflow]
    rw [update_treg_above _ i (by decide : 3 < 4) _ above]
    split
    · rw [update_treg_above _ i (by decide : 2 < 4) _ above]
      exact h
    · exact h
  decrement i s h := (update_treg_above _ i (by decide : 2 < 4) _ above).trans h

theorem timerStepAll_above (us : Word) (s : TimerRegs) {a : Byte} (above : 0x20 ≤ a) :
    (timerStepAll us s).1 a = s.1 a :=
  (registers_kept above (s.1 a)).timerStepAll (fun _ _ _ kept => kept) us rfl

/-- Steps never change which timers are linked. -/
theorem linked_iterate (n : Nat) (x : TimerCell) :
    (TimerCell.counted^[n] x).linked = x.linked := by
  induction n generalizing x with
  | zero => rfl
  | succ n ih => rw [Function.iterate_succ_apply, ih, TimerCell.counted_linked]

theorem timerChain_next (linked : Fin 8 → Bool) {i k : Fin 8} (succ : linkSucc i = some k) :
    (timerChain linked).next i = if linked k then some k else none := by
  simp [timerChain, succ, Option.filter]

theorem linked_underflow {i : Fin 8} {s : TimerRegs} (zero : s.1 (treg i 2) = 0) (j : Fin 8) :
    (timerCell (underflow i s) j).linked = (timerCell s j).linked := by
  rw [timerCell_underflow zero]
  by_cases here : j = i
  · subst here
    rw [Function.update_self]
    exact TimerCell.counted_linked _
  · rw [Function.update_of_ne here]

/-- A count of timer `i` is a pulse, and the carries along the chain are acted on. -/
theorem tickChain_moves {linked : Fin 8 → Bool} (depth : Nat) {i : Fin 8} {s : TimerRegs}
    (same : ∀ j, (timerCell s j).linked = linked j) (enough : 8 ≤ depth + chainRank i) :
    ∃ N, (timerChain linked).Moves (Pi.single i 1) 0 N (timerCell s)
      (timerCell (tickChain depth i s)) := by
  induction depth generalizing i s with
  | zero =>
    have below := chainRank_lt i
    omega
  | succ depth ih =>
    rw [tickChain]
    by_cases zero : s.1 (treg i 2) = 0
    · have carry : (timerChain linked).carry (timerCell s i) = true := beq_iff_eq.mpr zero
      have cells : timerCell (underflow i s) =
          Function.update (timerCell s) i ((timerChain linked).step (timerCell s i)) :=
        timerCell_underflow zero
      rw [if_pos zero]
      cases succ : linkSucc i with
      | none =>
        have last : (timerChain linked).next i = none := by simp [timerChain, succ]
        exact ⟨_, cells ▸ moves_step_quiet (.inr last)⟩
      | some k =>
        have next := timerChain_next linked succ
        have kept (j : Fin 8) : (timerCell (underflow i s) j).linked = linked j :=
          (linked_underflow zero j).trans (same j)
        simp only
        rw [← timerCell_linked, kept k]
        by_cases follows : linked k = true
        · have rank := linkSucc_rank i k succ
          rcases @ih k (underflow i s) kept (by omega) with ⟨M, moves⟩
          rw [if_pos follows] at next ⊢
          have step := moves_step_carry carry next
          rw [← cells] at step
          exact ⟨_, step.settle moves⟩
        · rw [if_neg follows] at next ⊢
          exact ⟨_, cells ▸ moves_step_quiet (.inr next)⟩
    · have quiet : (timerChain linked).carry (timerCell s i) = false :=
        beq_eq_false_iff_ne.mpr zero
      rw [if_neg zero, timerCell_decrement zero]
      exact ⟨_, moves_step_quiet (.inl quiet)⟩

end Tick

/-- The timers with the time since the last count of each. -/
def timerBank (s : TimerRegs) : Bank (Fin 8) TimerCell where
  cells := timerCell s
  phase i := (s.2.phase i).toNat

section Step

variable {linked : Fin 8 → Bool} {i : Fin 8} {s : TimerRegs}

theorem timerBank_setPhase (i : Fin 8) (p : Word) (s : TimerRegs) :
    (timerBank (setPhase i p s)).phase = Function.update (timerBank s).phase i p.toNat :=
  funext fun _ => Function.apply_update (fun _ => BitVec.toNat) ..

/-- Counts as often as the divider fits into the phase, and leaves the rest of the phase. -/
theorem timerDrain_moves (same : ∀ j, (timerCell s j).linked = linked j) {period : Word}
    (positive : 0 < period.toNat) {n : Nat} (enough : (s.2.phase i).toNat ≤ n) :
    ∃ N, (timerChain linked).Moves (Pi.single i ((s.2.phase i).toNat / period.toNat)) 0 N
        (timerCell s) (timerCell (timerDrain i period n s)) ∧
      (timerBank (timerDrain i period n s)).phase =
        Function.update (timerBank s).phase i ((s.2.phase i).toNat % period.toNat) := by
  apply drained timerBank (fun s => ∀ j, (timerCell s j).linked = linked j) (timerDrain i period)
    positive (fun _ => rfl)
  case due =>
    intro n s same due
    have less : (s.2.phase i - period).toNat = (s.2.phase i).toNat - period.toNat :=
      BitVec.toNat_sub_of_le due
    rcases tickChain_moves 8 (i := i) (s := setPhase i (s.2.phase i - period) s) same (by omega)
      with ⟨N, moves⟩
    refine ⟨tick i (setPhase i (s.2.phase i - period) s), N, if_pos due, ?_, moves, ?_⟩
    · intro j
      rw [← same j]
      exact (congrArg TimerCell.linked (moves.state j)).trans (linked_iterate _ _)
    · have phase : (tick i (setPhase i (s.2.phase i - period) s)).2.phase =
          Function.update s.2.phase i (s.2.phase i - period) := (phases_kept _).tickChain 8 i rfl
      have kept : (timerBank (tick i (setPhase i (s.2.phase i - period) s))).phase =
          (timerBank (setPhase i (s.2.phase i - period) s)).phase :=
        funext fun j => congrArg BitVec.toNat (congrFun phase j)
      rw [kept, timerBank_setPhase, less]
      rfl
  case done =>
    intro n s below
    exact if_neg (Nat.not_le_of_lt below)
  case holds => exact same
  case enough => exact enough

/-- `1u << clk` -/
theorem divider_toNat : ∀ k ≤ 7, ((1 <<< k : Nat) : Word).toNat = 2 ^ k := by decide

theorem clock_le (ctlA : Byte) : (ctlA &&& tctlaClock).toNat ≤ 7 := by
  rw [BitVec.toNat_and]
  exact Nat.and_le_right

theorem timerStepOne_none {us : Word} (idle : (timerCell s i).period = none) :
    timerStepOne us s i = s := by
  unfold timerStepOne
  simp only
  by_cases stopped : s.1 (treg i 1) &&& tctlaCount = 0
  · rw [if_pos stopped]
  rw [if_neg stopped]
  by_cases link : s.1 (treg i 1) &&& tctlaClock = 7
  · rw [if_pos link]
  have free : (timerCell s i).period = some _ := (if_neg stopped).trans (if_neg link)
  rw [free] at idle
  cases idle

/-- One turn of the outer loop of `lynx_timer_step`, for a timer with the divider `p`: the pulses
are as many as fit into the phase, which has wrapped around if it had to. -/
theorem timerStepOne_some (same : ∀ j, (timerCell s j).linked = linked j) (us : Word) {p : Nat}
    (free : (timerCell s i).period = some p) :
    ∃ N, (timerChain linked).Moves (Pi.single i ((s.2.phase i + us).toNat / p)) 0 N (timerCell s)
        (timerCell (timerStepOne us s i)) ∧
      (timerBank (timerStepOne us s i)).phase =
        Function.update (timerBank s).phase i ((s.2.phase i + us).toNat % p) := by
  rcases divider_some free with ⟨counts, unlinked, value⟩
  have divider := (divider_toNat _ (clock_le (s.1 (treg i 1)))).trans value
  have phase : (setPhase i (s.2.phase i + us) s).2.phase i = s.2.phase i + us :=
    Function.update_self ..
  have loops : timerStepOne us s i = _ := (if_neg counts).trans (if_neg unlinked)
  rcases @timerDrain_moves linked i (setPhase i (s.2.phase i + us) s) same _
    (divider ▸ value ▸ Nat.two_pow_pos _) _ (Nat.le_of_eq (congrArg BitVec.toNat phase))
    with ⟨N, moves, phases⟩
  rw [phase, divider] at moves phases
  rw [timerBank_setPhase, Function.update_idem] at phases
  rw [loops]
  exact ⟨N, moves, phases⟩

/-- One turn of the outer loop of `lynx_timer_step`. -/
theorem timerStepOne_turn (same : ∀ j, (timerCell s j).linked = linked j) {us : Word}
    (fits : (s.2.phase i).toNat + us.toNat < 2 ^ 32) :
    ∃ N, (timerChain linked).Turn TimerCell.period us.toNat i (timerBank s)
      (timerBank (timerStepOne us s i)) N := by
  cases period : (timerCell s i).period with
  | none =>
    have idle : ((timerBank s).cells i).period = none := period
    rw [timerStepOne_none period]
    exact ⟨0, turn_idle _ _ idle _⟩
  | some p =>
    have value : ((timerBank s).cells i).period = some p := period
    have total : (timerBank s).phase i + us.toNat = (s.2.phase i + us).toNat :=
      (BitVec.toNat_add_of_lt fits).symm
    rcases timerStepOne_some same us period with ⟨N, moves, phases⟩
    refine ⟨N, ?_, ?_⟩
    · rw [due_some value, total]
      exact moves
    · rw [rest_some value, total]
      exact phases

/-- The loops of `lynx_timer_step` let the time pass in the cascade. -/
theorem timerStepAll_elapsed {us : Word} (fits : ∀ i, (s.2.phase i).toNat + us.toNat < 2 ^ 32) :
    ∃ N, (timerChain (countsLinked s.1)).Elapsed TimerCell.period us.toNat (timerBank s)
      (timerBank (timerStepAll us s)) N := by
  have turn : ∀ S s' N i,
      (timerChain (countsLinked s.1)).Served TimerCell.period us.toNat S (timerBank s)
        (timerBank s') N → i ∉ S →
      ∃ M, (timerChain (countsLinked s.1)).Turn TimerCell.period us.toNat i (timerBank s')
        (timerBank (timerStepOne us s' i)) M := by
    intro S s' N i served waiting
    apply timerStepOne_turn
    · intro j
      have moved : timerCell s' j = TimerCell.counted^[N j] (timerCell s j) := served.1.state j
      rw [moved, linked_iterate, timerCell_linked]
    · have phase : (s'.2.phase i).toNat = (s.2.phase i).toNat :=
        (served.2 i).trans (if_neg waiting)
      rw [phase]
      exact fits i
  have start := served_empty (timerChain (countsLinked s.1)) TimerCell.period us.toNat (timerBank s)
  rcases start.foldl TimerCell.counted_period turn (List.nodup_finRange 8) (by simp) with ⟨N, all⟩
  rw [List.toFinset_finRange, Finset.empty_union] at all
  exact ⟨N, all.elapsed⟩

/-- The cells and phases are the registers and variables of the timers. -/
theorem timerBank_eq_iff {s s' : TimerRegs} :
    timerBank s = timerBank s' ↔ (∀ a < 0x20, s.1 a = s'.1 a) ∧ s.2 = s'.2 := by
  constructor
  · intro bank
    have cells (i : Fin 8) : timerCell s i = timerCell s' i := congrFun (congrArg Bank.cells bank) i
    constructor
    · intro a below
      rcases exists_treg below with ⟨i, f, rfl⟩
      have cell := cells i
      match f with
      | 0 => exact congrArg TimerCell.backup cell
      | 1 => exact congrArg TimerCell.ctlA cell
      | 2 => exact congrArg TimerCell.count cell
      | 3 => exact congrArg TimerCell.ctlB cell
    · have phases : s.2.phase = s'.2.phase := by
        funext i
        exact BitVec.eq_of_toNat_eq (congrFun (congrArg Bank.phase bank) i)
      have latch : s.2.irqLatch = s'.2.irqLatch := by
        apply BitVec.eq_of_getLsbD_eq
        intro k small
        exact congrArg TimerCell.irq (cells ⟨k, small⟩)
      rcases s with ⟨_, phase, irqLatch⟩
      rcases s' with ⟨_, phase', irqLatch'⟩
      simp only at phases latch
      rw [phases, latch]
  · rintro ⟨regs, timers⟩
    unfold timerBank timerCell
    rw [timers]
    simp only [regs _ (treg_lt (by decide : 0 < 4)), regs _ (treg_lt (by decide : 1 < 4)),
      regs _ (treg_lt (by decide : 2 < 4)), regs _ (treg_lt (by decide : 3 < 4))]

/-- Where the timers end up depends on nothing but the timers. -/
theorem timerStepAll_congr {us : Word} (fits : ∀ i, (s.2.phase i).toNat + us.toNat < 2 ^ 32)
    {s' : TimerRegs} (same : timerBank s = timerBank s') :
    timerBank (timerStepAll us s) = timerBank (timerStepAll us s') := by
  have fits' : ∀ i, (s'.2.phase i).toNat + us.toNat < 2 ^ 32 :=
    (timerBank_eq_iff.mp same).2 ▸ fits
  have linked : countsLinked s'.1 = countsLinked s.1 := by
    funext i
    rw [← timerCell_linked s', ← timerCell_linked s]
    exact congrArg TimerCell.linked (congrFun (congrArg Bank.cells same.symm) i)
  rcases timerStepAll_elapsed fits with ⟨N, one⟩
  rcases timerStepAll_elapsed fits' with ⟨M, other⟩
  rw [linked, ← same] at other
  exact (one.unique (timerChain_acyclic _) other).2

/-- Time can be split. -/
theorem timerStepAll_add {a b : Word}
    (fits : ∀ i, (s.2.phase i).toNat + (a.toNat + b.toNat) < 2 ^ 32) :
    timerStepAll b (timerStepAll a s) = timerStepAll (a + b) s := by
  have sum : (a + b).toNat = a.toNat + b.toNat := by
    have small := fits 0
    apply BitVec.toNat_add_of_lt
    omega
  have fits_a (i : Fin 8) : (s.2.phase i).toNat + a.toNat < 2 ^ 32 := by
    have small := fits i
    omega
  rcases timerStepAll_elapsed fits_a with ⟨N, first⟩
  have fits_b (i : Fin 8) : ((timerStepAll a s).2.phase i).toNat + b.toNat < 2 ^ 32 := by
    have passed := first.phase_le i
    have small := fits i
    change ((timerStepAll a s).2.phase i).toNat ≤ (s.2.phase i).toNat + a.toNat at passed
    omega
  have linked : countsLinked (timerStepAll a s).1 = countsLinked s.1 := by
    funext i
    rw [← timerCell_linked, ← timerCell_linked s]
    exact (congrArg TimerCell.linked (first.1.state i)).trans (linked_iterate _ _)
  rcases timerStepAll_elapsed fits_b with ⟨M, second⟩
  have fits_ab : ∀ i, (s.2.phase i).toNat + (a + b).toNat < 2 ^ 32 := sum ▸ fits
  rcases timerStepAll_elapsed fits_ab with ⟨K, whole⟩
  rw [linked] at second
  rw [sum] at whole
  have bank := ((first.trans TimerCell.counted_period second).unique (timerChain_acyclic _) whole).2
  rcases timerBank_eq_iff.mp bank with ⟨regs, timers⟩
  apply Prod.ext
  · funext r
    by_cases below : r < 0x20
    · exact regs r below
    · have above : 0x20 ≤ r := by bv_omega
      rw [timerStepAll_above b _ above, timerStepAll_above a _ above,
        timerStepAll_above (a + b) _ above]
  · exact timers

end Step

end LynxRecomp
