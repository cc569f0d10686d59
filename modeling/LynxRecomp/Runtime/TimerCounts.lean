import LynxRecomp.Runtime.TimerChain

/-!
# How often the timers underflow

The outcome of a timer step in closed form: how often each timer has counted and
underflowed, from the dividers and along the link chain.
-/

namespace LynxRecomp

open Cascade

variable {η : Type}

/-- The timer whose underflows a linked timer counts: the chain 0, 2, 4, 1, 3, 5, 7. -/
def linkPred : Fin 8 → Option (Fin 8)
  | 0 => none
  | 1 => some 4
  | 2 => some 0
  | 3 => some 1
  | 4 => some 2
  | 5 => some 3
  | 6 => none
  | 7 => some 5

theorem linkSucc_iff : ∀ i j : Fin 8, linkSucc i = some j ↔ linkPred j = some i := by decide

/-- Timer `i` counts. -/
def Counting (hw : Hw η) (i : Fin 8) : Prop := hw.mikey (treg i 1) &&& tctlaCount ≠ 0

def timerClock (hw : Hw η) (i : Fin 8) : Byte := hw.mikey (treg i 1) &&& tctlaClock

/-- The outcome of a step of `us` microseconds in which timer `i` counts `n i` times and
underflows `u i` times. -/
structure TimersStepped (us : Word) (n u : Fin 8 → Nat) (hw hw' : Hw η) : Prop where
  stopped : ∀ i, ¬ Counting hw i → n i = 0 ∧ u i = 0 ∧ hw'.timer.phase i = hw.timer.phase i
  free : ∀ i, Counting hw i → timerClock hw i ≠ 7 →
    n i = ((hw.timer.phase i).toNat + us.toNat) / 2 ^ (timerClock hw i).toNat ∧
      (hw'.timer.phase i).toNat =
        ((hw.timer.phase i).toNat + us.toNat) % 2 ^ (timerClock hw i).toNat
  linked : ∀ i, Counting hw i → timerClock hw i = 7 →
    n i = (linkPred i).elim 0 u ∧ hw'.timer.phase i = hw.timer.phase i
  underflows : ∀ i,
    u i = underflows (hw.mikey (treg i 0)).toNat (hw.mikey (treg i 2)).toNat (n i)
  count : ∀ i, (hw'.mikey (treg i 2)).toNat =
    countAfter (hw.mikey (treg i 0)).toNat (hw.mikey (treg i 2)).toNat (n i)
  flags : ∀ i, hw'.mikey (treg i 3) =
    if 0 < u i then hw.mikey (treg i 3) ||| (tctlbDone ||| tctlbBorrowout)
    else hw.mikey (treg i 3)
  latch : ∀ i : Fin 8, hw'.timer.irqLatch.getLsbD i =
    if 0 < u i ∧ hw.mikey (treg i 1) &&& tctlaInt ≠ 0 then true
    else hw.timer.irqLatch.getLsbD i
  registers : ∀ a, (∀ i, a ≠ treg i 2 ∧ a ≠ treg i 3) → hw'.mikey a = hw.mikey a
  frame : hw' = { hw with mikey := hw'.mikey, timer := hw'.timer }

section Cell

variable (linked : Fin 8 → Bool)

/-- The flags after `n` counts say whether one of them was an underflow. -/
theorem counted_flags (n : Nat) (x : TimerCell) :
    (TimerCell.counted^[n] x).ctlB =
        (if 0 < (timerChain linked).carries n x then x.ctlB ||| (tctlbDone ||| tctlbBorrowout)
        else x.ctlB) ∧
      (TimerCell.counted^[n] x).irq =
        (if 0 < (timerChain linked).carries n x ∧ x.ctlA &&& tctlaInt ≠ 0 then true
        else x.irq) := by
  induction n generalizing x with
  | zero => simp [carries]
  | succ n ih =>
    rcases ih x.counted with ⟨ctlB, irq⟩
    rw [Function.iterate_succ_apply, ctlB, irq, TimerCell.counted_ctlA]
    have first : (timerChain linked).carries (n + 1) x =
        (x.count == 0).toNat + (timerChain linked).carries n x.counted := rfl
    rw [first]
    by_cases zero : x.count = 0
    · have after : x.counted = _ := if_pos zero
      rw [after]
      simp only [zero, beq_self_eq_true, Bool.toNat_true]
      constructor
      · grind
      · grind
    · have after : x.counted = _ := if_neg zero
      have quiet : (x.count == 0) = false := beq_eq_false_iff_ne.mpr zero
      have same_ctlB : x.counted.ctlB = x.ctlB := by rw [after]
      have same_irq : x.counted.irq = x.irq := by rw [after]
      rw [quiet, Bool.toNat_false, Nat.zero_add, same_ctlB, same_irq]
      exact ⟨rfl, rfl⟩

theorem counted_registers (n : Nat) (x : TimerCell) :
    (TimerCell.counted^[n] x).backup = x.backup ∧ (TimerCell.counted^[n] x).ctlA = x.ctlA := by
  induction n generalizing x with
  | zero => exact ⟨rfl, rfl⟩
  | succ n ih =>
    rcases ih x.counted with ⟨backup, ctlA⟩
    rw [Function.iterate_succ_apply]
    exact ⟨backup.trans x.counted_backup, ctlA.trans x.counted_ctlA⟩

/-- A timer with the reload flag counts down to zero and starts over at its backup value. -/
theorem counted_countdown (n : Nat) {x : TimerCell} (reload : x.ctlA &&& tctlaReload ≠ 0) :
    (TimerCell.counted^[n] x).count.toNat = countAfter x.backup.toNat x.count.toNat n ∧
      (timerChain linked).carries n x = underflows x.backup.toNat x.count.toNat n := by
  apply @countdown _ _ (timerChain linked) (fun y => y.count.toNat) x.backup.toNat
    (fun y => y.ctlA &&& tctlaReload ≠ 0 ∧ y.backup = x.backup)
  · rintro y ⟨flag, backup⟩
    change y.counted.ctlA &&& tctlaReload ≠ 0 ∧ y.counted.backup = x.backup
    rw [y.counted_ctlA, y.counted_backup]
    exact ⟨flag, backup⟩
  · intro y _
    change (y.count == 0) = _
    rw [Bool.eq_iff_iff, beq_iff_eq, decide_eq_true_iff, BitVec.toNat_eq]
    rfl
  · rintro y ⟨flag, backup⟩
    change y.counted.count.toNat = _
    by_cases zero : y.count = 0
    · have after : y.counted = _ := if_pos zero
      have none : y.count.toNat = 0 := congrArg BitVec.toNat zero
      rw [after, if_pos none]
      simp only
      rw [if_pos flag, backup]
    · have after : y.counted = _ := if_neg zero
      have some_ : y.count.toNat ≠ 0 := fun none => zero (BitVec.eq_of_toNat_eq none)
      rw [after, if_neg some_]
      simp only
      bv_omega
  · exact ⟨reload, rfl⟩

/-- Only a linked timer receives anything, and only from its predecessor. -/
theorem timerChain_received (N : Fin 8 → Nat) (cells : Fin 8 → TimerCell) (j : Fin 8) :
    (timerChain linked).received N cells j =
      if linked j then
        (linkPred j).elim 0 fun p => (timerChain linked).carries (N p) (cells p)
      else 0 := by
  have drives (i : Fin 8) :
      (timerChain linked).next i = some j ↔ linkPred j = some i ∧ linked j = true := by
    rw [← linkSucc_iff]
    exact Option.filter_eq_some_iff
  unfold received
  simp only [drives]
  by_cases follows : linked j = true
  · rw [if_pos follows]
    cases pred : linkPred j with
    | none => simp
    | some p => simp [follows]
  · simp [follows]

end Cell

/-- A timer that counts has the reload flag. -/
def Reloading (hw : Hw η) : Prop :=
  ∀ i, Counting hw i → hw.mikey (treg i 1) &&& tctlaReload ≠ 0

theorem period_stopped {hw : Hw η} {i : Fin 8} (stopped : ¬ Counting hw i) :
    (timerCell (hw.mikey, hw.timer) i).period = none := if_pos (not_not.mp stopped)

theorem period_linked {hw : Hw η} {i : Fin 8} (counting : Counting hw i)
    (clock : timerClock hw i = 7) : (timerCell (hw.mikey, hw.timer) i).period = none :=
  (if_neg counting).trans (if_pos clock)

theorem period_free {hw : Hw η} {i : Fin 8} (counting : Counting hw i)
    (clock : timerClock hw i ≠ 7) :
    (timerCell (hw.mikey, hw.timer) i).period = some (2 ^ (timerClock hw i).toNat) :=
  (if_neg counting).trans (if_neg clock)

theorem countsLinked_iff {hw : Hw η} {i : Fin 8} :
    countsLinked hw.mikey i = true ↔ Counting hw i ∧ timerClock hw i = 7 := by
  unfold countsLinked
  rw [Bool.and_eq_true, bne_iff_ne, beq_iff_eq]
  rfl

/-- The count of a timer, and how often it has underflowed, after `n` counts. A timer that does
not count has none. -/
theorem timer_countdown {hw : Hw η} (reload : Reloading hw) (linked : Fin 8 → Bool) {i : Fin 8}
    {n : Nat} (idle : ¬ Counting hw i → n = 0) :
    (TimerCell.counted^[n] (timerCell (hw.mikey, hw.timer) i)).count.toNat =
        countAfter (hw.mikey (treg i 0)).toNat (hw.mikey (treg i 2)).toNat n ∧
      (timerChain linked).carries n (timerCell (hw.mikey, hw.timer) i) =
        underflows (hw.mikey (treg i 0)).toNat (hw.mikey (treg i 2)).toNat n := by
  by_cases counting : Counting hw i
  · exact counted_countdown linked n (reload i counting)
  · simp [idle counting, countAfter, underflows, carries, timerCell]

/-- Besides the counts and the flags of the timers, a step changes no register. -/
theorem timerStepAll_others {us : Word} {hw : Hw η} {N : Fin 8 → Nat}
    (after : ∀ i, timerCell (timerStepAll us (hw.mikey, hw.timer)) i =
      TimerCell.counted^[N i] (timerCell (hw.mikey, hw.timer) i))
    {a : Byte} (others : ∀ i, a ≠ treg i 2 ∧ a ≠ treg i 3) :
    (timerStepAll us (hw.mikey, hw.timer)).1 a = hw.mikey a := by
  by_cases below : a < 0x20
  · rcases exists_treg below with ⟨i, f, rfl⟩
    have registers := counted_registers (N i) (timerCell (hw.mikey, hw.timer) i)
    have cell := after i
    match f with
    | 0 => exact (congrArg TimerCell.backup cell).trans registers.1
    | 1 => exact (congrArg TimerCell.ctlA cell).trans registers.2
    | 2 => exact absurd rfl (others i).1
    | 3 => exact absurd rfl (others i).2
  · exact timerStepAll_above us (hw.mikey, hw.timer) (by bv_omega)

/-- If every timer that counts has the reload flag, a step is counted exactly, along the whole
link chain. -/
theorem lynxTimerStep_counts {us : Word} {hw : Hw η} (reload : Reloading hw)
    (fits : ∀ i, (hw.timer.phase i).toNat + us.toNat < 2 ^ 32) :
    ∃ n u, TimersStepped us n u hw (lynxTimerStep us hw).2 := by
  rcases timerStepAll_elapsed (s := (hw.mikey, hw.timer)) fits with ⟨N, moves, phases⟩
  have after : ∀ i, timerCell (timerStepAll us (hw.mikey, hw.timer)) i =
      TimerCell.counted^[N i] (timerCell (hw.mikey, hw.timer) i) := moves.state
  have phase (i : Fin 8) := congrFun phases i
  have balance (i : Fin 8) := moves.balance i
  simp only [Pi.zero_apply, Nat.add_zero, timerChain_received] at balance
  have none (i : Fin 8) (stopped : ¬ Counting hw i) : N i = 0 := by
    have unlinked : ¬ countsLinked hw.mikey i = true := fun h => stopped (countsLinked_iff.mp h).1
    rw [balance, due_none (period_stopped stopped), if_neg unlinked]
  have down (i : Fin 8) := timer_countdown reload (countsLinked hw.mikey) (none i)
  refine ⟨N, fun i => (timerChain (countsLinked hw.mikey)).carries (N i)
    (timerCell (hw.mikey, hw.timer) i), ?_, ?_, ?_, fun i => (down i).2, ?_, ?_, ?_, ?_, rfl⟩
  · intro i stopped
    have idle := phase i
    rw [rest_none (period_stopped stopped)] at idle
    exact ⟨none i stopped, by simp [none i stopped, carries], BitVec.eq_of_toNat_eq idle⟩
  · intro i counting clock
    have passed := phase i
    have unlinked : ¬ countsLinked hw.mikey i = true := fun h => clock (countsLinked_iff.mp h).2
    rw [rest_some (period_free counting clock)] at passed
    rw [balance, if_neg unlinked, due_some (period_free counting clock)]
    exact ⟨rfl, passed⟩
  · intro i counting clock
    have idle := phase i
    rw [rest_none (period_linked counting clock)] at idle
    rw [balance, if_pos (countsLinked_iff.mpr ⟨counting, clock⟩),
      due_none (period_linked counting clock), Nat.zero_add]
    exact ⟨rfl, BitVec.eq_of_toNat_eq idle⟩
  · intro i
    have count := congrArg (fun x => x.count.toNat) (after i)
    exact count.trans (down i).1
  · intro i
    have ctlB := congrArg TimerCell.ctlB (after i)
    exact ctlB.trans (counted_flags (countsLinked hw.mikey) (N i) _).1
  · intro i
    have irq := congrArg TimerCell.irq (after i)
    exact irq.trans (counted_flags (countsLinked hw.mikey) (N i) _).2
  · exact fun a others => timerStepAll_others after others

/-- Timer 0 counts microseconds from 3, and timer 2 is linked to it, with its interrupt. -/
def frameTimers : Hw Unit :=
  { Hw.zeroed () with
    mikey := fun a => if a = 0 then 3 else if a = 1 then 0x18 else if a = 9 then 0x9F else 0 }

theorem frameTimers_counts :
    Reloading frameTimers ∧ (∀ i, (frameTimers.timer.phase i).toNat + (10 : Word).toNat < 2 ^ 32) ∧
      ∃ n u, TimersStepped 10 n u frameTimers (lynxTimerStep 10 frameTimers).2 := by
  have reload : Reloading frameTimers := by
    unfold Reloading Counting
    decide
  have fits : ∀ i, (frameTimers.timer.phase i).toNat + (10 : Word).toNat < 2 ^ 32 := by
    decide
  exact ⟨reload, fits, lynxTimerStep_counts reload fits⟩

end LynxRecomp
