import Mathlib.Algebra.BigOperators.Pi
import Mathlib.Algebra.Ring.Nat
import Mathlib.Data.Fintype.BigOperators
import Mathlib.Logic.Function.Iterate

/-!
# Cascaded components

A finite family of components, each with a local step that may produce a carry; a carry
of one component is a pulse for the component that it drives. In whatever order pulses
arrive, a component makes one step for each, so where the family ends up depends only on
how many pulses each component was given from outside.
-/

universe u v w

structure Cascade (ι : Type u) (σ : Type v) where
  step : σ → σ
  carry : σ → Bool
  next : ι → Option ι

namespace Cascade

variable {ι : Type u} {σ : Type v} (c : Cascade ι σ)

/-- The carries in `n` steps of a component. -/
def carries : Nat → σ → Nat
  | 0, _ => 0
  | n + 1, x => (c.carry x).toNat + carries n (c.step x)

theorem carries_add (n m : Nat) (x : σ) :
    c.carries (n + m) x = c.carries n x + c.carries m (c.step^[n] x) := by
  induction n generalizing x with
  | zero => simp [carries]
  | succ n ih =>
    rw [Nat.succ_add, carries, carries, ih, Function.iterate_succ_apply, Nat.add_assoc]

variable [Fintype ι] [DecidableEq ι]

/-- The pulses that component `j` gets from the others while each makes `N i` steps. -/
def received (N : ι → Nat) (s : ι → σ) (j : ι) : Nat :=
  ∑ i, if c.next i = some j then c.carries (N i) (s i) else 0

/-- From `s` to `s'` component `i` has made `N i` steps. It was `given` pulses from outside,
and received those of the others; it still `owes` the steps for some of them. -/
structure Moves (given owed N : ι → Nat) (s s' : ι → σ) : Prop where
  state : ∀ i, s' i = c.step^[N i] (s i)
  balance : ∀ j, N j + owed j = given j + c.received N s j

section Moves

variable {c} {given given' owed owed' N M : ι → Nat} {s s' s'' : ι → σ}

theorem moves_refl (c : Cascade ι σ) (s : ι → σ) : c.Moves 0 0 0 s s where
  state _ := rfl
  balance j := by simp [received, carries]

theorem received_add (moves : ∀ i, s' i = c.step^[N i] (s i)) (j : ι) :
    c.received (N + M) s j = c.received N s j + c.received M s' j := by
  unfold received
  rw [← Finset.sum_add_distrib]
  apply Finset.sum_congr rfl
  intro i _
  split
  · rw [Pi.add_apply, carries_add, moves]
  · rfl

theorem Moves.trans (first : c.Moves given owed N s s') (second : c.Moves given' owed' M s' s'') :
    c.Moves (given + given') (owed + owed') (N + M) s s'' where
  state i := by
    rw [second.state, first.state, ← Function.iterate_add_apply, Pi.add_apply, Nat.add_comm]
  balance j := by
    have left := first.balance j
    have right := second.balance j
    rw [received_add first.state]
    simp only [Pi.add_apply]
    omega

/-- The second run makes the steps that the first one owes. -/
theorem Moves.settle (first : c.Moves given owed N s s') (second : c.Moves owed owed' M s' s'') :
    c.Moves given owed' (N + M) s s'' where
  state := (first.trans second).state
  balance j := by
    have both := (first.trans second).balance j
    simp only [Pi.add_apply] at both ⊢
    omega

/-- One step of one component, whose carry has not been acted on yet. -/
theorem moves_step (c : Cascade ι σ) (s : ι → σ) (i : ι) :
    c.Moves (Pi.single i 1) (fun j => if c.next i = some j then (c.carry (s i)).toNat else 0)
      (Pi.single i 1) s (Function.update s i (c.step (s i))) where
  state j := by
    by_cases same : j = i
    · subst same
      simp
    · simp [Function.update_of_ne same, Pi.single_eq_of_ne same]
  balance j := by
    have others : c.received (Pi.single i 1) s j =
        if c.next i = some j then (c.carry (s i)).toNat else 0 := by
      rw [received, Finset.sum_eq_single i]
      · simp [carries]
      · intro k _ other
        rw [Pi.single_eq_of_ne other]
        simp [carries]
      · exact fun outside => absurd (Finset.mem_univ i) outside
    rw [others]

/-- A step that is of no consequence to other components. -/
theorem moves_step_quiet {s : ι → σ} {i : ι} (quiet : c.carry (s i) = false ∨ c.next i = none) :
    c.Moves (Pi.single i 1) 0 (Pi.single i 1) s (Function.update s i (c.step (s i))) := by
  have nothing : (fun j => if c.next i = some j then (c.carry (s i)).toNat else 0) = 0 := by
    funext j
    rcases quiet with no_carry | no_next
    · simp [no_carry]
    · simp [no_next]
  exact nothing ▸ moves_step c s i

/-- A step whose carry is a pulse for component `j`. -/
theorem moves_step_carry {s : ι → σ} {i j : ι} (carry : c.carry (s i) = true)
    (drives : c.next i = some j) :
    c.Moves (Pi.single i 1) (Pi.single j 1) (Pi.single i 1) s
      (Function.update s i (c.step (s i))) := by
  have pulse : (fun k => if c.next i = some k then (c.carry (s i)).toNat else 0) =
      Pi.single j 1 := by
    funext k
    by_cases here : k = j
    · subst here
      simp [drives, carry]
    · simp [drives, here, Ne.symm here]
  exact pulse ▸ moves_step c s i

/-- A component that no other one drives makes the steps that it is given. -/
theorem Moves.alone (moves : c.Moves given 0 N s s') {i : ι} (alone : ∀ j, c.next j ≠ some i) :
    s' i = c.step^[given i] (s i) := by
  have nothing : c.received N s i = 0 := by
    apply Finset.sum_eq_zero
    intro j _
    exact if_neg (alone j)
  have steps := moves.balance i
  rw [nothing, Pi.zero_apply, Nat.add_zero, Nat.add_zero] at steps
  rw [moves.state, steps]

/-- If no component drives itself through others, the steps are determined. -/
theorem Moves.unique {rank : ι → Nat} (acyclic : ∀ i j, c.next i = some j → rank i < rank j)
    (one : c.Moves given 0 N s s') (other : c.Moves given 0 M s s'') : N = M ∧ s' = s'' := by
  have same : ∀ n j, rank j < n → N j = M j := by
    intro n
    induction n with
    | zero => exact fun j below => absurd below (Nat.not_lt_zero _)
    | succ n ih =>
      intro j below
      have received_eq : c.received N s j = c.received M s j := by
        apply Finset.sum_congr rfl
        intro i _
        split
        · rename_i drives
          rw [ih i (Nat.lt_of_lt_of_le (acyclic i j drives) (Nat.lt_succ_iff.mp below))]
        · rfl
      have left := one.balance j
      have right := other.balance j
      simp only [Pi.zero_apply] at left right
      omega
  have steps : N = M := funext fun j => same (rank j + 1) j (Nat.lt_succ_self _)
  refine ⟨steps, funext fun i => ?_⟩
  rw [one.state, other.state, steps]

end Moves

/-- Components whose pulses come from a common clock through dividers: `phase` is the time
since the last pulse. -/
structure Bank (ι : Type u) (σ : Type v) where
  cells : ι → σ
  phase : ι → Nat

omit [Fintype ι] [DecidableEq ι] in
/-- A loop that serves one component after the other, seen from a component whose state `g`
turns into the next one whenever it is its turn. -/
theorem foldl_turn {τ : Type v} {α : Type w} {view : τ → α} {I : α → Prop} {g : α → α}
    {f : τ → ι → τ} {i : ι} (own : ∀ s, I (view s) → view (f s i) = g (view s))
    (other : ∀ s j, j ≠ i → I (view s) → view (f s j) = view s) (kept : ∀ a, I a → I (g a))
    {l : List ι} (nodup : l.Nodup) (member : i ∈ l) {s : τ} (holds : I (view s)) :
    view (l.foldl f s) = g (view s) := by
  have others (l : List ι) (absent : i ∉ l) (s : τ) (holds : I (view s)) :
      view (l.foldl f s) = view s := by
    induction l generalizing s with
    | nil => rfl
    | cons j l ih =>
      rw [List.mem_cons, not_or] at absent
      have first := other s j (Ne.symm absent.1) holds
      rw [List.foldl_cons, ih absent.2 _ (first ▸ holds), first]
  rcases List.append_of_mem member with ⟨before, after, rfl⟩
  have apart := List.nodup_append.mp nodup
  have not_before : i ∉ before := fun earlier => apart.2.2 i earlier i List.mem_cons_self rfl
  have not_after : i ∉ after := (List.nodup_cons.mp apart.2.1).1
  have reached := others before not_before s holds
  have turn := own (before.foldl f s) (reached ▸ holds)
  rw [reached] at turn
  rw [List.foldl_append, List.foldl_cons, others after not_after _ (turn ▸ kept _ holds), turn]

section Clock

variable (period : σ → Option Nat)

/-- The pulses that component `i` gets from its divider within the time `t`. -/
def due (t : Nat) (x : Bank ι σ) (i : ι) : Nat :=
  (period (x.cells i)).elim 0 fun p => (x.phase i + t) / p

/-- The phase of component `i` after the time `t`. -/
def rest (t : Nat) (x : Bank ι σ) (i : ι) : Nat :=
  (period (x.cells i)).elim (x.phase i) fun p => (x.phase i + t) % p

/-- The components of `S` have been served for the time `t`. -/
def Served (t : Nat) (S : Finset ι) (x y : Bank ι σ) (N : ι → Nat) : Prop :=
  c.Moves (fun i => if i ∈ S then due period t x i else 0) 0 N x.cells y.cells ∧
    ∀ i, y.phase i = if i ∈ S then rest period t x i else x.phase i

/-- The time `t` has passed. -/
def Elapsed (t : Nat) (x y : Bank ι σ) (N : ι → Nat) : Prop :=
  c.Moves (due period t x) 0 N x.cells y.cells ∧ y.phase = rest period t x

/-- Component `i` alone has been served. -/
def Turn (t : Nat) (i : ι) (x y : Bank ι σ) (N : ι → Nat) : Prop :=
  c.Moves (Pi.single i (due period t x i)) 0 N x.cells y.cells ∧
    y.phase = Function.update x.phase i (rest period t x i)

/-- What a component and its phase become within the time that `charge` adds to the phase. -/
def serve (step : σ → σ) (charge : Nat → Nat) (x : σ × Nat) : σ × Nat :=
  (period x.1).elim x fun p => (step^[charge x.2 / p] x.1, charge x.2 % p)

section Dividers

omit [Fintype ι] [DecidableEq ι]

variable {period} {x : Bank ι σ} {i : ι}

theorem due_none (free : period (x.cells i) = none) (t : Nat) : due period t x i = 0 := by
  rw [due, free]
  rfl

theorem rest_none (free : period (x.cells i) = none) (t : Nat) :
    rest period t x i = x.phase i := by
  rw [rest, free]
  rfl

variable {step : σ → σ} {charge : Nat → Nat} {a : σ} {phase : Nat}

theorem serve_none (free : period a = none) :
    serve period step charge (a, phase) = (a, phase) := by
  rw [serve, free]
  rfl

theorem serve_some {p : Nat} (divider : period a = some p) :
    serve period step charge (a, phase) = (step^[charge phase / p] a, charge phase % p) := by
  rw [serve, divider]
  rfl

theorem serve_kept {I : σ → Prop} (kept : ∀ a, I a → I (step a)) {x : σ × Nat} (holds : I x.1) :
    I (serve period step charge x).1 := by
  rw [serve]
  cases period x.1 with
  | none => exact holds
  | some p =>
    exact Function.Iterate.rec I holds (fun a => kept a) (charge x.2 / p)

theorem due_some {p : Nat} (divider : period (x.cells i) = some p) (t : Nat) :
    due period t x i = (x.phase i + t) / p := by
  rw [due, divider]
  rfl

theorem rest_some {p : Nat} (divider : period (x.cells i) = some p) (t : Nat) :
    rest period t x i = (x.phase i + t) % p := by
  rw [rest, divider]
  rfl

end Dividers

/-- A component without a divider has nothing to do. -/
theorem turn_idle {x : Bank ι σ} {i : ι} (idle : period (x.cells i) = none) (t : Nat) :
    c.Turn period t i x x 0 := by
  rw [Turn, due_none idle, rest_none idle, Pi.single_zero, Function.update_eq_self]
  exact ⟨moves_refl c x.cells, rfl⟩

variable {c period} {t t' : Nat} {S : Finset ι} {x y z : Bank ι σ} {N M : ι → Nat}

/-- Component `j` alone has been served, seen from a component that no other one drives. -/
theorem Moves.serve_at {charge : Nat → Nat} {i j : ι} {p : Nat}
    (divider : period (x.cells j) = some p)
    (moves : c.Moves (Pi.single j (charge (x.phase j) / p)) 0 N x.cells y.cells)
    (phases : y.phase = Function.update x.phase j (charge (x.phase j) % p))
    (alone : ∀ k, c.next k ≠ some i) :
    (y.cells i, y.phase i) =
      if j = i then serve period c.step charge (x.cells i, x.phase i)
      else (x.cells i, x.phase i) := by
  have cell := moves.alone alone
  have phase := congrFun phases i
  by_cases here : j = i
  · subst here
    rw [Pi.single_eq_same] at cell
    rw [Function.update_self] at phase
    rw [if_pos rfl, serve_some divider, cell, phase]
  · have there : i ≠ j := Ne.symm here
    rw [Pi.single_eq_of_ne there] at cell
    rw [Function.update_of_ne there] at phase
    rw [if_neg here, cell, phase]
    rfl

omit [Fintype ι] [DecidableEq ι] in
theorem period_iterate (kept : ∀ a, period (c.step a) = period a) (n : Nat) (a : σ) :
    period (c.step^[n] a) = period a := by
  induction n generalizing a with
  | zero => rfl
  | succ n ih => rw [Function.iterate_succ_apply, ih, kept]

theorem served_empty (c : Cascade ι σ) (period : σ → Option Nat) (t : Nat) (x : Bank ι σ) :
    c.Served period t ∅ x x 0 :=
  ⟨moves_refl c x.cells, fun _ => rfl⟩

theorem Served.turn (kept : ∀ a, period (c.step a) = period a)
    (served : c.Served period t S x y N) {i : ι} (waiting : i ∉ S)
    (turn : c.Turn period t i y z M) : c.Served period t (insert i S) x z (N + M) := by
  obtain ⟨moves, phases⟩ := served
  obtain ⟨moves', phases'⟩ := turn
  have periods : period (y.cells i) = period (x.cells i) := by
    rw [moves.state, period_iterate kept]
  have phase : y.phase i = x.phase i := by rw [phases, if_neg waiting]
  have pulses : (fun j => if j ∈ S then due period t x j else 0) +
      Pi.single i (due period t y i) =
        fun j => if j ∈ insert i S then due period t x j else 0 := by
    funext j
    by_cases same : j = i
    · subst same
      simp [waiting, due, periods, phase]
    · simp [same]
  refine ⟨?_, fun j => ?_⟩
  · rw [← pulses]
    simpa using moves.trans moves'
  · rw [phases']
    by_cases same : j = i
    · subst same
      simp [rest, periods, phase]
    · rw [Function.update_of_ne same, phases]
      simp [same]

theorem Served.elapsed (served : c.Served period t Finset.univ x y N) :
    c.Elapsed period t x y N := by
  obtain ⟨moves, phases⟩ := served
  exact ⟨by simpa using moves, funext fun i => by simpa using phases i⟩

/-- A loop that takes the divider `p` off the phase of component `i` and gives the component
a pulse, as long as the phase allows. -/
theorem drained {τ : Type w} (view : τ → Bank ι σ) (I : τ → Prop) (loop : Nat → τ → τ) {i : ι}
    {p : Nat} (positive : 0 < p) (start : ∀ s, loop 0 s = s)
    (due : ∀ n s, I s → p ≤ (view s).phase i → ∃ s' N, loop (n + 1) s = loop n s' ∧ I s' ∧
      c.Moves (Pi.single i 1) 0 N (view s).cells (view s').cells ∧
      (view s').phase = Function.update (view s).phase i ((view s).phase i - p))
    (done : ∀ n s, (view s).phase i < p → loop (n + 1) s = s) {n : Nat} {s : τ} (holds : I s)
    (enough : (view s).phase i ≤ n) :
    ∃ N, c.Moves (Pi.single i ((view s).phase i / p)) 0 N (view s).cells (view (loop n s)).cells ∧
      (view (loop n s)).phase = Function.update (view s).phase i ((view s).phase i % p) := by
  have stop (s : τ) (below : (view s).phase i < p) :
      c.Moves (Pi.single i ((view s).phase i / p)) 0 0 (view s).cells (view s).cells ∧
        (view s).phase = Function.update (view s).phase i ((view s).phase i % p) := by
    rw [Nat.div_eq_of_lt below, Nat.mod_eq_of_lt below, Pi.single_zero, Function.update_eq_self]
    exact ⟨moves_refl c _, rfl⟩
  induction n generalizing s with
  | zero =>
    rw [start]
    exact ⟨0, stop s (Nat.lt_of_le_of_lt enough positive)⟩
  | succ n ih =>
    by_cases below : (view s).phase i < p
    · rw [done n s below]
      exact ⟨0, stop s below⟩
    · have ge : p ≤ (view s).phase i := Nat.le_of_not_lt below
      rcases due n s holds ge with ⟨s', N, next, holds', first, phase⟩
      have left : (view s').phase i = (view s).phase i - p := by
        rw [phase, Function.update_self]
      rcases ih holds' (by omega) with ⟨M, rest, phases⟩
      rw [left] at rest phases
      refine ⟨N + M, ?_, ?_⟩
      · rw [next, Nat.div_eq_sub_div positive ge, Nat.add_comm _ 1, Pi.single_add]
        exact first.trans rest
      · rw [next, phases, phase, Function.update_idem, Nat.mod_eq_sub_mod ge]

/-- A loop that serves one component after the other. -/
theorem Served.foldl {τ : Type w} {view : τ → Bank ι σ} {f : τ → ι → τ}
    (kept : ∀ a, period (c.step a) = period a)
    (turn : ∀ S s N i, c.Served period t S x (view s) N → i ∉ S →
      ∃ M, c.Turn period t i (view s) (view (f s i)) M)
    {l : List ι} (nodup : l.Nodup) (waiting : ∀ i ∈ l, i ∉ S) {s : τ}
    (served : c.Served period t S x (view s) N) :
    ∃ M, c.Served period t (S ∪ l.toFinset) x (view (l.foldl f s)) M := by
  induction l generalizing S s N with
  | nil => exact ⟨N, by simpa using served⟩
  | cons i l ih =>
    rw [List.nodup_cons] at nodup
    have new := waiting i List.mem_cons_self
    rcases turn S s N i served new with ⟨M, one⟩
    have rest : ∀ j ∈ l, j ∉ insert i S := by
      intro j later known
      rcases Finset.mem_insert.mp known with rfl | old
      · exact nodup.1 later
      · exact waiting j (List.mem_cons_of_mem i later) old
    rcases ih nodup.2 rest (served.turn kept new one) with ⟨K, all⟩
    refine ⟨K, ?_⟩
    rwa [List.toFinset_cons, Finset.union_insert, ← Finset.insert_union]

theorem Elapsed.phase_le (elapsed : c.Elapsed period t x y N) (i : ι) :
    y.phase i ≤ x.phase i + t := by
  rw [elapsed.2, rest]
  cases period (x.cells i) with
  | none => exact Nat.le_add_right _ _
  | some p => exact Nat.mod_le _ _

/-- What a divider has counted up to a moment, and from its phase then. -/
theorem div_add_div_mod (m n p : Nat) : m / p + (m % p + n) / p = (m + n) / p := by
  rcases Nat.eq_zero_or_pos p with rfl | positive
  · simp
  · have split : m + n = m % p + n + p * (m / p) := by
      have whole := Nat.mod_add_div m p
      omega
    rw [split, Nat.add_mul_div_left _ _ positive, Nat.add_comm]

/-- A divider that starts below a whole count makes at most one count more than the time holds. -/
theorem div_le_of_below {phase p : Nat} (below : phase < p) (t : Nat) :
    (phase + t) / p ≤ t / p + 1 := by
  have positive : 0 < p := Nat.zero_lt_of_lt below
  calc (phase + t) / p ≤ (t + p) / p := Nat.div_le_div_right (by omega)
    _ = t / p + 1 := Nat.add_div_right t positive

/-- Time can be split anywhere. -/
theorem Elapsed.trans (kept : ∀ a, period (c.step a) = period a)
    (first : c.Elapsed period t x y N) (second : c.Elapsed period t' y z M) :
    c.Elapsed period (t + t') x z (N + M) := by
  obtain ⟨moves, phases⟩ := first
  obtain ⟨moves', phases'⟩ := second
  have periods (i : ι) : period (y.cells i) = period (x.cells i) := by
    rw [moves.state, period_iterate kept]
  have pulses : due period t x + due period t' y = due period (t + t') x := by
    funext i
    simp only [Pi.add_apply, due, periods, phases, rest]
    cases period (x.cells i) with
    | none => rfl
    | some p =>
      simp only [Option.elim_some]
      rw [div_add_div_mod, Nat.add_assoc]
  refine ⟨?_, funext fun i => ?_⟩
  · rw [← pulses]
    simpa using moves.trans moves'
  · simp only [phases', rest, periods, phases]
    cases period (x.cells i) with
    | none => rfl
    | some p => simp only [Option.elim_some, Nat.mod_add_mod, Nat.add_assoc]

theorem Elapsed.unique {rank : ι → Nat} (acyclic : ∀ i j, c.next i = some j → rank i < rank j)
    (one : c.Elapsed period t x y N) (other : c.Elapsed period t x z M) : N = M ∧ y = z := by
  obtain ⟨steps, cells⟩ := one.1.unique acyclic other.1
  obtain ⟨yc, yp⟩ := y
  obtain ⟨zc, zp⟩ := z
  exact ⟨steps, congrArg₂ Bank.mk cells (one.2.trans other.2.symm)⟩

end Clock

section Countdown

/-- What a down-counter at `k` that reloads with `b` holds after `n` counts. -/
def countAfter (b k n : Nat) : Nat := if n ≤ k then k - n else b - (n - k - 1) % (b + 1)

/-- How often it has underflowed. -/
def underflows (b k n : Nat) : Nat := if n ≤ k then 0 else 1 + (n - k - 1) / (b + 1)

theorem countAfter_succ (b k n : Nat) :
    countAfter b k (n + 1) = countAfter b (if k = 0 then b else k - 1) n := by
  unfold countAfter
  by_cases zero : k = 0
  · subst zero
    rw [if_neg (Nat.not_succ_le_zero n), if_pos rfl]
    by_cases below : n ≤ b
    · rw [if_pos below, Nat.mod_eq_of_lt (by omega)]
      rfl
    · have wrap : n = n - b - 1 + (b + 1) := by omega
      rw [if_neg below, Nat.sub_zero, Nat.add_sub_cancel]
      conv_lhs => rw [wrap, Nat.add_mod_right]
  · rw [if_neg zero]
    by_cases below : n + 1 ≤ k
    · rw [if_pos below, if_pos (by omega)]
      omega
    · have same : n + 1 - k - 1 = n - (k - 1) - 1 := by omega
      rw [if_neg below, if_neg (by omega), same]

theorem underflows_succ (b k n : Nat) :
    underflows b k (n + 1) =
      (if k = 0 then 1 else 0) + underflows b (if k = 0 then b else k - 1) n := by
  unfold underflows
  by_cases zero : k = 0
  · subst zero
    rw [if_neg (Nat.not_succ_le_zero n), if_pos rfl, if_pos rfl]
    by_cases below : n ≤ b
    · rw [if_pos below, Nat.div_eq_of_lt (by omega)]
    · have wrap : n + 1 - 0 - 1 = n - b - 1 + (b + 1) := by omega
      have positive : 0 < b + 1 := Nat.succ_pos b
      rw [if_neg below, wrap, Nat.add_div_right _ positive]
      omega
  · rw [if_neg zero, if_neg zero, Nat.zero_add]
    by_cases below : n + 1 ≤ k
    · rw [if_pos below, if_pos (by omega)]
    · have same : n + 1 - k - 1 = n - (k - 1) - 1 := by omega
      rw [if_neg below, if_neg (by omega), same]

variable {c} {count : σ → Nat} {b : Nat}

omit [Fintype ι] [DecidableEq ι] in
/-- A component that counts down, from a state in the invariant `I`. -/
theorem countdown {I : σ → Prop} (inv : ∀ x, I x → I (c.step x))
    (carry : ∀ x, I x → c.carry x = decide (count x = 0))
    (step : ∀ x, I x → count (c.step x) = if count x = 0 then b else count x - 1) (n : Nat) {x : σ}
    (holds : I x) :
    count (c.step^[n] x) = countAfter b (count x) n ∧
      c.carries n x = underflows b (count x) n := by
  induction n generalizing x with
  | zero => simp [countAfter, underflows, carries]
  | succ n ih =>
    obtain ⟨counts, carries_⟩ := ih (inv x holds)
    rw [Function.iterate_succ_apply, counts, step x holds, countAfter_succ, carries, carries_,
      step x holds, underflows_succ, carry x holds]
    refine ⟨rfl, congrArg (· + _) ?_⟩
    by_cases zero : count x = 0 <;> simp [zero]

end Countdown

end Cascade
