import Mathlib.Data.List.Nodup
import Mathlib.Data.List.Perm.Subperm
import Mathlib.Logic.Function.Basic

/-!
# Exploration with a bounded worklist

A worklist takes up the nodes to visit, each at most once, and lists the nodes done.
Both are bounded by a capacity, beyond which nodes are dropped. Nothing is dropped
if the reachable nodes are no more than the capacity, and then exactly these are
done in the end.
-/

universe u

structure Worklist (α : Type u) where
  done : List α
  work : List α
  seen : α → Bool

namespace Worklist

variable {α : Type u} [DecidableEq α] (cap : Nat) (succ : α → List α)

def empty : Worklist α := { done := [], work := [], seen := fun _ => false }

def push (w : Worklist α) (a : α) : Worklist α :=
  if w.seen a then w
  else if cap ≤ w.work.length ∨ cap ≤ w.done.length then w
  else { w with work := a :: w.work, seen := Function.update w.seen a true }

def start (seeds : List α) : Worklist α := seeds.foldl (push cap) empty

/-- Visit a node that has just been taken off the worklist. -/
def visit (w : Worklist α) (a : α) : Worklist α :=
  if cap ≤ w.done.length then w
  else
    let w := (succ a).foldl (push cap) w
    { w with done := w.done ++ [a] }

def run : Nat → Worklist α → Worklist α
  | 0, w => w
  | n + 1, w =>
    match w.work with
    | [] => w
    | a :: rest => run n (visit cap succ { w with work := rest } a)

/-- The nodes that the exploration is about. -/
inductive Reach (seeds : List α) : α → Prop where
  | seed {a : α} : a ∈ seeds → Reach seeds a
  | succ {a b : α} : Reach seeds a → b ∈ succ a → Reach seeds b

/-- The reachable nodes are no more than the capacity. -/
def Fits (seeds : List α) : Prop :=
  ∃ bound : List α, bound.length ≤ cap ∧ ∀ a, Reach succ seeds a → a ∈ bound

variable {cap succ} {seeds : List α} {w : Worklist α}

omit [DecidableEq α] in
/-- A set that holds the seeds and is closed holds every reachable node. -/
theorem Reach.of_closed {I : α → Prop} {a : α} (reach : Reach succ seeds a)
    (seeded : ∀ b ∈ seeds, I b) (closed : ∀ b, I b → ∀ c ∈ succ b, I c) : I a := by
  induction reach with
  | seed h => exact seeded _ h
  | succ _ h ih => exact closed _ ih _ h

omit [DecidableEq α] in
theorem Reach.mono {seeds' : List α} {a : α} (reach : Reach succ seeds a)
    (more : ∀ b ∈ seeds, b ∈ seeds') : Reach succ seeds' a :=
  reach.of_closed (fun b hb => .seed (more b hb)) fun _ hb _ hc => .succ hb hc

section Push

@[simp] theorem push_done (w : Worklist α) (a : α) : (push cap w a).done = w.done := by
  unfold push
  split
  · rfl
  · split <;> rfl

@[simp] theorem pushes_done (as : List α) (w : Worklist α) :
    (as.foldl (push cap) w).done = w.done := by
  induction as generalizing w with
  | nil => rfl
  | cons a as ih => rw [List.foldl_cons, ih, push_done]

theorem push_work_le (a : α) (le : w.work.length ≤ cap) : (push cap w a).work.length ≤ cap := by
  unfold push
  split
  · exact le
  · split
    · exact le
    · simp only [List.length_cons]
      omega

theorem pushes_work_le (as : List α) (le : w.work.length ≤ cap) :
    (as.foldl (push cap) w).work.length ≤ cap := by
  induction as generalizing w with
  | nil => exact le
  | cons a as ih => exact ih (push_work_le a le)

end Push

/-- What holds of the nodes at hand: those done, those still to visit, and the one being
visited (`held`). None of them occurs twice, and all are seen and reachable. -/
structure Sound (seeds : List α) (succ : α → List α) (held : List α) (w : Worklist α) : Prop where
  nodup : (held ++ w.done ++ w.work).Nodup
  seen : ∀ a ∈ held ++ w.done ++ w.work, w.seen a = true
  reach : ∀ a ∈ held ++ w.done ++ w.work, Reach succ seeds a

section Sound

variable {held : List α}

theorem Sound.push {a : α} (sound : Sound seeds succ held w) (reach : Reach succ seeds a) :
    Sound seeds succ held (push cap w a) := by
  unfold Worklist.push
  split
  · exact sound
  · rename_i unseen
    split
    · exact sound
    · have new : a ∉ held ++ w.done ++ w.work := fun h => unseen (sound.seen a h)
      have moved : (held ++ w.done ++ a :: w.work).Perm (a :: (held ++ w.done ++ w.work)) :=
        List.perm_middle
      refine ⟨moved.nodup_iff.mpr (List.nodup_cons.mpr ⟨new, sound.nodup⟩), fun b hb => ?_,
        fun b hb => ?_⟩
      · obtain rfl | old := List.mem_cons.mp (moved.mem_iff.mp hb)
        · simp
        · by_cases same : b = a
          · simp [same]
          · simpa [Function.update_of_ne same] using sound.seen b old
      · obtain rfl | old := List.mem_cons.mp (moved.mem_iff.mp hb)
        · exact reach
        · exact sound.reach b old

theorem Sound.pushes {as : List α} (sound : Sound seeds succ held w)
    (reach : ∀ a ∈ as, Reach succ seeds a) :
    Sound seeds succ held (as.foldl (Worklist.push cap) w) := by
  induction as generalizing w with
  | nil => exact sound
  | cons a as ih =>
    exact ih (sound.push (reach a List.mem_cons_self))
      fun b hb => reach b (List.mem_cons_of_mem a hb)

theorem sound_start (cap : Nat) (seeds : List α) (succ : α → List α) :
    Sound seeds succ [] (start cap seeds) :=
  Sound.pushes ⟨List.nodup_nil, fun _ h => absurd h List.not_mem_nil,
    fun _ h => absurd h List.not_mem_nil⟩ fun _ h => .seed h

omit [DecidableEq α] in
/-- Taking a node off the worklist leaves it held. -/
theorem Sound.take {a : α} {rest : List α} (sound : Sound seeds succ [] w)
    (work : w.work = a :: rest) : Sound seeds succ [a] { w with work := rest } := by
  obtain ⟨nodup, seen, reach⟩ := sound
  rw [work] at nodup seen reach
  have moved : ([] ++ w.done ++ a :: rest).Perm ([a] ++ w.done ++ rest) := List.perm_middle
  exact ⟨moved.nodup_iff.mp nodup, fun b hb => seen b (moved.mem_iff.mpr hb),
    fun b hb => reach b (moved.mem_iff.mpr hb)⟩

theorem Sound.visit {a : α} (sound : Sound seeds succ [a] w) :
    Sound seeds succ [] (visit cap succ w a) := by
  have reach := sound.reach a (by simp)
  unfold Worklist.visit
  split
  · obtain ⟨nodup, seen, reach⟩ := sound
    exact ⟨(List.nodup_cons.mp nodup).2, fun b hb => seen b (List.mem_cons_of_mem a hb),
      fun b hb => reach b (List.mem_cons_of_mem a hb)⟩
  · obtain ⟨nodup, seen, reach⟩ : Sound seeds succ [a] ((succ a).foldl (Worklist.push cap) w) :=
      sound.pushes fun b hb => .succ reach hb
    simp only
    generalize (succ a).foldl (Worklist.push cap) w = w' at nodup seen reach ⊢
    have moved : ([] ++ (w'.done ++ [a]) ++ w'.work).Perm ([a] ++ w'.done ++ w'.work) := by
      simp
    exact ⟨moved.nodup_iff.mpr nodup, fun b hb => seen b (moved.mem_iff.mp hb),
      fun b hb => reach b (moved.mem_iff.mp hb)⟩

theorem Sound.run (n : Nat) (sound : Sound seeds succ [] w) :
    Sound seeds succ [] (run cap succ n w) := by
  induction n generalizing w with
  | zero => exact sound
  | succ n ih =>
    rw [Worklist.run]
    split
    · exact sound
    · rename_i a rest work
      exact ih (sound.take work).visit

end Sound

section Termination

theorem visit_done_le (a : α) (le : w.done.length ≤ cap) :
    (visit cap succ w a).done.length ≤ cap := by
  unfold visit
  split
  · exact le
  · simp only [pushes_done, List.length_append, List.length_singleton]
    omega

theorem run_done_le (n : Nat) (le : w.done.length ≤ cap) :
    (run cap succ n w).done.length ≤ cap := by
  induction n generalizing w with
  | zero => exact le
  | succ n ih =>
    rw [run]
    split
    · exact le
    · exact ih (visit_done_le _ le)

/-- At most `cap` visits get a node done, and `cap` more empty the worklist. -/
theorem run_work_nil {n : Nat} (bounded : w.work.length ≤ cap)
    (room : w.done.length < cap → cap - w.done.length + cap ≤ n)
    (full : cap ≤ w.done.length → w.work.length ≤ n) : (run cap succ n w).work = [] := by
  induction n generalizing w with
  | zero =>
    have none : w.work.length ≤ 0 := by omega
    exact List.length_eq_zero_iff.mp (Nat.le_zero.mp none)
  | succ n ih =>
    rw [run]
    split
    · assumption
    · rename_i a rest work
      rw [work, List.length_cons] at bounded full
      by_cases stop : cap ≤ w.done.length
      · have skipped : visit cap succ { w with work := rest } a = { w with work := rest } := by
          rw [visit, if_pos stop]
        rw [skipped]
        exact ih (by simp only; omega) (by simp only; omega) (by simp only; omega)
      · have pushed : ((succ a).foldl (push cap) { w with work := rest }).work.length ≤ cap :=
          pushes_work_le (succ a) (by simp only; omega)
        have visited : (visit cap succ { w with work := rest } a).done.length =
            w.done.length + 1 := by
          rw [visit, if_neg stop]
          simp
        have work_le : (visit cap succ { w with work := rest } a).work.length ≤ cap := by
          rw [visit, if_neg stop]
          exact pushed
        exact ih work_le (by omega) (by omega)

theorem run_start_work_nil (seeds : List α) {n : Nat} (enough : 2 * cap ≤ n) :
    (run cap succ n (start cap seeds)).work = [] := by
  have empty : (start cap seeds).done = [] := pushes_done _ _
  have bounded : (start cap seeds).work.length ≤ cap := pushes_work_le seeds (Nat.zero_le _)
  refine run_work_nil bounded ?_ ?_ <;> rw [empty]
  · intro _
    simp only [List.length_nil]
    omega
  · intro none
    exact Nat.le_trans bounded (by simp only [List.length_nil] at none; omega)

end Termination

section Completeness

/-- Nothing has been dropped: what is seen is at hand, and what a done node leads to is
seen. -/
structure Complete (succ : α → List α) (held : List α) (w : Worklist α) : Prop where
  kept : ∀ a, w.seen a = true → a ∈ held ++ w.done ++ w.work
  closed : ∀ a ∈ w.done, ∀ b ∈ succ a, w.seen b = true

variable {held : List α}

theorem push_seen_mono {a b : α} (h : w.seen b = true) : (push cap w a).seen b = true := by
  unfold push
  split
  · exact h
  · split
    · exact h
    · by_cases same : b = a
      · simp [same]
      · simpa [Function.update_of_ne same] using h

theorem pushes_seen_mono {as : List α} {b : α} (h : w.seen b = true) :
    (as.foldl (push cap) w).seen b = true := by
  induction as generalizing w with
  | nil => exact h
  | cons a as ih => exact ih (push_seen_mono h)

/-- As long as the reachable nodes fit, a pushed node is taken up. -/
theorem Complete.push {a : α} (fits : Fits cap succ seeds) (sound : Sound seeds succ held w)
    (complete : Complete succ held w) (reach : Reach succ seeds a) :
    Complete succ held (push cap w a) ∧ (push cap w a).seen a = true := by
  obtain ⟨bound, short, covers⟩ := fits
  by_cases known : w.seen a = true
  · rw [Worklist.push, if_pos known]
    exact ⟨complete, known⟩
  · have new : a ∉ held ++ w.done ++ w.work := fun h => known (sound.seen a h)
    have inside : (a :: (held ++ w.done ++ w.work)).length ≤ bound.length := by
      refine (List.subperm_of_subset (List.nodup_cons.mpr ⟨new, sound.nodup⟩) ?_).length_le
      intro b hb
      obtain rfl | old := List.mem_cons.mp hb
      · exact covers b reach
      · exact covers b (sound.reach b old)
    have room : ¬ (cap ≤ w.work.length ∨ cap ≤ w.done.length) := by
      simp only [List.length_cons, List.length_append] at inside
      omega
    rw [Worklist.push, if_neg known, if_neg room]
    refine ⟨⟨fun b hb => ?_, fun b hb c hc => ?_⟩, by simp⟩
    · have moved : (held ++ w.done ++ a :: w.work).Perm (a :: (held ++ w.done ++ w.work)) :=
        List.perm_middle
      refine moved.mem_iff.mpr ?_
      by_cases same : b = a
      · exact List.mem_cons.mpr (.inl same)
      · simp only [Function.update_of_ne same] at hb
        exact List.mem_cons_of_mem a (complete.kept b hb)
    · by_cases same : c = a
      · simp [same]
      · simpa [Function.update_of_ne same] using complete.closed b hb c hc

theorem Complete.pushes {as : List α} (fits : Fits cap succ seeds)
    (sound : Sound seeds succ held w) (complete : Complete succ held w)
    (reach : ∀ a ∈ as, Reach succ seeds a) :
    Complete succ held (as.foldl (Worklist.push cap) w) ∧
      ∀ a ∈ as, (as.foldl (Worklist.push cap) w).seen a = true := by
  induction as generalizing w with
  | nil => exact ⟨complete, fun a h => absurd h List.not_mem_nil⟩
  | cons a as ih =>
    have first := reach a List.mem_cons_self
    obtain ⟨next, taken⟩ := complete.push fits sound first
    obtain ⟨final, rest⟩ := ih (sound.push first) next
      fun b hb => reach b (List.mem_cons_of_mem a hb)
    refine ⟨final, fun b hb => ?_⟩
    obtain rfl | later := List.mem_cons.mp hb
    · exact pushes_seen_mono (w := Worklist.push cap w b) taken
    · exact rest b later

theorem complete_start (fits : Fits cap succ seeds) :
    Complete succ [] (start cap seeds) ∧ ∀ a ∈ seeds, (start cap seeds).seen a = true :=
  Complete.pushes fits ⟨List.nodup_nil, fun _ h => absurd h List.not_mem_nil,
    fun _ h => absurd h List.not_mem_nil⟩
    ⟨fun _ h => absurd h Bool.false_ne_true, fun _ h => absurd h List.not_mem_nil⟩
    fun _ h => .seed h

theorem Complete.visit {a : α} (fits : Fits cap succ seeds) (sound : Sound seeds succ [a] w)
    (complete : Complete succ [a] w) : Complete succ [] (visit cap succ w a) := by
  have reach := sound.reach a (by simp)
  obtain ⟨bound, short, covers⟩ := fits
  have room : ¬ cap ≤ w.done.length := by
    have inside := (List.subperm_of_subset sound.nodup fun b hb =>
      covers b (sound.reach b hb)).length_le
    simp only [List.length_append, List.length_singleton] at inside
    omega
  obtain ⟨⟨kept, closed⟩, taken⟩ :
      Complete succ [a] ((succ a).foldl (Worklist.push cap) w) ∧
        ∀ b ∈ succ a, ((succ a).foldl (Worklist.push cap) w).seen b = true :=
    complete.pushes ⟨bound, short, covers⟩ sound fun b hb => .succ reach hb
  rw [Worklist.visit, if_neg room]
  simp only
  generalize (succ a).foldl (Worklist.push cap) w = w' at kept closed taken ⊢
  refine ⟨fun b hb => ?_, fun b hb c hc => ?_⟩
  · have moved : ([] ++ (w'.done ++ [a]) ++ w'.work).Perm ([a] ++ w'.done ++ w'.work) := by
      simp
    exact moved.mem_iff.mpr (kept b hb)
  · obtain old | same := List.mem_append.mp hb
    · exact closed b old c hc
    · rw [List.mem_singleton.mp same] at hc
      exact taken c hc

theorem Complete.run {n : Nat} (fits : Fits cap succ seeds) (sound : Sound seeds succ [] w)
    (complete : Complete succ [] w) : Complete succ [] (run cap succ n w) := by
  induction n generalizing w with
  | zero => exact complete
  | succ n ih =>
    rw [Worklist.run]
    split
    · exact complete
    · rename_i a rest work
      refine ih (sound.take work).visit (Complete.visit fits (sound.take work) ⟨fun b hb => ?_,
        complete.closed⟩)
      have moved : ([] ++ w.done ++ a :: rest).Perm ([a] ++ w.done ++ rest) := List.perm_middle
      have held := complete.kept b hb
      rw [work] at held
      exact moved.mem_iff.mp held

theorem run_seen_mono {a : α} (n : Nat) (h : w.seen a = true) :
    (run cap succ n w).seen a = true := by
  induction n generalizing w with
  | zero => exact h
  | succ n ih =>
    rw [run]
    split
    · exact h
    · refine ih ?_
      unfold visit
      split
      · exact h
      · exact pushes_seen_mono h

/-- The nodes done are reachable, each once and no more than the capacity. -/
theorem run_sound (seeds : List α) (n : Nat) :
    let w := run cap succ n (start cap seeds)
    w.done.Nodup ∧ w.done.length ≤ cap ∧ ∀ a ∈ w.done, Reach succ seeds a := by
  obtain ⟨nodup, -, reach⟩ : Sound seeds succ [] (run cap succ n (start cap seeds)) :=
    (sound_start cap seeds succ).run n
  have empty : (start cap seeds).done = [] := pushes_done _ _
  exact ⟨(List.nodup_append.mp nodup).1, run_done_le n (by simp [empty]),
    fun a ha => reach a (List.mem_append_left _ ha)⟩

/-- If the reachable nodes fit, all of them are done in the end. -/
theorem run_complete {n : Nat} (fits : Fits cap succ seeds) (enough : 2 * cap ≤ n) {a : α}
    (reach : Reach succ seeds a) : a ∈ (run cap succ n (start cap seeds)).done := by
  have nothing : (run cap succ n (start cap seeds)).work = [] := run_start_work_nil seeds enough
  obtain ⟨started, seeded⟩ := complete_start fits
  obtain ⟨kept, closed⟩ := started.run (n := n) fits (sound_start cap seeds succ)
  have done_of_seen : ∀ b, (run cap succ n (start cap seeds)).seen b = true →
      b ∈ (run cap succ n (start cap seeds)).done := by
    intro b hb
    simpa [nothing] using kept b hb
  induction reach with
  | seed h => exact done_of_seen _ (run_seen_mono n (seeded _ h))
  | succ _ hb ih => exact done_of_seen _ (closed _ ih _ hb)

end Completeness

section First

theorem pushes_seen {as : List α} {b : α} (h : (as.foldl (push cap) w).seen b = true) :
    w.seen b = true ∨ b ∈ as := by
  induction as generalizing w with
  | nil => exact .inl h
  | cons a as ih =>
    rcases ih h with before | later
    · by_cases same : b = a
      · exact .inr (List.mem_cons.mpr (.inl same))
      · left
        unfold push at before
        split at before
        · exact before
        · split at before
          · exact before
          · exact (Function.update_of_ne same true w.seen).symm.trans before
    · exact .inr (List.mem_cons_of_mem a later)

theorem pushes_work_length (as : List α) :
    (as.foldl (push cap) w).work.length ≤ w.work.length + as.length := by
  induction as generalizing w with
  | nil => exact Nat.le_refl _
  | cons a as ih =>
    have one : (push cap w a).work.length ≤ w.work.length + 1 := by
      unfold push
      split
      · exact Nat.le_succ _
      · split
        · exact Nat.le_succ _
        · exact Nat.le_refl _
    have rest := ih (w := push cap w a)
    rw [List.foldl_cons, List.length_cons]
    omega

theorem run_done_mono {a : α} (n : Nat) (h : a ∈ w.done) : a ∈ (run cap succ n w).done := by
  induction n generalizing w with
  | zero => exact h
  | succ n ih =>
    rw [run]
    split
    · exact h
    · refine ih ?_
      unfold visit
      split
      · exact h
      · simp only [pushes_done]
        exact List.mem_append_left _ h

/-- The seed that comes last is done, however many nodes there are. -/
theorem run_last_seed {n : Nat} {a : α} (new : a ∉ seeds) (room : seeds.length < cap) :
    a ∈ (run cap succ (n + 1) (start cap (seeds ++ [a]))).done := by
  have none_ : (start cap seeds).done = [] := pushes_done _ _
  have unseen : ¬(start cap seeds).seen a = true := fun seen =>
    (pushes_seen seen).elim (fun before => Bool.false_ne_true before) new
  have short : (start cap seeds).work.length ≤ seeds.length := by
    have length : (start cap seeds).work.length ≤ 0 + seeds.length := pushes_work_length seeds
    exact Nat.le_trans length (Nat.le_of_eq (Nat.zero_add _))
  have last : start cap (seeds ++ [a]) = { start cap seeds with
      work := a :: (start cap seeds).work
      seen := Function.update (start cap seeds).seen a true } := by
    rw [start, List.foldl_append, List.foldl_cons, List.foldl_nil]
    change push cap (start cap seeds) a = _
    rw [push, if_neg unseen, if_neg]
    rw [none_, List.length_nil]
    omega
  rw [last, run]
  apply run_done_mono
  have first : ¬cap ≤ (start cap seeds).done.length := by
    rw [none_, List.length_nil]
    omega
  rw [visit, if_neg first]
  exact List.mem_append_right _ (List.mem_singleton_self a)

end First

end Worklist
