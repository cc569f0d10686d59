import LynxRecomp.Recompiler.LynxRun

/-!
# Frames

`run_until_flip` cuts a run into frames. The cuts leave no trace in the machine but the flip
flag, so the frames of `run_snapshot` and `run_capture` are those of one uninterrupted run, cut
where it flips the display.
-/

namespace LynxRecomp

namespace Lynxrun

open BusProgram

variable {η : Type} (l : Loaded)

section Flag

/-- The same state, with the flag raised as well if `b` -/
def State.raise (b : Bool) (s : State η) : State η := s.setFlip (b || s.flip)

def Machine.raise (b : Bool) (m : Machine η) : Machine η := { m with st := m.st.raise b }

theorem busRead_raise (b : Bool) (a : Addr) (s : State η) :
    busRead l a (s.raise b) = ((busRead l a s).1, (busRead l a s).2.raise b) := by
  unfold busRead
  by_cases cart : a = rcart0
  · rw [if_pos cart, if_pos cart]
    rfl
  · rw [if_neg cart, if_neg cart]
    by_cases map : a = mapctlAddr
    · rw [if_pos map, if_pos map]
      rfl
    · rw [if_neg map, if_neg map]
      by_cases rom : overlaid s.mapctl a = true
      · have rom' : overlaid (s.raise b).mapctl a = true := rom
        rw [if_pos rom, if_pos rom']
      · have rom' : ¬ overlaid (s.raise b).mapctl a = true := rom
        rw [if_neg rom, if_neg rom']
        rfl

theorem busWrite_raise (b : Bool) (a : Addr) (v : Byte) (s : State η) :
    busWrite .none a v (s.raise b) = (busWrite .none a v s).raise b := by
  unfold busWrite
  split
  · split
    · rfl
    · split
      · rfl
      · split
        · have up : (b || true) = true := Bool.or_true b
          simp [State.raise, State.setFlip]
        · rfl
  · split
    · rfl
    · rfl

theorem run_raise {α : Type} (b : Bool) (p : Code α) (s : State η) :
    p.run (bus .none l) (s.raise b) =
      ((p.run (bus .none l) s).1, (p.run (bus .none l) s).2.raise b) :=
  run_map p s (busRead_raise l b) (busWrite_raise b)

theorem pass_raise (time : Hw η → Hw η) (b : Bool) (irqs : Nat) (cpu : InterpCpu) (st : State η) :
    pass l time irqs cpu (st.raise b) = (pass l time irqs cpu st).raise b := by
  let later : State η := { st with hw := time st.hw }
  have irq := run_raise l b (interpIrq cpu) later
  by_cases due : lynxIrqPending later.hw ≠ 0 ∧ cpu.i = 0
  · have delivered : pass l time irqs cpu st =
        { cpu := ((interpIrq cpu).run (bus .none l) later).1
          st := ((interpIrq cpu).run (bus .none l) later).2, irqs := irqs + 1 } := if_pos due
    rw [delivered]
    refine (if_pos due).trans ?_
    exact congrArg (fun e => (⟨e.1, e.2, irqs + 1⟩ : Machine η)) irq
  · have quiet : pass l time irqs cpu st = { cpu := cpu, st := later, irqs := irqs } := if_neg due
    rw [quiet]
    exact if_neg due

theorem turn_raise (time : Hw η → Hw η) (b : Bool) (m : Machine η) :
    turn l time (m.raise b) = ((turn l time m).1, (turn l time m).2.raise b) := by
  unfold turn Machine.raise
  simp only [run_raise, pass_raise]
  rfl

/-- The flag is raised by what a turn does, or was up already. -/
theorem step_raise (time : Hw η → Hw η) (b : Bool) (m : Machine η) :
    step l time (m.raise b) = (step l time m).raise b := congrArg Prod.snd (turn_raise l time b m)

theorem iterate_raise (time : Hw η → Hw η) (b : Bool) (n : Nat) (m : Machine η) :
    (step l time)^[n] (m.raise b) = ((step l time)^[n] m).raise b :=
  Function.Semiconj.iterate_right (f := (Machine.raise b : Machine η → Machine η))
    (fun m => (step_raise l time b m).symm) n m |>.symm

end Flag

section Host

theorem lynxMemRead_host (a : Addr) (hw : Hw η) : (lynxMemRead a hw).2.host = hw.host := by
  unfold lynxMemRead
  split
  · rfl
  · split
    · unfold lynxMikeyRead
      split
      · rfl
      · split
        · unfold lynxSerialRead
          split
          · split
            · rfl
            · exact rxService_host _
          · rfl
        · rfl
    · rfl

theorem lynxSuzyWrite_host (off v : Byte) (hw : Hw η) :
    (lynxSuzyWrite off v hw).host = hw.host := by
  unfold lynxSuzyWrite
  split
  · split
    · rfl
    · rfl
  · split
    · rfl
    · split
      · rfl
      · rfl

theorem lynxSerialWrite_host (off v : Byte) (hw : Hw η) :
    (lynxSerialWrite .none off v hw).host = hw.host := by
  unfold lynxSerialWrite
  split
  · have sent : (if hw.host.txHook then (Hooks.none : Hooks η).tx v hw else hw) = hw := ite_self _
    rw [sent]
    dsimp only
    split
    · rfl
    · rfl
  · exact rxService_host _

theorem lynxMikeyWrite_host (off v : Byte) (hw : Hw η) :
    (lynxMikeyWrite .none off v hw).host = hw.host := by
  unfold lynxMikeyWrite
  split
  · rfl
  · split
    · rfl
    · split
      · rfl
      · split
        · exact lynxSerialWrite_host off v _
        · split
          · rfl
          · rfl

theorem lynxMemWrite_host (a : Addr) (v : Byte) (hw : Hw η) :
    (lynxMemWrite .none a v hw).host = hw.host := by
  unfold lynxMemWrite
  split
  · exact lynxSuzyWrite_host _ v hw
  · split
    · exact lynxMikeyWrite_host _ v hw
    · rfl

theorem busRead_host (a : Addr) (s : State η) : (busRead l a s).2.hw.host = s.hw.host := by
  unfold busRead
  split
  · rfl
  · split
    · rfl
    · split
      · rfl
      · exact lynxMemRead_host a s.hw

theorem busWrite_host (a : Addr) (v : Byte) (s : State η) :
    (busWrite .none a v s).hw.host = s.hw.host := by
  unfold busWrite
  split
  · refine (lynxMemWrite_host a v _).trans ?_
    split
    · rfl
    · split
      · rfl
      · split
        · rfl
        · rfl
  · split
    · exact lynxMemWrite_host a v s.hw
    · exact lynxMemWrite_host a v s.hw

/-- The program of the CPU has no way to the host. -/
theorem run_host {α : Type} (p : Code α) (s : State η) :
    (p.run (bus .none l) s).2.hw.host = s.hw.host := by
  apply run_keeps (I := fun t : State η => t.hw.host = s.hw.host)
  · exact fun a t kept => (busRead_host l a t).trans kept
  · exact fun a v t kept => (busWrite_host a v t).trans kept
  · rfl

theorem step_host (m : Machine η) : (step l videoTime m).st.hw.host = m.st.hw.host := by
  have ran := run_host l (interpStep m.cpu) m.st
  unfold step turn pass
  simp only
  split
  · exact (run_host l _ _).trans ran
  · exact ran

theorem iterate_host (n : Nat) (m : Machine η) :
    ((step l videoTime)^[n] m).st.hw.host = m.st.hw.host := by
  induction n with
  | zero => rfl
  | succ n ih =>
    rw [Function.iterate_succ_apply']
    exact (step_host l _).trans ih

end Host

section Frames

/-- The instruction of a turn writes to DISPADR. -/
def flips (m : Machine η) : Bool := (step l videoTime (m.setFlip false)).st.flip

theorem raise_setFlip (m : Machine η) : (m.setFlip false).raise m.st.flip = m := by
  unfold Machine.raise Machine.setFlip State.raise State.setFlip
  simp

theorem setFlip_raise (b : Bool) (m : Machine η) : (m.raise b).setFlip false = m.setFlip false :=
  rfl

/-- But for the flag, a run does not depend on it. -/
theorem iterate_setFlip (n : Nat) (m : Machine η) :
    ((step l videoTime)^[n] (m.setFlip false)).setFlip false =
      ((step l videoTime)^[n] m).setFlip false := by
  have raised := iterate_raise l videoTime m.st.flip n (m.setFlip false)
  rw [raise_setFlip] at raised
  rw [raised, setFlip_raise]

theorem flips_iterate (n : Nat) (m : Machine η) :
    flips l ((step l videoTime)^[n] (m.setFlip false)) = flips l ((step l videoTime)^[n] m) := by
  unfold flips
  rw [iterate_setFlip]

/-- From a state with the flag down, it is up after a turn that flips. -/
theorem flip_step {m : Machine η} (down : m.st.flip = false) :
    (step l videoTime m).st.flip = flips l m := by
  have same : m.setFlip false = m := by
    unfold Machine.setFlip State.setFlip
    rw [← down]
  rw [flips, same]

/-- What the flag is after each turn of a frame of `n` turns -/
def frameMarks (frame : Nat × Bool) : List Bool := List.replicate (frame.1 - 1) false ++ [frame.2]

/-- In a frame, no turn but the last one flips. -/
theorem frame_marks {budget n : Nat} {m m' : Machine η} (down : m.st.flip = false)
    (positive : 0 < n)
    (ends : Loops.Ends (step l videoTime) (fun m => m.st.flip) budget m n m') :
    (List.range n).map (fun k => flips l ((step l videoTime)^[k] m)) =
      frameMarks (n, m'.st.flip) := by
  obtain ⟨k, rfl⟩ := Nat.exists_eq_succ_of_ne_zero (Nat.ne_of_gt positive)
  have low (j : Nat) (inside : j < k + 1) : ((step l videoTime)^[j] m).st.flip = false := by
    cases j with
    | zero => exact down
    | succ j => exact ends.before (j + 1) j.succ_pos inside
  have turn (j : Nat) (inside : j < k + 1) : flips l ((step l videoTime)^[j] m) =
      ((step l videoTime)^[j + 1] m).st.flip := by
    rw [Function.iterate_succ_apply']
    exact (flip_step l (low j inside)).symm
  rw [List.range_succ, List.map_append, frameMarks, Nat.succ_sub_one]
  congr 1
  · apply List.eq_replicate_iff.mpr
    refine ⟨by simp, fun b member => ?_⟩
    rcases List.mem_map.mp member with ⟨j, inside, rfl⟩
    have below : j < k := List.mem_range.mp inside
    rw [turn j (Nat.lt_succ_of_lt below)]
    exact low (j + 1) (Nat.succ_lt_succ below)
  · rw [List.map_singleton, turn k (Nat.lt_succ_self k), ends.iterate]

/-- The controls are what `lynx_input_set(joy, 0)` makes them. -/
def Held (joy : Byte) (m : Machine η) : Prop :=
  m.st.hw.host.joystick = joy ∧ m.st.hw.host.switches = 0

theorem Held.setInput {joy : Byte} {m : Machine η} (held : Held joy m) :
    m.setInput joy 0 = m := by
  rcases held with ⟨rfl, switches⟩
  unfold Machine.setInput lynxInputSet
  rw [← switches]

theorem Held.iterate {joy : Byte} {m : Machine η} (held : Held joy m) (n : Nat) :
    Held joy ((step l videoTime)^[n] m) := by
  unfold Held
  rw [iterate_host]
  exact held

/-- One frame -/
structure Frame (budget : Nat) (m : Machine η) (frame : Nat × Machine η) : Prop where
  machine : frame.2 = (step l videoTime)^[frame.1] (m.setFlip false)
  marks : (List.range frame.1).map (fun k => flips l ((step l videoTime)^[k] m)) =
    frameMarks (frame.1, frame.2.st.flip)
  positive : 0 < frame.1
  within : frame.1 ≤ budget
  full : frame.2.st.flip = false → frame.1 = budget

theorem runUntilFlip_frame {budget : Nat} (some_ : 0 < budget) (m : Machine η) :
    Frame l budget m (runUntilFlip l budget m) := by
  have ends : Loops.Ends (step l videoTime) (fun m => m.st.flip) budget (m.setFlip false)
    (runUntilFlip l budget m).1 (runUntilFlip l budget m).2 := Loops.untilFlag_ends ..
  have positive : 0 < (runUntilFlip l budget m).1 := by
    rcases ends.last with used | ⟨positive, _⟩
    · rw [used]
      exact some_
    · exact positive
  refine ⟨ends.iterate, ?_, positive, ends.within, fun down => ?_⟩
  · rw [← frame_marks l rfl positive ends]
    exact List.map_congr_left fun k _ => (flips_iterate l k m).symm
  · rcases ends.last with used | ⟨_, up⟩
    · exact used
    · exact absurd (up.symm.trans down) (by decide)

/-- What a frame leaves goes on as the run that it is cut from. -/
theorem Frame.goesOn {budget : Nat} {m : Machine η} {frame : Nat × Machine η}
    (cut : Frame l budget m frame) (k : Nat) :
    ((step l videoTime)^[k] frame.2).setFlip false =
      ((step l videoTime)^[frame.1 + k] m).setFlip false := by
  rw [cut.machine, ← Function.iterate_add_apply, iterate_setFlip, Nat.add_comm]

/-- Frame after frame with the controls held, from a machine that has them -/
theorem runFrames_held (joy : Byte) {budget : Nat} (some_ : 0 < budget) (n : Nat) {m : Machine η}
    (held : Held joy m) :
    let r := runFrames l budget (List.replicate n joy) m
    let total := (r.1.map Prod.fst).sum
    r.2.setFlip false = ((step l videoTime)^[total] m).setFlip false ∧
      (List.range total).map (fun k => flips l ((step l videoTime)^[k] m)) =
        r.1.flatMap frameMarks ∧
      r.1.length = n ∧ ∀ frame ∈ r.1, 0 < frame.1 ∧ frame.1 ≤ budget ∧
        (frame.2 = false → frame.1 = budget) := by
  induction n generalizing m with
  | zero => exact ⟨rfl, rfl, rfl, fun _ none => absurd none List.not_mem_nil⟩
  | succ n ih =>
    have first : runFrames l budget (List.replicate (n + 1) joy) m =
        let frame := runUntilFlip l budget m
        let r := runFrames l budget (List.replicate n joy) frame.2
        ((frame.1, frame.2.st.flip) :: r.1, r.2) := by
      rw [List.replicate_succ, runFrames, held.setInput]
    have cut := runUntilFlip_frame l some_ m
    rw [first]
    generalize runUntilFlip l budget m = frame at cut
    have held' : Held joy frame.2 := by
      rw [cut.machine]
      exact Held.iterate l (m := m.setFlip false) held frame.1
    have rest := ih held'
    simp only [List.map_cons, List.sum_cons, List.flatMap_cons, List.length_cons]
    generalize runFrames l budget (List.replicate n joy) frame.2 = r at rest ⊢
    rcases rest with ⟨machine, marks, length, each⟩
    refine ⟨?_, ?_, congrArg (· + 1) length, ?_⟩
    · rw [machine]
      exact cut.goesOn l _
    · rw [List.range_add, List.map_append, List.map_map, ← cut.marks, ← marks]
      congr 1
      apply List.map_congr_left
      intro k _
      have same := cut.goesOn l k
      simp only [Function.comp_apply]
      unfold flips
      rw [same]
    · intro other member
      rcases List.mem_cons.mp member with rfl | later
      · exact ⟨cut.positive, cut.within, cut.full⟩
      · exact each other later

/-- However a run with the controls held is cut into frames, the machine is the one of a run
without cuts, but for the flag, and the flips of that run are exactly where frames end with
one. -/
theorem runFrames_uninterrupted (joy : Byte) (budget n : Nat) (m : Machine η) :
    let m := m.setInput joy 0
    let r := runFrames l (budget + 1) (List.replicate n joy) m
    let total := (r.1.map Prod.fst).sum
    r.2.setFlip false = ((step l videoTime)^[total] m).setFlip false ∧
      (List.range total).map (fun k => flips l ((step l videoTime)^[k] m)) =
        r.1.flatMap frameMarks ∧
      r.1.length = n ∧ ∀ frame ∈ r.1, 0 < frame.1 ∧ frame.1 ≤ budget + 1 ∧
        (frame.2 = false → frame.1 = budget + 1) :=
  runFrames_held l joy budget.succ_pos n ⟨rfl, rfl⟩

end Frames

section Samples

/-- `run_audio` captures a sample whenever another 44100th of a second is full: sample `k` shows
the machine after the first turn `n` with `(k + 1) * 1000000 ≤ n * 44100`, and they are as many
as the buffer and the time allow. -/
theorem runAudio_samples (total cap : Nat) (m : Machine η) :
    (runAudio l total cap m).1 =
        (List.range (min cap (total * audioRate / 1000000))).map
          (fun k => lynxAudioSample
            ((step l audioTime)^[Loops.due audioRate 1000000 0 k] m).st.hw) ∧
      ∀ k n, Loops.due audioRate 1000000 0 k ≤ n ↔ (k + 1) * 1000000 ≤ n * audioRate := by
  have positive : 0 < audioRate := by decide
  have slow : audioRate ≤ 1000000 := by decide
  constructor
  · have samples := Loops.pace_samples (step l audioTime)
      (fun m : Machine η => lynxAudioSample m.st.hw) positive slow total cap
      (Nat.zero_lt_of_lt (by decide : 0 < 1000000)) m
    rw [Nat.zero_add] at samples
    exact samples
  · intro k n
    have turn := @Loops.due_le_iff audioRate 1000000 0 positive k n
    rw [Nat.zero_add] at turn
    exact turn

end Samples

end Lynxrun

end LynxRecomp
