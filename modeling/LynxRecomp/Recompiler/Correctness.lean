import LynxRecomp.Recompiler.Simulation

/-!
# When recompiled code does what the interpreter does

A run of the interpreter from the start of a routine to the matching `RTS` is followed by
the emitted code step by step, provided that no `RTS` is used to jump.
-/

namespace LynxRecomp

open Relation

variable {η : Type} {img : Image} {seeds : List Addr} {f : Addr} {hooks : Hooks η}
  {calls : Transfers η} {ret : Addr}

theorem codeCell_inImage (translated : Translated img seeds f) {a : Addr}
    (cell : CodeCell img f a) : inImage img a = true := by
  obtain ⟨gs, _, i, member, from_, below⟩ := cell
  obtain ⟨decoded, inside, _⟩ := body_decoded member
  have whole := body_whole member
  obtain ⟨low, high⟩ := translated.inRam
  obtain ⟨base, _⟩ := inImage_iff.mp inside
  have len := img.decode_len i.pc
  have next := img.decode_next i.pc
  rw [← decoded] at len next
  rw [inImage_iff]
  simp only [Image.avail, Image.off] at *
  constructor <;> bv_omega

theorem sim_start (translated : Translated img seeds f) {m : Machine η} (flags : m.cpu.FlagsOk)
    (room : 2 ≤ m.cpu.s) (holds : HoldsImage img m.hw.ram) :
    Sim img seeds f m.cpu.s ret (.entered f) [] (interpCalled f ret m)
      ⟨m, [(emittedFunction img seeds f).enter]⟩ := by
  have start := (translated.routines f .refl).start_mem translated.inRam
  have off := pushedReturn_off_stack ret m.cpu.s m.hw.ram
  refine ⟨rfl, flags, ?_, ?_, ⟨.refl, start⟩, fun a h => absurd h List.not_mem_nil,
    stacked_start m.hw.ram ret room, ⟨rfl, fun a outside => (off a outside).symm⟩, ?_⟩
  · exact congrArg (· :: []) (BitVec.add_zero _).symm
  · rw [linesAt_start start]
    rfl
  · intro a cell
    exact (off a (codeCell_off_stack translated cell)).trans
      (holds a (codeCell_inImage translated cell))

/-- A whole run of the interpreter. -/
theorem sim_run (translated : Translated img seeds f) (off_stack : hooks.OffStack) {m : Machine η}
    (flags : m.cpu.FlagsOk) (room : 2 ≤ m.cpu.s) (holds : HoldsImage img m.hw.ram)
    {s : InterpState η}
    (run : ReflTransGen (InterpState.Step hooks fun s =>
      s.Proper hooks (CodeCell img f) ∧ s.Balanced hooks) (interpCalled f ret m) s) :
    ∃ n act acts cs,
      CState.steps hooks { calls with tick := id } (emittedFile img seeds) n
          ⟨m, [(emittedFunction img seeds f).enter]⟩ = some cs ∧
        Sim img seeds f m.cpu.s ret act acts s cs := by
  induction run with
  | refl => exact ⟨0, _, _, _, rfl, sim_start translated flags room holds⟩
  | tail _ step ih =>
    obtain ⟨n, act, acts, cs, steps, sim⟩ := ih
    obtain ⟨going, ⟨proper, balanced⟩, rfl⟩ := step
    obtain ⟨k, act', acts', cs', steps', sim'⟩ :=
      sim.step translated off_stack proper balanced going
    exact ⟨n + k, act', acts', cs', steps_trans steps steps', sim'⟩

/-- At the `RTS` that matches the entry, the emitted function returns, too. -/
theorem sim_end (translated : Translated img seeds f) {m : Machine η} {act : Activation}
    {acts : List Activation} {s : InterpState η} {cs : CState η}
    (sim : Sim img seeds f m.cpu.s ret act acts s cs) (done : s.AtReturn hooks) :
    ∃ n, CState.steps hooks { calls with tick := id } (emittedFile img seeds) n cs =
        some ⟨cs.m, []⟩ ∧ SameEnd m ret (s.next hooks) cs.m := by
  obtain ⟨rts, last⟩ := done
  rw [sim.insn translated] at rts
  have empty := sim.own_eq_nil (by rw [last]; rfl)
  have stacked := sim.stacked
  have entries := sim.entries
  rw [empty] at stacked entries
  cases acts with
  | cons a acts => exact absurd (last.symm.trans entries) (by simp [entriesFrom, entriesUnder])
  | nil =>
    obtain ⟨back, up, sp⟩ := stacked.done
    have next : s.next hooks = _ := sim.next_eq translated (run_rts rts _ _ _ _)
    rw [back, up] at next
    refine ⟨_, (congrArg _ sim.state_eq).trans (steps_return sim.placed cs.m [] rts), ?_⟩
    rw [next]
    refine ⟨rfl, sp, sim.alike.rest, fun a outside => ?_⟩
    by_cases page : stackPage a
    · obtain ⟨p, rfl⟩ := eq_stackAddr page
      refine sim.stacked.above p ?_
      unfold stackAddr at outside
      bv_omega
    · exact sim.alike.ram a page

/-- The emitted code simulates the interpreter, as long as every `RTS` finds S as it was at
the entry of its routine. -/
theorem emitted_simulates_interp (hooks : Hooks η) (calls : Transfers η)
    (translated : Translated img seeds f) (off_stack : hooks.OffStack) :
    Simulates hooks calls img seeds f fun s =>
      s.Proper hooks (CodeCell img f) ∧ s.Balanced hooks := by
  intro m ret s flags room holds run done
  obtain ⟨n, act, acts, cs, steps, sim⟩ := sim_run translated off_stack flags room holds run
  obtain ⟨k, returned, same⟩ := sim_end translated sim done
  exact ⟨cs.m, ⟨_, n + k, find_eq img seeds translated.known, steps_trans steps returned⟩, same⟩

section Checking

/-- The routines that the one at `fs` calls, branches or jumps to. -/
def handsTo (img : Image) (fs : Addr) : List Addr :=
  ((body img fs).filter fun i =>
    decide (i.cflow = .call) || (i.jumps && !decide (i.target ∈ boundaries img fs))).map Insn.target

/-- The routines `gs` are all that `f` reaches, and all are translated completely. -/
theorem translated_of_closed {gs : List Addr} (inRam : img.InRam)
    (known : isFunc (analyzeDiscover img seeds) f = true) (member : f ∈ gs)
    (closed : ∀ g ∈ gs, handsTo img g ⊆ gs) (routines : ∀ g ∈ gs, Translatable img seeds g) :
    Translated img seeds f := by
  refine ⟨inRam, known, fun g reached => routines g ?_⟩
  induction reached with
  | refl => exact member
  | tail _ hands ih =>
    obtain ⟨i, inside, rfl, transfers⟩ := hands
    refine closed _ ih (List.mem_map_of_mem (List.mem_filter.mpr ⟨inside, ?_⟩))
    simpa using transfers

/-- A routine that hands over to one other routine, which hands over to none. -/
theorem translated_pair {g : Addr} (inRam : img.InRam) (found : starts img [f] = [f, g])
    (first : handsTo img f = [g]) (second : handsTo img g = [])
    (own : Translatable img [f] f) (other : Translatable img [f] g) : Translated img [f] f := by
  have known : isFunc (analyzeDiscover img [f]) f = true := by
    rw [isFunc_iff, found]
    exact List.mem_cons_self
  apply @translated_of_closed _ _ _ [f, g] inRam known List.mem_cons_self
  · intro h member
    rcases List.mem_pair.mp member with rfl | rfl
    · rw [first]
      exact List.subset_cons_self _ _
    · rw [second]
      exact List.nil_subset _
  · intro h member
    rcases List.mem_pair.mp member with rfl | rfl
    · exact own
    · exact other

/-- The program returns at once. -/
def silent {α : Type} : Code α → Bool
  | .ret _ => true
  | _ => false

/-- A proper step whose instruction accesses nothing but the stack. -/
def InterpState.StackOnly (hooks : Hooks η) (s : InterpState η) : Prop :=
  ((s.insn hooks).mnemonic.pushes = true → 0 < s.cpu.s) ∧
    ((s.insn hooks).mnemonic = .jsr → 1 < s.cpu.s) ∧
    ((s.insn hooks).mnemonic.pulls = true → ∃ e ∈ s.entries.head?, s.cpu.s < e) ∧
    ((s.insn hooks).mnemonic = .rts →
      ∃ e ∈ s.entries.head?, s.cpu.s = e ∨ s.cpu.s.toNat + 2 ≤ e.toNat) ∧
    ((s.insn hooks).mnemonic.usesStack = false →
      silent (interpExec (s.insn hooks) s.cpu) = true)

instance (s : InterpState η) : Decidable (s.StackOnly hooks) :=
  inferInstanceAs (Decidable (_ ∧ _ ∧ _ ∧ _ ∧ _))

instance (s : InterpState η) : Decidable (s.Balanced hooks) :=
  inferInstanceAs (Decidable (_ → _))

instance (s : InterpState η) : Decidable (s.AtReturn hooks) :=
  inferInstanceAs (Decidable (_ ∧ _))

theorem InterpState.StackOnly.proper {s : InterpState η} (only : s.StackOnly hooks)
    (code : Addr → Prop) : s.Proper hooks code := by
  obtain ⟨push, call, pull, ret, access⟩ := only
  refine ⟨push, call, pull, ret, fun other => ?_⟩
  have quiet := access other
  revert quiet
  cases interpExec (s.insn hooks) s.cpu <;> simp [silent, BusProgram.Accesses]

theorem run_iterate {ok : InterpState η → Prop} {s : InterpState η} {n : Nat}
    (steps : ∀ k < n, ¬ ((InterpState.next hooks)^[k] s).AtReturn hooks ∧
      ok ((InterpState.next hooks)^[k] s)) :
    ReflTransGen (InterpState.Step hooks ok) s ((InterpState.next hooks)^[n] s) := by
  induction n with
  | zero => exact .refl
  | succ n ih =>
    obtain ⟨going, holds⟩ := steps n (Nat.lt_succ_self n)
    exact (ih fun k below => steps k (Nat.lt_succ_of_lt below)).tail
      ⟨going, holds, Function.iterate_succ_apply' ..⟩

end Checking

section Examples

/-- A machine that holds an image, with an empty stack. -/
def machineWith (img : Image) : Machine Unit where
  cpu := { (Machine.zeroed ()).cpu with s := 0xFF }
  hw := (Hw.zeroed ()).withRam fun a => img.byte (img.off a)

/-- A host that does nothing. -/
def Transfers.idle : Transfers Unit where
  tick := id
  extJmp _ := id
  bootCall _ := id
  jmpIndirect _ := id
  unimpl _ := id

/-- `JSR $0204; RTS` and, at `$0204`, `INX; RTS` -/
def callImage : Image := ⟨0x0200, [0x20, 0x04, 0x02, 0x60, 0xE8, 0x60]⟩

theorem callImage_translated : Translated callImage [0x0200] 0x0200 := by
  have found : starts callImage [0x0200] = [0x0200, 0x0204] := by decide +kernel
  have first : handsTo callImage 0x0200 = [0x0204] := by decide +kernel
  have second : handsTo callImage 0x0204 = [] := by decide +kernel
  apply translated_pair ⟨by decide, by decide⟩ found first second
  · constructor <;> decide +kernel
  · constructor <;> decide +kernel

theorem callImage_simulated : ∃ m',
    Returns Hooks.none { Transfers.idle with tick := id } (emittedFile callImage [0x0200]) 0x0200
        (machineWith callImage) m' ∧
      SameEnd (machineWith callImage) 0x1234
        (((InterpState.next Hooks.none)^[3]
          (interpCalled 0x0200 0x1234 (machineWith callImage))).next Hooks.none) m' := by
  have run : ∀ k < 3,
      ¬ ((InterpState.next Hooks.none)^[k]
        (interpCalled 0x0200 0x1234 (machineWith callImage))).AtReturn Hooks.none ∧
      ((InterpState.next Hooks.none)^[k]
        (interpCalled 0x0200 0x1234 (machineWith callImage))).StackOnly Hooks.none ∧
      ((InterpState.next Hooks.none)^[k]
        (interpCalled 0x0200 0x1234 (machineWith callImage))).Balanced Hooks.none := by
    decide +kernel
  exact emitted_simulates_interp Hooks.none Transfers.idle callImage_translated Hooks.none_offStack
    (machineWith callImage) 0x1234 _ (by constructor <;> decide) (by decide) (fun _ _ => rfl)
    (run_iterate fun k below => ⟨(run k below).1, (run k below).2.1.proper _, (run k below).2.2⟩)
    (by decide +kernel)

/-- `JSR $0204; RTS` and, at `$0204`, a routine that pushes `$020C` and jumps with an `RTS` to
the `INX; RTS` at `$020D` -/
def trickImage : Image :=
  ⟨0x0200, [0x20, 0x04, 0x02, 0x60, 0xA9, 0x02, 0x48, 0xA9, 0x0C, 0x48, 0xF0, 0x01, 0x60, 0xE8,
    0x60]⟩

theorem trickImage_translated : Translated trickImage [0x0200] 0x0200 := by
  have found : starts trickImage [0x0200] = [0x0200, 0x0204] := by decide +kernel
  have first : handsTo trickImage 0x0200 = [0x0204] := by decide +kernel
  have second : handsTo trickImage 0x0204 = [] := by decide +kernel
  apply translated_pair ⟨by decide, by decide⟩ found first second
  · constructor <;> decide +kernel
  · constructor <;> decide +kernel

/-- What the emitted code leaves in X: the `INX` is never executed. -/
theorem trickImage_returns {m' : Machine Unit}
    (returns : Returns Hooks.none { Transfers.idle with tick := id }
      (emittedFile trickImage [0x0200]) 0x0200 (machineWith trickImage) m') : m'.cpu.x = 0 := by
  obtain ⟨g, n, found, run⟩ := returns
  have ends : ((emittedFile trickImage [0x0200]).find 0x0200).bind (fun g =>
      (CState.steps Hooks.none { Transfers.idle with tick := id }
        (emittedFile trickImage [0x0200]) 8 ⟨machineWith trickImage, [g.enter]⟩).map fun cs =>
          (cs.frames.length, cs.m.cpu.x)) = some (0, 0) := by
    decide +kernel
  rw [found, Option.bind_some, Option.map_eq_some_iff] at ends
  obtain ⟨⟨m, frames⟩, run', last⟩ := ends
  obtain ⟨none, x⟩ := Prod.mk.inj last
  obtain rfl := List.eq_nil_of_length_eq_zero none
  exact steps_unique run run' ▸ x

/-- An `RTS` that jumps to an address pushed by the routine itself is executed as a jump by
the interpreter and as a return by the emitted code. -/
theorem trickImage_not_simulated :
    Translated trickImage [0x0200] 0x0200 ∧ (Hooks.none : Hooks Unit).OffStack ∧
      ¬ Simulates Hooks.none Transfers.idle trickImage [0x0200] 0x0200 fun s =>
        s.Proper Hooks.none (CodeCell trickImage 0x0200) := by
  refine ⟨trickImage_translated, Hooks.none_offStack, fun simulates => ?_⟩
  have run : ∀ k < 9,
      ¬ ((InterpState.next Hooks.none)^[k]
        (interpCalled 0x0200 0x1234 (machineWith trickImage))).AtReturn Hooks.none ∧
      ((InterpState.next Hooks.none)^[k]
        (interpCalled 0x0200 0x1234 (machineWith trickImage))).StackOnly Hooks.none := by
    decide +kernel
  obtain ⟨m', returns, same⟩ := simulates (machineWith trickImage) 0x1234 _
    (by constructor <;> decide) (by decide) (fun _ _ => rfl)
    (run_iterate fun k below => ⟨(run k below).1, (run k below).2.proper _⟩) (by decide +kernel)
  have x := congrArg InterpCpu.x same.cpu
  have zero := x.trans (trickImage_returns returns)
  exact absurd zero (by decide +kernel)

end Examples

end LynxRecomp
