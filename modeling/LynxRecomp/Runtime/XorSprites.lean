import LynxRecomp.Runtime.Picture

/-!
# XOR sprites

XOR sprites that are drawn twice disappear: the second run makes the same calls as the
first, and in every pixel a pen that is XORed in twice cancels out.
-/

namespace LynxRecomp

open BusProgram

variable {η : Type}

section Runs

variable {vidbas : Addr}

/-- The memories differ in the video buffer at most. -/
def AgreeOutside (vidbas : Addr) (m m' : Addr → Byte) : Prop :=
  ∀ a, ¬ inVideoBuffer vidbas a → m' a = m a

theorem foldl_drawnBy_outside (calls : List Call) (m : Addr → Byte) :
    AgreeOutside vidbas m (calls.foldl (drawnBy vidbas) m) := by
  intro a outside
  induction calls generalizing m with
  | nil => rfl
  | cons c calls ih => rw [List.foldl_cons, ih, drawnBy_outside outside]

theorem drawn_outside {α : Type} (q : Blit α) (m : Addr → Byte) :
    AgreeOutside vidbas m (q.drawn (canvas vidbas) m) := by
  rw [Sketch.drawn_eq_foldl]
  exact foldl_drawnBy_outside _ m

/-- What is fetched lies outside the video buffer. -/
def FetchedOutside {α : Type} (vidbas : Addr) (q : Blit α) (m : Addr → Byte) : Prop :=
  ∀ f ∈ q.fetches (canvas vidbas) m, ¬ inVideoBuffer vidbas f.addr

/-- Over a memory that differs in the video buffer alone, the calls are the same. -/
theorem FetchedOutside.calls {α : Type} {q : Blit α} {m m' : Addr → Byte}
    (outside : FetchedOutside vidbas q m) (agree : AgreeOutside vidbas m m') :
    q.strokes (canvas vidbas) m' = q.strokes (canvas vidbas) m := by
  have runs := Sketch.run_related (canvas vidbas) (R := AgreeOutside vidbas) (g := id)
    (S := fun f => ¬ inVideoBuffer vidbas f.addr) (fun f m m' apart agree => agree _ apart)
    (fun c m m' agree a apart => by
      have first := drawnBy_outside apart m c
      have second := drawnBy_outside apart m' c
      exact second.trans ((agree a apart).trans first.symm))
    outside agree
  rw [Sketch.mapStrokes_id, List.map_id] at runs
  exact runs.2.1

end Runs

section Xor

/-- The pens of XOR sprites cancel out in any order. -/
theorem foldl_ink_xor {calls : List Call} (xor : ∀ c ∈ calls, c.type = 7) :
    ∃ mask, ∀ old, calls.foldl (fun old c => c.ink old) old = old ^^^ mask := by
  induction calls with
  | nil => exact ⟨0, fun old => (BitVec.xor_zero).symm⟩
  | cons c calls ih =>
    rcases ih fun c later => xor c (List.mem_cons_of_mem _ later) with ⟨mask, rest⟩
    have type := xor c List.mem_cons_self
    by_cases skipped : c.Skipped
    · refine ⟨mask, fun old => ?_⟩
      rw [List.foldl_cons, Call.ink, if_pos skipped, rest]
    · refine ⟨c.pen.setWidth 4 ^^^ mask, fun old => ?_⟩
      rw [List.foldl_cons, Call.ink, if_neg skipped, if_pos type, rest, BitVec.xor_assoc]

/-- XOR calls made twice leave memory as it was. -/
theorem foldl_xor_twice {calls : List Call} (xor : ∀ c ∈ calls, c.type = 7) (vidbas : Addr)
    (m : Addr → Byte) :
    calls.foldl (drawnBy vidbas) (calls.foldl (drawnBy vidbas) m) = m := by
  apply ram_ext vidbas
  · intro x y visible
    rw [penAt_foldl visible, penAt_foldl visible]
    have here : ∀ c ∈ calls.filter (·.at_ x y), c.type = 7 :=
      fun c made => xor c (List.mem_of_mem_filter made)
    rcases foldl_ink_xor here with ⟨mask, cancels⟩
    rw [cancels, cancels, BitVec.xor_assoc, BitVec.xor_self, BitVec.xor_zero]
  · intro a outside
    rw [foldl_drawnBy_outside calls _ a outside, foldl_drawnBy_outside calls _ a outside]

end Xor

/-- The bytes that a run of the blitter reads as control blocks and as sprite data. -/
def blitFetches (hw : Hw η) : List Fetch :=
  (blitSketch hw.suzy).fetches (canvas (sreg16 hw.suzy suzyVidbasl)) hw.ram

theorem lynxSuzyBlit_ram (hw : Hw η) :
    (lynxSuzyBlit hw).ram =
      (blitSketch hw.suzy).drawn (canvas (sreg16 hw.suzy suzyVidbasl)) hw.ram :=
  congrArg (fun p : Dma Unit => (p.run memory hw.ram).2) (blitSketch_dma hw.suzy).symm

/-- If all control blocks are of XOR sprites, all calls are. -/
theorem scbLoopSketch_xor {vidbas : Addr} {hoff voff : Int} {n : Nat} {scb : Addr}
    {pen : Fin 16 → Byte} {m m₀ : Addr → Byte} (agree : AgreeOutside vidbas m₀ m)
    (outside : FetchedOutside vidbas (scbLoopSketch vidbas hoff voff n scb pen) m)
    (xor : ∀ f ∈ (scbLoopSketch vidbas hoff voff n scb pen).fetches (canvas vidbas) m,
      f.part = .ctl0 → m₀ f.addr &&& 7 = 7) :
    ∀ c ∈ (scbLoopSketch vidbas hoff voff n scb pen).strokes (canvas vidbas) m, c.type = 7 := by
  induction n generalizing scb pen m with
  | zero => exact fun c none => absurd none List.not_mem_nil
  | succ n ih =>
    by_cases last : scb = 0
    · rw [scbLoopSketch, if_pos last]
      exact fun c none => absurd none List.not_mem_nil
    · unfold FetchedOutside at outside
      rw [scbLoopSketch_fetches last] at outside xor
      rw [scbLoopSketch_strokes last]
      simp only [List.forall_mem_append] at outside xor ⊢
      rcases outside with ⟨header, -, -, later⟩
      rcases xor with ⟨block, -, -, blocks⟩
      have ctl0 : (⟨.ctl0, scb⟩ : Fetch) ∈ headerFetches scb := List.mem_cons_self
      have type : ((scbAt m scb).ctl0 &&& 7).toNat = 7 := by
        have byte : (scbAt m scb).ctl0 = m₀ scb := agree scb (header _ ctl0)
        rw [byte, block _ ctl0 rfl]
        rfl
      have made : (turnSketch vidbas hoff voff m scb pen).Only (fun _ => True)
          fun c : Call => c.type = 7 :=
        turnSketch_only (fun _ => trivial) (fun _ => trivial) fun _ _ _ => type
      constructor
      · exact made.strokes m
      · apply ih _ later blocks
        intro a apart
        rw [drawn_outside _ m a apart, agree a apart]

/-- Two runs of the blitter over XOR sprites leave memory as it was. -/
theorem lynxSuzyBlit_xor_twice (hw : Hw η)
    (xor : ∀ f ∈ blitFetches hw, f.part = .ctl0 → hw.ram f.addr &&& 7 = 7)
    (outside : ∀ f ∈ blitFetches hw, ¬ inVideoBuffer (sreg16 hw.suzy suzyVidbasl) f.addr) :
    (lynxSuzyBlit (lynxSuzyBlit hw)).ram = hw.ram := by
  have type := scbLoopSketch_xor (fun _ _ => rfl) outside xor
  have calls := FetchedOutside.calls outside (drawn_outside (blitSketch hw.suzy) hw.ram)
  have second : (lynxSuzyBlit (lynxSuzyBlit hw)).ram =
      (blitSketch hw.suzy).drawn (canvas (sreg16 hw.suzy suzyVidbasl)) (lynxSuzyBlit hw).ram :=
    lynxSuzyBlit_ram (lynxSuzyBlit hw)
  rw [second, lynxSuzyBlit_ram, Sketch.drawn_eq_foldl, calls, Sketch.drawn_eq_foldl]
  exact foldl_xor_twice type _ _

theorem not_inVideoBuffer {vidbas a : Addr} (fits : vidbas.toNat + 8160 ≤ 65536)
    (below : a < vidbas) : ¬ inVideoBuffer vidbas a := by
  rintro ⟨k, small, rfl⟩
  change k < 8160 at small
  rw [BitVec.lt_def, BitVec.toNat_add, BitVec.toNat_ofNat] at below
  omega

/-- A machine with a control block at `$0400`, which the blitter is to draw at `$C000`. -/
def spriteMachine (block data : List Byte) : Hw Unit :=
  { Hw.zeroed () with
    suzy := { reg := fun r => if r = 0x09 then 0xC0 else if r = 0x11 then 0x04 else 0, busy := 0 }
    ram := fun a => holding block 0x0400 a ||| holding data 0x0420 a }

/-- An XOR sprite of eight pixels with pen 5 at (10, 8) -/
def xorMachine : Hw Unit :=
  spriteMachine [0x07, 0x80, 0, 0, 0, 0x20, 0x04, 10, 0, 8, 0, 0x05] [2, 0xFF, 0]

theorem xorMachine_twice :
    (lynxSuzyBlit xorMachine).ram ≠ xorMachine.ram ∧
      (lynxSuzyBlit (lynxSuzyBlit xorMachine)).ram = xorMachine.ram := by
  constructor
  · intro same
    have pixel := congrFun same 0xC285
    revert pixel
    decide
  · apply lynxSuzyBlit_xor_twice
    · decide +kernel
    · have below : ∀ f ∈ blitFetches xorMachine, f.addr < 0xC000 := by decide +kernel
      exact fun f fetched => not_inVideoBuffer (by decide) (below f fetched)

end LynxRecomp
