import LynxRecomp.Runtime.BlitSketch
import LynxRecomp.Runtime.Blitter
import LynxRecomp.Runtime.Mem

/-!
# The picture

The video buffer holds 160 by 102 pens of four bits. A call of `blit_pixel` changes the pen
of its own pixel and no other, though two pixels share a byte; the readout shows the pens.
-/

namespace LynxRecomp

open BusProgram

variable {η : Type}

section Halves

/-- The left (even) or right (odd) pixel of a byte -/
def half (byte : Byte) (odd : Bool) : BitVec 4 :=
  if odd then byte.setWidth 4 else (byte >>> 4).setWidth 4

theorem nibble_ext {a b : BitVec 4} (same : ∀ i : Fin 4, a[i] = b[i]) : a = b := by
  ext i h
  exact same ⟨i, h⟩

theorem half_left (cur nw : Byte) :
    half (cur &&& 0x0F ||| nw <<< 4) false = nw.setWidth 4 ∧
      half (cur &&& 0x0F ||| nw <<< 4) true = half cur true := by
  unfold half
  constructor <;> apply nibble_ext <;> intro i <;> match i with
  | 0 | 1 | 2 | 3 => simp

theorem half_right (cur nw : Byte) :
    half (cur &&& 0xF0 ||| nw &&& 0x0F) true = nw.setWidth 4 ∧
      half (cur &&& 0xF0 ||| nw &&& 0x0F) false = half cur false := by
  unfold half
  constructor <;> apply nibble_ext <;> intro i <;> match i with
  | 0 | 1 | 2 | 3 => simp

theorem half_low (cur : Byte) : (cur &&& 0x0F).setWidth 4 = half cur true := by
  unfold half
  apply nibble_ext
  intro i
  match i with
  | 0 | 1 | 2 | 3 => simp

theorem byte_of_halves (byte : Byte) : half byte false ++ half byte true = byte := by
  unfold half
  ext i h
  simp
  grind

/-- The pixel that is drawn takes the pen, or the pen XORed with its own. -/
theorem half_mixPixel (cur pen : Byte) (type : Nat) (odd : Bool) :
    half (mixPixel cur pen type odd) odd =
      if type = 7 then half cur odd ^^^ pen.setWidth 4 else pen.setWidth 4 := by
  cases odd with
  | false =>
    refine (half_left _ _).1.trans ?_
    by_cases xor : type = 7
    · rw [if_pos xor, if_pos xor, BitVec.setWidth_xor]
      rfl
    · rw [if_neg xor, if_neg xor]
  | true =>
    refine (half_right _ _).1.trans ?_
    by_cases xor : type = 7
    · rw [if_pos xor, if_pos xor, BitVec.setWidth_xor]
      exact congrArg (· ^^^ _) (half_low cur)
    · rw [if_neg xor, if_neg xor]

/-- Its neighbour keeps its pen. -/
theorem half_mixPixel_not (cur pen : Byte) (type : Nat) (odd : Bool) :
    half (mixPixel cur pen type odd) (!odd) = half cur (!odd) := by
  cases odd with
  | false => exact (half_left _ _).2
  | true => exact (half_right _ _).2

end Halves

/-- The pen of pixel `(x, y)` -/
def penAt (vidbas : Addr) (ram : Addr → Byte) (x y : Int) : BitVec 4 :=
  half (ram (pixelAddr vidbas x y)) (x % 2 == 1)

namespace Call

variable (c : Call)

def at_ (x y : Int) : Bool := c.x == x && c.y == y

/-- The call draws nothing: pen 0 unless the sprite is a background, and the edge pens of the
boundary types. -/
def Skipped : Prop :=
  1 < c.type ∧ c.pen = 0 ∨ c.type = 3 ∧ c.pen = 15 ∨ c.type = 5 ∧ (c.pen = 14 ∨ c.pen = 15)

instance : Decidable c.Skipped := by
  unfold Skipped
  infer_instance

/-- The pen of the pixel after the call, given the one before. -/
def ink (old : BitVec 4) : BitVec 4 :=
  if c.Skipped then old else if c.type = 7 then old ^^^ c.pen.setWidth 4 else c.pen.setWidth 4

theorem skipped_iff : transparent c.pen c.type = true ↔ c.Skipped := by
  unfold transparent Skipped
  simp only [Bool.and_eq_true, Bool.or_eq_true, decide_eq_true_eq, beq_iff_eq]
  constructor
  · rintro ⟨sprite, (zero | ⟨type, pen⟩) | ⟨type, pens⟩⟩
    · exact .inl ⟨sprite, zero⟩
    · exact .inr (.inl ⟨type, pen⟩)
    · exact .inr (.inr ⟨type, pens⟩)
  · rintro (⟨sprite, zero⟩ | ⟨type, pen⟩ | ⟨type, pens⟩)
    · exact ⟨sprite, .inl (.inl zero)⟩
    · exact ⟨by omega, .inl (.inr ⟨type, pen⟩)⟩
    · exact ⟨by omega, .inr ⟨type, pens⟩⟩

end Call

section Pixels

variable {vidbas : Addr} {x y : Int}

/-- Visible pixels share a byte if and only if they are neighbours. -/
theorem pixelAddr_inj (visible : onScreen x y = true) {x' y' : Int}
    (visible' : onScreen x' y' = true) :
    pixelAddr vidbas x y = pixelAddr vidbas x' y' ↔ y = y' ∧ x / 2 = x' / 2 := by
  have range := visible_bounds visible
  have range' := visible_bounds visible'
  have index := pixelIndex_lt visible
  have index' := pixelIndex_lt visible'
  rw [pixelAddr_eq vidbas visible, pixelAddr_eq vidbas visible', BitVec.add_right_inj]
  constructor
  · intro same
    have equal := congrArg BitVec.toNat same
    rw [BitVec.toNat_ofNat, BitVec.toNat_ofNat, Nat.mod_eq_of_lt (by omega),
      Nat.mod_eq_of_lt (by omega)] at equal
    unfold pixelIndex at equal
    omega
  · rintro ⟨row, column⟩
    rw [pixelIndex, pixelIndex, row, column]

/-- The memory after one call of `blit_pixel`. -/
abbrev drawnBy (vidbas : Addr) (ram : Addr → Byte) (c : Call) : Addr → Byte :=
  Sketch.painted (canvas vidbas) ram c

theorem drawnBy_eq (ram : Addr → Byte) (c : Call) :
    drawnBy vidbas ram c =
      if c.Skipped ∨ onScreen c.x c.y = false then ram
      else Function.update ram (pixelAddr vidbas c.x c.y)
        (mixPixel (ram (pixelAddr vidbas c.x c.y)) c.pen c.type (c.x % 2 == 1)) := by
  change ((blitPixel vidbas c.x c.y c.pen c.type).run memory ram).2 = _
  unfold blitPixel
  by_cases skipped : transparent c.pen c.type = true
  · rw [if_pos skipped, if_pos (.inl (c.skipped_iff.mp skipped))]
    rfl
  · have drawn : ¬ c.Skipped := fun h => skipped (c.skipped_iff.mpr h)
    rw [if_neg skipped]
    by_cases visible : onScreen c.x c.y = true
    · rw [if_neg (by rw [visible]; decide), if_neg (by simp [drawn, visible])]
      rfl
    · rw [Bool.not_eq_true] at visible
      rw [if_pos (by rw [visible]; rfl), if_pos (.inr visible)]
      rfl

/-- A call changes the pen of its pixel. -/
theorem penAt_drawnBy (visible : onScreen x y = true) (ram : Addr → Byte) (c : Call) :
    penAt vidbas (drawnBy vidbas ram c) x y =
      if c.at_ x y then c.ink (penAt vidbas ram x y) else penAt vidbas ram x y := by
  unfold penAt
  rw [drawnBy_eq]
  by_cases nothing : c.Skipped ∨ onScreen c.x c.y = false
  · rw [if_pos nothing]
    split
    · rename_i here
      have shown : onScreen c.x c.y = true := by
        simp only [Call.at_, Bool.and_eq_true, beq_iff_eq] at here
        rw [here.1, here.2]
        exact visible
      have skipped : c.Skipped := nothing.resolve_right (by rw [shown]; decide)
      rw [Call.ink, if_pos skipped]
    · rfl
  · rw [if_neg nothing]
    rcases not_or.mp nothing with ⟨drawn, shown⟩
    rw [Bool.not_eq_false] at shown
    by_cases same : pixelAddr vidbas x y = pixelAddr vidbas c.x c.y
    · rcases (pixelAddr_inj visible shown).mp same with ⟨row, byte⟩
      rw [same, Function.update_self]
      by_cases column : c.x = x
      · have here : c.at_ x y = true := by simp [Call.at_, column, row]
        rw [if_pos here, column, half_mixPixel, Call.ink, if_neg drawn]
      · have elsewhere : ¬ c.at_ x y = true := by simp [Call.at_, column]
        have other : (x % 2 == 1) = !(c.x % 2 == 1) := by
          rw [Bool.eq_iff_iff, Bool.not_eq_true', beq_iff_eq, beq_eq_false_iff_ne]
          omega
        rw [if_neg elsewhere, other, half_mixPixel_not]
    · have elsewhere : ¬ c.at_ x y = true := by
        simp only [Call.at_, Bool.and_eq_true, beq_iff_eq]
        rintro ⟨column, row⟩
        exact same (by rw [column, row])
      rw [if_neg elsewhere, Function.update_of_ne same]

/-- Calls change the pen of a pixel as if those made there were the only ones. -/
theorem penAt_foldl (visible : onScreen x y = true) (calls : List Call) (ram : Addr → Byte) :
    penAt vidbas (calls.foldl (drawnBy vidbas) ram) x y =
      (calls.filter (·.at_ x y)).foldl (fun old c => c.ink old) (penAt vidbas ram x y) := by
  induction calls generalizing ram with
  | nil => rfl
  | cons c calls ih =>
    rw [List.foldl_cons, ih, penAt_drawnBy visible]
    by_cases here : c.at_ x y = true
    · rw [if_pos here, List.filter_cons, if_pos here, List.foldl_cons]
    · rw [if_neg here, List.filter_cons, if_neg here]

theorem drawnBy_outside {a : Addr} (outside : ¬ inVideoBuffer vidbas a) (ram : Addr → Byte)
    (c : Call) : drawnBy vidbas ram c a = ram a :=
  (blitPixel_stores vidbas c.x c.y c.pen c.type).frame ram outside

/-- Memories with the same picture, and the same outside it, are the same. -/
theorem ram_ext (vidbas : Addr) {ram ram' : Addr → Byte}
    (picture : ∀ x y, onScreen x y = true → penAt vidbas ram x y = penAt vidbas ram' x y)
    (outside : ∀ a, ¬ inVideoBuffer vidbas a → ram a = ram' a) : ram = ram' := by
  funext a
  by_cases inside : inVideoBuffer vidbas a
  · rcases inside with ⟨k, small, rfl⟩
    change k < 8160 at small
    have left : onScreen (2 * (k % 80) : Nat) (k / 80 : Nat) = true := by
      apply decide_eq_true
      change 0 ≤ _ ∧ _ < 160 ∧ 0 ≤ _ ∧ _ < 102
      omega
    have right : onScreen (2 * (k % 80) + 1 : Nat) (k / 80 : Nat) = true := by
      apply decide_eq_true
      change 0 ≤ _ ∧ _ < 160 ∧ 0 ≤ _ ∧ _ < 102
      omega
    have index : pixelIndex (2 * (k % 80) : Nat) (k / 80 : Nat) = k := by
      unfold pixelIndex
      omega
    have place : pixelAddr vidbas (2 * (k % 80) : Nat) (k / 80 : Nat) =
        vidbas + BitVec.ofNat 16 k := by
      rw [pixelAddr_eq vidbas left, index]
    have neighbour : pixelAddr vidbas (2 * (k % 80) + 1 : Nat) (k / 80 : Nat) =
        vidbas + BitVec.ofNat 16 k := by
      rw [← place, pixelAddr_inj right left]
      omega
    have even : (((2 * (k % 80) : Nat) : Int) % 2 == 1) = false := by
      rw [beq_eq_false_iff_ne]
      omega
    have odd : (((2 * (k % 80) + 1 : Nat) : Int) % 2 == 1) = true := by
      rw [beq_iff_eq]
      omega
    have first := picture _ _ left
    have second := picture _ _ right
    rw [penAt, penAt, place, even] at first
    rw [penAt, penAt, neighbour, odd] at second
    rw [← byte_of_halves (ram _), first, second, byte_of_halves]
  · exact outside a inside

end Pixels

section Readout

/-- A sequence of calls of `blit_pixel` -/
def blitCalls (vidbas : Addr) : List Call → Dma Unit
  | [] => pure ()
  | c :: calls => do
    c.paint vidbas
    blitCalls vidbas calls

theorem blitCalls_run (vidbas : Addr) (calls : List Call) (ram : Addr → Byte) :
    ((blitCalls vidbas calls).run memory ram).2 = calls.foldl (drawnBy vidbas) ram := by
  induction calls generalizing ram with
  | nil => rfl
  | cons c calls ih =>
    rw [blitCalls, run_bind, List.foldl_cons]
    exact ih _

/-- The machine after calls of `blit_pixel` with the video buffer at VIDBAS. -/
def afterCalls (calls : List Call) (hw : Hw η) : Hw η :=
  { hw with ram := ((blitCalls (sreg16 hw.suzy suzyVidbasl) calls).run memory hw.ram).2 }

theorem half_setWidth (byte : Byte) (odd : Bool) :
    (if odd then byte &&& 0x0F else byte >>> 4) = (half byte odd).setWidth 8 := by
  unfold half
  cases odd with
  | false =>
    ext i h
    simp
    grind
  | true =>
    ext i h
    match i with
    | 0 | 1 | 2 | 3 | 4 | 5 | 6 | 7 => simp

theorem onScreen_fin (x : Fin screenW) (y : Fin screenH) : onScreen x.val y.val = true :=
  decide_eq_true ⟨Int.natCast_nonneg _, Int.ofNat_lt.mpr x.isLt, Int.natCast_nonneg _,
    Int.ofNat_lt.mpr y.isLt⟩

/-- The readout finds the pens where the blitter puts them, and shows their colours. -/
theorem lynxVideoRender_toNat (hw : Hw η) (y : Fin screenH) (x : Fin screenW) :
    (lynxVideoRender hw y x).toNat = paletteArgb hw.mikey
      (penAt (word16 (hw.mikey mikeyDispadrl) (hw.mikey mikeyDispadrh)) hw.ram x.val y.val) := by
  have place : word16 (hw.mikey mikeyDispadrl) (hw.mikey mikeyDispadrh) +
      BitVec.ofNat 16 (y.val * screenPitch) + BitVec.ofNat 16 (x.val / 2) =
        pixelAddr (word16 (hw.mikey mikeyDispadrl) (hw.mikey mikeyDispadrh)) x.val y.val := by
    have index : y.val * screenPitch + x.val / 2 = pixelIndex x.val y.val := by
      change y.val * 80 + x.val / 2 = ((y.val : Int) * 80 + (x.val : Int) / 2).toNat
      omega
    rw [pixelAddr_eq _ (onScreen_fin x y), ← index, BitVec.ofNat_add, BitVec.add_assoc]
  have odd : (((x.val : Nat) : Int) % 2 == 1) = decide (x.val % 2 = 1) := by
    rw [Bool.eq_iff_iff, beq_iff_eq, decide_eq_true_iff]
    omega
  rw [← lynxPaletteColor_toNat]
  unfold penAt
  rw [odd, ← half_setWidth, ← place]
  unfold lynxVideoRender
  simp only [decide_eq_true_eq]

/-- With the display and the blitter at the same address the readout shows, at every pixel, the
palette colour of the pen that the calls made there have left, whatever was drawn elsewhere. -/
theorem lynxVideoRender_shows (hw : Hw η)
    (same : sreg16 hw.suzy suzyVidbasl =
      word16 (hw.mikey mikeyDispadrl) (hw.mikey mikeyDispadrh))
    (calls : List Call) (y : Fin screenH) (x : Fin screenW) :
    (lynxVideoRender (afterCalls calls hw) y x).toNat = paletteArgb hw.mikey
      ((calls.filter (·.at_ x.val y.val)).foldl (fun old c => c.ink old)
        (penAt (sreg16 hw.suzy suzyVidbasl) hw.ram x.val y.val)) := by
  rw [lynxVideoRender_toNat, ← penAt_foldl (onScreen_fin x y), ← blitCalls_run, same]
  unfold afterCalls
  rw [same]

/-- A picture at `$F800` that goes on at `$0000`, where pen 6 is red with some green and blue. -/
def wrappedPicture : Hw Unit :=
  { Hw.zeroed () with
    suzy := { reg := fun r => if r = 0x09 then 0xF8 else 0, busy := 0 }
    mikey := fun r =>
      if r = 0x95 then 0xF8 else if r = 0xA6 then 0x03 else if r = 0xB6 then 0x5C else 0 }

/-- A normal sprite beside the last pixel, a background and an XOR sprite in it. -/
def wrappedCalls : List Call := [⟨158, 101, 9, 4⟩, ⟨159, 101, 5, 0⟩, ⟨159, 101, 3, 7⟩]

theorem wrappedPicture_shows :
    (lynxVideoRender (afterCalls wrappedCalls wrappedPicture) ⟨101, by decide⟩
      ⟨159, by decide⟩).toNat = 0xFFCC3355 :=
  (lynxVideoRender_shows wrappedPicture (by decide) wrappedCalls _ _).trans (by decide)

end Readout

end LynxRecomp
