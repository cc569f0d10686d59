import LynxRecomp.Runtime.ControlBlock

/-!
# Where the blitter stops, and what it stores

Whatever the control blocks and the sprite data say, and even if the blitter draws over
them: every loop ends by itself, and every store goes to the video buffer.
-/

namespace LynxRecomp

open BusProgram

variable {η : Type}

/-- The video buffer, 102 lines of 80 bytes, which may wrap around. -/
def inVideoBuffer (vidbas a : Addr) : Prop :=
  ∃ k < screenPitch * screenH, a = vidbas + BitVec.ofNat 16 k

/-- The place of a pixel's byte in the video buffer -/
def pixelIndex (x y : Int) : Nat := (y * 80 + x / 2).toNat

theorem visible_bounds {x y : Int} (visible : onScreen x y = true) :
    0 ≤ x ∧ x < 160 ∧ 0 ≤ y ∧ y < 102 := of_decide_eq_true visible

theorem pixelIndex_lt {x y : Int} (visible : onScreen x y = true) : pixelIndex x y < 8160 := by
  have range := visible_bounds visible
  unfold pixelIndex
  omega

theorem pixelAddr_eq (vidbas : Addr) {x y : Int} (visible : onScreen x y = true) :
    pixelAddr vidbas x y = vidbas + BitVec.ofNat 16 (pixelIndex x y) := by
  have range := visible_bounds visible
  have sum : (vidbas.toNat : Int) + y * (screenPitch : Nat) + x / 2 =
      vidbas.toNat + (pixelIndex x y : Nat) := by
    rw [pixelIndex, Int.toNat_of_nonneg (by omega)]
    change _ + y * 80 + _ = _
    omega
  rw [pixelAddr, sum, BitVec.ofInt_add, BitVec.ofInt_natCast, BitVec.ofInt_natCast,
    BitVec.ofNat_toNat, BitVec.setWidth_eq]

theorem pixelAddr_inVideoBuffer (vidbas : Addr) {x y : Int} (visible : onScreen x y = true) :
    inVideoBuffer vidbas (pixelAddr vidbas x y) :=
  ⟨pixelIndex x y, pixelIndex_lt visible, pixelAddr_eq vidbas visible⟩

theorem dramRd_stores (W : Addr → Prop) (a : Addr) : (dramRd a).Stores W := fun _ => trivial

theorem bitsGetFrom_stores (W : Addr → Prop) (n : Nat) (v : Word) (b : Bitr) :
    (bitsGetFrom n v b).Stores W := by
  induction n generalizing v b with
  | zero => trivial
  | succ n ih =>
    intro byte
    simp only
    split
    · exact ih _ _
    · exact ih _ _

theorem blitPixel_stores (vidbas : Addr) (x y : Int) (pen : Byte) (type : Nat) :
    (blitPixel vidbas x y pen type).Stores (inVideoBuffer vidbas) := by
  unfold blitPixel
  split
  · trivial
  · split
    · trivial
    · rename_i visible
      intro cur
      exact ⟨pixelAddr_inVideoBuffer vidbas (by simpa using visible), trivial⟩

namespace Line

variable (l : Line)

theorem plot_stores (col : Int) (px : Byte) : (l.plot col px).Stores (inVideoBuffer l.vidbas) :=
  blitPixel_stores ..

theorem literal_stores (n : Nat) (bits col : Int) (br : Bitr) :
    (l.literal n bits col br).Stores (inVideoBuffer l.vidbas) := by
  induction n generalizing bits col br with
  | zero => trivial
  | succ n ih =>
    rw [literal]
    split
    · trivial
    · apply (bitsGetFrom_stores _ _ _ _).bind
      rintro ⟨v, br⟩
      apply (l.plot_stores _ _).bind
      intro _
      exact ih _ _ _

theorem literalRun_stores (n : Nat) (bits col : Int) (br : Bitr) :
    (l.literalRun n bits col br).Stores (inVideoBuffer l.vidbas) := by
  induction n generalizing bits col br with
  | zero => trivial
  | succ n ih =>
    rw [literalRun]
    split
    · trivial
    · apply (bitsGetFrom_stores _ _ _ _).bind
      rintro ⟨v, br⟩
      apply (l.plot_stores _ _).bind
      intro _
      exact ih _ _ _

theorem copies_stores (px : Byte) (n : Nat) (col : Int) :
    (l.copies px n col).Stores (inVideoBuffer l.vidbas) := by
  induction n generalizing col with
  | zero => trivial
  | succ n ih =>
    apply (l.plot_stores _ _).bind
    intro _
    exact ih _

theorem packed_stores (n : Nat) (bits col : Int) (br : Bitr) :
    (l.packed n bits col br).Stores (inVideoBuffer l.vidbas) := by
  induction n generalizing bits col br with
  | zero => trivial
  | succ n ih =>
    rw [packed]
    split
    · trivial
    · apply (bitsGetFrom_stores _ _ _ _).bind
      rintro ⟨flag, br⟩
      simp only
      split
      · apply (bitsGetFrom_stores _ _ _ _).bind
        rintro ⟨cnt, br⟩
        apply (l.literalRun_stores _ _ _ _).bind
        intro (bits, col, br)
        exact ih _ _ _
      · apply (bitsGetFrom_stores _ _ _ _).bind
        rintro ⟨cnt, br⟩
        simp only
        split
        · trivial
        · split
          · trivial
          · apply (bitsGetFrom_stores _ _ _ _).bind
            rintro ⟨v, br⟩
            apply (l.copies_stores _ _ _).bind
            intro col
            exact ih _ _ _

theorem draw_stores (literal : Bool) (offset : Byte) (dp : Addr) :
    (l.draw literal offset dp).Stores (inVideoBuffer l.vidbas) := by
  simp only [draw]
  split
  · trivial
  · split
    · exact l.literal_stores _ _ _ _
    · exact l.packed_stores _ _ _ _

end Line

theorem Sprite.lines_stores (s : Sprite) (n line : Nat) (dp : Addr) :
    (s.lines n line dp).Stores (inVideoBuffer s.vidbas) := by
  induction n generalizing line dp with
  | zero => trivial
  | succ n ih =>
    rw [Sprite.lines]
    apply (dramRd_stores _ _).bind
    intro offset
    by_cases last : offset = 0
    · rw [if_pos last]
      trivial
    · rw [if_neg last]
      apply Stores.bind
      · exact Line.draw_stores
          ⟨s.vidbas, s.sx, if s.vflip then s.sy - line else s.sy + line, s.hflip, s.bpp, s.type,
            s.pen⟩ _ _ _
      · intro _
        exact ih _ _

theorem loadPens_stores (W : Addr → Prop) (n i : Nat) (f : Addr) (pen : Fin 16 → Byte) :
    (loadPens n i f pen).Stores W := by
  induction n generalizing i f pen with
  | zero => trivial
  | succ n ih => exact fun _ => ih _ _ _

theorem readSprite_stores (W : Addr → Prop) (scb : Addr) (pen : Fin 16 → Byte) :
    (readSprite scb pen).Stores W := by
  have header : (readScb scb).Stores W := fun _ _ _ _ _ _ _ _ _ _ => trivial
  apply header.bind
  intro h
  apply Stores.bind
  · unfold Scb.pens
    split
    · exact loadPens_stores _ _ _ _ _
    · trivial
  · intro _
    trivial

theorem scbLoop_stores (vidbas : Addr) (hoff voff : Int) (n : Nat) (scb : Addr)
    (pen : Fin 16 → Byte) :
    (scbLoop vidbas hoff voff n scb pen).Stores (inVideoBuffer vidbas) := by
  induction n generalizing scb pen with
  | zero => trivial
  | succ n ih =>
    by_cases last : scb = 0
    · rw [scbLoop, if_pos last]
      trivial
    · rw [scbLoop_succ _ _ _ _ last]
      apply (readSprite_stores _ _ _).bind
      rintro ⟨h, pen⟩
      apply Stores.bind
      · unfold Scb.draw
        split
        · exact Sprite.lines_stores (h.sprite vidbas hoff voff pen) _ _ _
        · trivial
      · intro _
        exact ih _ _

theorem blitProgram_stores (s : Suzy) :
    (blitProgram s).Stores (inVideoBuffer (sreg16 s suzyVidbasl)) := scbLoop_stores ..

section Fuel

variable (l : Line)

/-- A literal line ends after a pixel for each `bpp` bits, if not before. -/
theorem Line.literal_fuel (drawn : 0 < l.bpp) {n m : Nat} {bits : Int} (enough : bits.toNat < n)
    (enough' : bits.toNat < m) (col : Int) (br : Bitr) :
    l.literal n bits col br = l.literal m bits col br := by
  induction n generalizing m bits col br with
  | zero => exact absurd enough (Nat.not_lt_zero _)
  | succ n ih =>
    cases m with
    | zero => exact absurd enough' (Nat.not_lt_zero _)
    | succ m =>
      rw [literal, literal]
      by_cases short : bits < l.bpp
      · rw [if_pos short, if_pos short]
      · rw [if_neg short, if_neg short]
        apply bind_congr
        rintro ⟨v, br⟩
        apply bind_congr
        intro _
        apply ih <;> omega

/-- A run of pixels uses bits up, and adds none. -/
theorem Line.literalRun_bits (n : Nat) (bits col : Int) (br : Bitr) :
    (l.literalRun n bits col br).Always fun after => after.1 ≤ bits := by
  induction n generalizing bits col br with
  | zero => exact Int.le_refl bits
  | succ n ih =>
    rw [literalRun]
    split
    · exact Int.le_refl bits
    · apply (always_true _).bind
      intro (v, br) _
      apply (always_true _).bind
      intro _ _
      apply (ih (bits - l.bpp) (col + 1) br).mono
      intro after less
      omega

/-- A packed line ends after a packet for each bit, if not before. -/
theorem Line.packed_fuel {n m : Nat} {bits : Int} (enough : bits.toNat < n)
    (enough' : bits.toNat < m) (col : Int) (br : Bitr) :
    l.packed n bits col br = l.packed m bits col br := by
  induction n generalizing m bits col br with
  | zero => exact absurd enough (Nat.not_lt_zero _)
  | succ n ih =>
    cases m with
    | zero => exact absurd enough' (Nat.not_lt_zero _)
    | succ m =>
      rw [packed, packed]
      by_cases none : bits ≤ 0
      · rw [if_pos none, if_pos none]
      · rw [if_neg none, if_neg none]
        apply bind_congr
        rintro ⟨flag, br⟩
        simp only
        split
        · apply bind_congr
          rintro ⟨cnt, br⟩
          apply (l.literalRun_bits _ _ _ _).bind_congr
          intro (left, col, br) less
          simp only at less
          apply ih <;> omega
        · apply bind_congr
          rintro ⟨cnt, br⟩
          simp only
          split
          · rfl
          · split
            · rfl
            · apply bind_congr
              rintro ⟨v, br⟩
              apply bind_congr
              intro col
              apply ih <;> omega

end Fuel

/-- The blitter ends, is not busy then, and has changed nothing but the video buffer. The
loops over lines and control blocks have guards of their own; more turns of the loops over
the bits of a line than the model allows make no difference. -/
theorem lynxSuzyBlit_effect (hw : Hw η) :
    (lynxSuzyBlit hw).suzy.busy = 0 ∧ (lynxSuzyBlit hw).suzy.reg = hw.suzy.reg ∧
    (∀ a, (lynxSuzyBlit hw).ram a = hw.ram a ∨
      ∃ k < 80 * 102, a = sreg16 hw.suzy suzyVidbasl + BitVec.ofNat 16 k) ∧
    lynxSuzyBlit hw = { hw with suzy := (lynxSuzyBlit hw).suzy, ram := (lynxSuzyBlit hw).ram } ∧
    ∀ (h : Scb) (l : Line) (bits col : Int) (br : Bitr) (more : Nat),
      Line.literal { l with bpp := h.bpp } (bits.toNat + 1 + more) bits col br =
        Line.literal { l with bpp := h.bpp } (bits.toNat + 1) bits col br ∧
      Line.packed { l with bpp := h.bpp } (bits.toNat + 1 + more) bits col br =
        Line.packed { l with bpp := h.bpp } (bits.toNat + 1) bits col br := by
  refine ⟨rfl, rfl, ?_, rfl, ?_⟩
  · intro a
    by_cases inside : inVideoBuffer (sreg16 hw.suzy suzyVidbasl) a
    · exact .inr inside
    · exact .inl ((blitProgram_stores hw.suzy).frame hw.ram inside)
  · intro h l bits col br more
    constructor
    · apply Line.literal_fuel
      · exact Nat.succ_pos _
      · omega
      · omega
    · apply Line.packed_fuel
      · omega
      · omega

end LynxRecomp
