import LynxRecomp.Lib.Sketch
import LynxRecomp.Runtime.ControlBlock
import LynxRecomp.Runtime.SpriteLine

/-!
# The blitter as a sketch

The blitter fetches control blocks, palettes and sprite data, and calls `blit_pixel`. The
sketch keeps these two apart, and says of each byte fetched what it is fetched as.
-/

namespace LynxRecomp

open BusProgram

/-- A call of `blit_pixel`. -/
structure Call where
  x : Int
  y : Int
  pen : Byte
  type : Nat
  deriving DecidableEq, Repr

namespace Call

variable (c : Call)

def paint (vidbas : Addr) : Dma Unit := blitPixel vidbas c.x c.y c.pen c.type

end Call

/-- What a byte is fetched as: a part of a control block, or of the data of a sprite. -/
inductive Part where
  | ctl0 | ctl1 | next | data | hpos | vpos | palette | offset | bits
  deriving DecidableEq, Repr

structure Fetch where
  part : Part
  addr : Addr
  deriving DecidableEq, Repr

abbrev Blit := Sketch Fetch Byte Call

def canvas (vidbas : Addr) : Sketch.Canvas Fetch Byte Call Addr where
  cell := Fetch.addr
  paint := fun c => c.paint vidbas

/-- The blitter's program from its sketch. -/
abbrev Blit.dma {α : Type} (q : Blit α) (vidbas : Addr) : Dma α :=
  Sketch.program (canvas vidbas) q

def drawCall (c : Call) : Blit Unit := Sketch.draw c

def fetchByte (part : Part) (a : Addr) : Blit Byte := Sketch.get ⟨part, a⟩

def fetchWord (part : Part) (a : Addr) : Blit Addr := do
  let lo ← fetchByte part a
  let hi ← fetchByte part (a + 1)
  pure (word16 lo hi)

def fetchBitsFrom : Nat → Word → Bitr → Blit (Word × Bitr)
  | 0, v, b => pure (v, b)
  | n + 1, v, b => do
    let byte ← fetchByte .bits b.addr
    let v := v <<< 1 ||| (byte.setWidth 32 >>> (7 - b.bit)) &&& 1
    if b.bit + 1 = 8 then fetchBitsFrom n v { addr := b.addr + 1, bit := 0 }
    else fetchBitsFrom n v { b with bit := b.bit + 1 }

def fetchBits (b : Bitr) (n : Nat) : Blit (Word × Bitr) := fetchBitsFrom n 0 b

namespace Line

variable (l : Line)

def call (col : Int) (px : Byte) : Call where
  x := if l.hflip then l.sx - col else l.sx + col
  y := l.y
  pen := px
  type := l.type

def literalSketch : Nat → Int → Int → Bitr → Blit Unit
  | 0, _, _, _ => pure ()
  | fuel + 1, lineBits, col, br =>
    if lineBits < l.bpp then pure ()
    else do
      let (v, br) ← fetchBits br l.bpp
      drawCall (l.call col (l.penOf v))
      literalSketch fuel (lineBits - l.bpp) (col + 1) br

def literalRunSketch : Nat → Int → Int → Bitr → Blit (Int × Int × Bitr)
  | 0, lineBits, col, br => pure (lineBits, col, br)
  | cnt + 1, lineBits, col, br =>
    if lineBits < l.bpp then pure (lineBits, col, br)
    else do
      let (v, br) ← fetchBits br l.bpp
      drawCall (l.call col (l.penOf v))
      literalRunSketch cnt (lineBits - l.bpp) (col + 1) br

def copiesSketch (px : Byte) : Nat → Int → Blit Int
  | 0, col => pure col
  | n + 1, col => do
    drawCall (l.call col px)
    copiesSketch px n (col + 1)

def packedSketch : Nat → Int → Int → Bitr → Blit Unit
  | 0, _, _, _ => pure ()
  | fuel + 1, lineBits, col, br =>
    if lineBits ≤ 0 then pure ()
    else do
      let (isLit, br) ← fetchBits br 1
      let lineBits := lineBits - 1
      if isLit ≠ 0 then
        let (cnt, br) ← fetchBits br 4
        let (lineBits, col, br) ← l.literalRunSketch (cnt.toNat + 1) (lineBits - 4) col br
        packedSketch fuel lineBits col br
      else
        let (cnt, br) ← fetchBits br 4
        let lineBits := lineBits - 4
        if cnt = 0 then pure ()
        else if lineBits < l.bpp then pure ()
        else
          let (v, br) ← fetchBits br l.bpp
          let col ← l.copiesSketch (l.penOf v) (cnt.toNat + 1) col
          packedSketch fuel (lineBits - l.bpp) col br

def drawSketch (literal : Bool) (offset : Byte) (dp : Addr) : Blit Unit :=
  let lineBits : Int := (offset.toNat - 1) * 8
  let br : Bitr := { addr := dp + 1, bit := 0 }
  if offset = 1 then pure ()
  else if literal then l.literalSketch (lineBits.toNat + 1) lineBits 0 br
  else l.packedSketch (lineBits.toNat + 1) lineBits 0 br

end Line

def Sprite.linesSketch (s : Sprite) : Nat → Nat → Addr → Blit Unit
  | 0, _, _ => pure ()
  | fuel + 1, line, dp => do
    let offset ← fetchByte .offset dp
    if offset = 0 then pure ()
    else do
      (s.lineAt line).drawSketch s.literal offset dp
      s.linesSketch fuel (line + 1) (dp + offset.setWidth 16)

def loadPensSketch : Nat → Nat → Addr → (Fin 16 → Byte) → Blit (Fin 16 → Byte)
  | 0, _, _, pen => pure pen
  | n + 1, i, f, pen => do
    let byte ← fetchByte .palette f
    let pen := Function.update pen (Fin.ofNat 16 i) (byte >>> 4)
    let pen := Function.update pen (Fin.ofNat 16 (i + 1)) (byte &&& 0x0F)
    loadPensSketch n (i + 2) (f + 1) pen

namespace Scb

variable (h : Scb)

def pensSketch (scb : Addr) (pen : Fin 16 → Byte) : Blit (Fin 16 → Byte) :=
  if h.ctl1 &&& 0x08 = 0 then loadPensSketch (2 ^ h.bpp / 2) 0 (h.palette scb) pen else pure pen

def drawSketch (vidbas : Addr) (hoff voff : Int) (pen : Fin 16 → Byte) : Blit Unit :=
  if h.ctl1 &&& 0x04 = 0 then (h.sprite vidbas hoff voff pen).linesSketch (screenH * 2) 0 h.data
  else pure ()

end Scb

def readScbSketch (scb : Addr) : Blit Scb := do
  let ctl0 ← fetchByte .ctl0 scb
  let ctl1 ← fetchByte .ctl1 (scb + 1)
  let next ← fetchWord .next (scb + 3)
  let data ← fetchWord .data (scb + 5)
  let hpos ← fetchWord .hpos (scb + 7)
  let vpos ← fetchWord .vpos (scb + 9)
  pure ⟨ctl0, ctl1, next, data, hpos, vpos⟩

def scbLoopSketch (vidbas : Addr) (hoff voff : Int) :
    Nat → Addr → (Fin 16 → Byte) → Blit Unit
  | 0, _, _ => pure ()
  | fuel + 1, scb, pen =>
    if scb = 0 then pure ()
    else do
      let h ← readScbSketch scb
      let pen ← h.pensSketch scb pen
      h.drawSketch vidbas hoff voff pen
      scbLoopSketch vidbas hoff voff fuel h.next pen

def blitSketch (s : Suzy) : Blit Unit :=
  scbLoopSketch (sreg16 s suzyVidbasl) (sreg16 s suzyHoffl).toInt (sreg16 s suzyVoffl).toInt 256
    (sreg16 s suzyScbnextl) (fun i => BitVec.ofNat 8 i.val)

section Only

variable {F : Fetch → Prop} {P : Call → Prop}

theorem fetchByte_only {part : Part} (known : ∀ a, F ⟨part, a⟩) (a : Addr) :
    (fetchByte part a).Only F P := ⟨known a, fun _ => trivial⟩

theorem fetchBitsFrom_only (bits : ∀ a, F ⟨.bits, a⟩) (n : Nat) (v : Word) (b : Bitr) :
    (fetchBitsFrom n v b).Only F P := by
  induction n generalizing v b with
  | zero => trivial
  | succ n ih =>
    rw [fetchBitsFrom]
    apply (fetchByte_only bits _).bind
    intro byte
    dsimp only
    split
    · exact ih _ _
    · exact ih _ _

theorem loadPensSketch_only (palette : ∀ a, F ⟨.palette, a⟩) (n i : Nat) (f : Addr)
    (pen : Fin 16 → Byte) : (loadPensSketch n i f pen).Only F P := by
  induction n generalizing i f pen with
  | zero => trivial
  | succ n ih => exact ⟨palette f, fun _ => ih _ _ _⟩

theorem Scb.pensSketch_only (palette : ∀ a, F ⟨.palette, a⟩) (h : Scb) (scb : Addr)
    (pen : Fin 16 → Byte) : (h.pensSketch scb pen).Only F P := by
  unfold pensSketch
  split
  · exact loadPensSketch_only palette _ _ _ _
  · trivial

namespace Line

variable {l : Line} (bits : ∀ a, F ⟨.bits, a⟩) (calls : ∀ col px, P (l.call col px))

include bits calls

theorem literalSketch_only (n : Nat) (left col : Int) (br : Bitr) :
    (l.literalSketch n left col br).Only F P := by
  induction n generalizing left col br with
  | zero => trivial
  | succ n ih =>
    rw [literalSketch]
    split
    · trivial
    · apply (fetchBitsFrom_only bits _ _ _).bind
      rintro ⟨v, br⟩
      exact ⟨calls _ _, ih _ _ _⟩

theorem literalRunSketch_only (n : Nat) (left col : Int) (br : Bitr) :
    (l.literalRunSketch n left col br).Only F P := by
  induction n generalizing left col br with
  | zero => trivial
  | succ n ih =>
    rw [literalRunSketch]
    split
    · trivial
    · apply (fetchBitsFrom_only bits _ _ _).bind
      rintro ⟨v, br⟩
      exact ⟨calls _ _, ih _ _ _⟩

omit bits in
theorem copiesSketch_only (px : Byte) (n : Nat) (col : Int) :
    (l.copiesSketch px n col).Only F P := by
  induction n generalizing col with
  | zero => trivial
  | succ n ih => exact ⟨calls _ _, ih _⟩

theorem packedSketch_only (n : Nat) (left col : Int) (br : Bitr) :
    (l.packedSketch n left col br).Only F P := by
  induction n generalizing left col br with
  | zero => trivial
  | succ n ih =>
    rw [packedSketch]
    split
    · trivial
    · apply (fetchBitsFrom_only bits _ _ _).bind
      rintro ⟨flag, br⟩
      dsimp only
      split
      · apply (fetchBitsFrom_only bits _ _ _).bind
        rintro ⟨cnt, br⟩
        apply (literalRunSketch_only bits calls _ _ _ _).bind
        intro (left, col, br)
        exact ih _ _ _
      · apply (fetchBitsFrom_only bits _ _ _).bind
        rintro ⟨cnt, br⟩
        dsimp only
        split
        · trivial
        · split
          · trivial
          · apply (fetchBitsFrom_only bits _ _ _).bind
            rintro ⟨v, br⟩
            apply (copiesSketch_only calls _ _ _).bind
            intro col
            exact ih _ _ _

theorem drawSketch_only (literal : Bool) (offset : Byte) (dp : Addr) :
    (l.drawSketch literal offset dp).Only F P := by
  simp only [drawSketch]
  split
  · trivial
  · split
    · exact literalSketch_only bits calls _ _ _ _
    · exact packedSketch_only bits calls _ _ _ _

end Line

theorem Sprite.linesSketch_only (offset : ∀ a, F ⟨.offset, a⟩) (bits : ∀ a, F ⟨.bits, a⟩)
    {s : Sprite} (calls : ∀ line col px, P ((s.lineAt line).call col px)) (n line : Nat)
    (dp : Addr) : (s.linesSketch n line dp).Only F P := by
  induction n generalizing line dp with
  | zero => trivial
  | succ n ih =>
    rw [linesSketch]
    apply (fetchByte_only offset _).bind
    intro size
    split
    · trivial
    · apply (Line.drawSketch_only bits (calls line) _ _ _).bind
      intro _
      exact ih _ _

/-- Pens are loaded from the palette, and nothing is drawn. -/
theorem pensSketch_quiet (h : Scb) (scb : Addr) (pen : Fin 16 → Byte) :
    (h.pensSketch scb pen).Only (·.part = .palette) fun _ => False :=
  Scb.pensSketch_only (fun _ => rfl) h scb pen

end Only

section Turn

variable {vidbas : Addr} {hoff voff : Int} {n : Nat} {scb : Addr}

/-- The header that a turn of the SCB loop reads. -/
def scbAt (m : Addr → Byte) (scb : Addr) : Scb :=
  ⟨m scb, m (scb + 1), word16 (m (scb + 3)) (m (scb + 3 + 1)),
    word16 (m (scb + 5)) (m (scb + 5 + 1)), word16 (m (scb + 7)) (m (scb + 7 + 1)),
    word16 (m (scb + 9)) (m (scb + 9 + 1))⟩

/-- The bytes of the header, as the turn reads them. -/
def headerFetches (scb : Addr) : List Fetch :=
  [⟨.ctl0, scb⟩, ⟨.ctl1, scb + 1⟩, ⟨.next, scb + 3⟩, ⟨.next, scb + 3 + 1⟩, ⟨.data, scb + 5⟩,
    ⟨.data, scb + 5 + 1⟩, ⟨.hpos, scb + 7⟩, ⟨.hpos, scb + 7 + 1⟩, ⟨.vpos, scb + 9⟩,
    ⟨.vpos, scb + 9 + 1⟩]

theorem readScbSketch_result (m : Addr → Byte) :
    (readScbSketch scb).result (canvas vidbas) m = scbAt m scb := rfl

theorem readScbSketch_drawn (m : Addr → Byte) :
    (readScbSketch scb).drawn (canvas vidbas) m = m := rfl

theorem readScbSketch_fetches (m : Addr → Byte) :
    (readScbSketch scb).fetches (canvas vidbas) m = headerFetches scb := rfl

theorem readScbSketch_strokes (m : Addr → Byte) :
    (readScbSketch scb).strokes (canvas vidbas) m = [] := rfl

/-- The pens that the sprite at `scb` is drawn with. -/
def pensAt (vidbas : Addr) (m : Addr → Byte) (scb : Addr) (pen : Fin 16 → Byte) :
    Fin 16 → Byte :=
  ((scbAt m scb).pensSketch scb pen).result (canvas vidbas) m

/-- The drawing of the sprite at `scb`. -/
def turnSketch (vidbas : Addr) (hoff voff : Int) (m : Addr → Byte) (scb : Addr)
    (pen : Fin 16 → Byte) : Blit Unit :=
  (scbAt m scb).drawSketch vidbas hoff voff (pensAt vidbas m scb pen)

theorem turnSketch_only {F : Fetch → Prop} {P : Call → Prop} {m : Addr → Byte}
    {pen : Fin 16 → Byte} (offset : ∀ a, F ⟨.offset, a⟩) (bits : ∀ a, F ⟨.bits, a⟩)
    (calls : ∀ x y px, P ⟨x, y, px, ((scbAt m scb).ctl0 &&& 0x07).toNat⟩) :
    (turnSketch vidbas hoff voff m scb pen).Only F P := by
  unfold turnSketch Scb.drawSketch
  split
  · exact Sprite.linesSketch_only offset bits (fun _ _ _ => calls _ _ _) _ _ _
  · trivial

/-- A turn of the SCB loop fetches the header, the pens and the data of the sprite. -/
theorem scbLoopSketch_fetches (more : scb ≠ 0) (pen : Fin 16 → Byte) (m : Addr → Byte) :
    (scbLoopSketch vidbas hoff voff (n + 1) scb pen).fetches (canvas vidbas) m =
      headerFetches scb ++ (((scbAt m scb).pensSketch scb pen).fetches (canvas vidbas) m ++
        ((turnSketch vidbas hoff voff m scb pen).fetches (canvas vidbas) m ++
          (scbLoopSketch vidbas hoff voff n (scbAt m scb).next
            (pensAt vidbas m scb pen)).fetches (canvas vidbas)
              ((turnSketch vidbas hoff voff m scb pen).drawn (canvas vidbas) m))) := by
  have pens := Sketch.drawn_eq (canvas vidbas) (pensSketch_quiet (scbAt m scb) scb pen) m
  rw [scbLoopSketch, if_neg more, Sketch.fetches_bind, Sketch.fetches_bind, Sketch.fetches_bind,
    readScbSketch_result, readScbSketch_drawn, readScbSketch_fetches, pens.2]
  rfl

/-- Its calls are those of the sprite. -/
theorem scbLoopSketch_strokes (more : scb ≠ 0) (pen : Fin 16 → Byte) (m : Addr → Byte) :
    (scbLoopSketch vidbas hoff voff (n + 1) scb pen).strokes (canvas vidbas) m =
      (turnSketch vidbas hoff voff m scb pen).strokes (canvas vidbas) m ++
        (scbLoopSketch vidbas hoff voff n (scbAt m scb).next
          (pensAt vidbas m scb pen)).strokes (canvas vidbas)
            ((turnSketch vidbas hoff voff m scb pen).drawn (canvas vidbas) m) := by
  have pens := Sketch.drawn_eq (canvas vidbas) (pensSketch_quiet (scbAt m scb) scb pen) m
  rw [scbLoopSketch, if_neg more, Sketch.strokes_bind, Sketch.strokes_bind, Sketch.strokes_bind,
    readScbSketch_result, readScbSketch_drawn, readScbSketch_strokes, pens.1, pens.2]
  rfl

theorem scbLoopSketch_drawn (more : scb ≠ 0) (pen : Fin 16 → Byte) (m : Addr → Byte) :
    (scbLoopSketch vidbas hoff voff (n + 1) scb pen).drawn (canvas vidbas) m =
      (scbLoopSketch vidbas hoff voff n (scbAt m scb).next
        (pensAt vidbas m scb pen)).drawn (canvas vidbas)
          ((turnSketch vidbas hoff voff m scb pen).drawn (canvas vidbas) m) := by
  have pens := Sketch.drawn_eq (canvas vidbas) (pensSketch_quiet (scbAt m scb) scb pen) m
  rw [scbLoopSketch, if_neg more, Sketch.drawn_bind, Sketch.drawn_bind, Sketch.drawn_bind,
    readScbSketch_result, readScbSketch_drawn, pens.2]
  rfl

end Turn

section Program

theorem Blit.dma_bind {α γ : Type} (q : Blit α) (f : α → Blit γ) (vidbas : Addr) :
    (q >>= f).dma vidbas = q.dma vidbas >>= fun a => (f a).dma vidbas :=
  Sketch.program_bind _ q f

@[simp] theorem Blit.dma_pure {α : Type} (a : α) (vidbas : Addr) :
    (pure a : Blit α).dma vidbas = pure a := rfl

theorem fetchByte_dma (part : Part) (a vidbas : Addr) :
    (fetchByte part a).dma vidbas = dramRd a := rfl

theorem fetchBitsFrom_dma (vidbas : Addr) (n : Nat) (v : Word) (b : Bitr) :
    (fetchBitsFrom n v b).dma vidbas = bitsGetFrom n v b := by
  induction n generalizing v b with
  | zero => rfl
  | succ n ih =>
    rw [fetchBitsFrom, bitsGetFrom, Blit.dma_bind, fetchByte_dma]
    apply bind_congr
    intro byte
    dsimp only
    split
    · exact ih _ _
    · exact ih _ _

theorem fetchBits_dma (vidbas : Addr) (b : Bitr) (n : Nat) :
    (fetchBits b n).dma vidbas = bitsGet b n := fetchBitsFrom_dma vidbas n 0 b

namespace Line

variable (l : Line)

theorem draw_call_dma (col : Int) (px : Byte) :
    (drawCall (l.call col px)).dma l.vidbas = l.plot col px :=
  BusProgram.bind_ret _

theorem literalSketch_dma (n : Nat) (bits col : Int) (br : Bitr) :
    (l.literalSketch n bits col br).dma l.vidbas = l.literal n bits col br := by
  induction n generalizing bits col br with
  | zero => rfl
  | succ n ih =>
    rw [literalSketch, literal]
    split
    · rfl
    · rw [Blit.dma_bind, fetchBits_dma]
      apply bind_congr
      rintro ⟨v, br⟩
      rw [Blit.dma_bind, draw_call_dma]
      simp only [ih]

theorem literalRunSketch_dma (n : Nat) (bits col : Int) (br : Bitr) :
    (l.literalRunSketch n bits col br).dma l.vidbas = l.literalRun n bits col br := by
  induction n generalizing bits col br with
  | zero => rfl
  | succ n ih =>
    rw [literalRunSketch, literalRun]
    split
    · rfl
    · rw [Blit.dma_bind, fetchBits_dma]
      apply bind_congr
      rintro ⟨v, br⟩
      rw [Blit.dma_bind, draw_call_dma]
      simp only [ih]

theorem copiesSketch_dma (px : Byte) (n : Nat) (col : Int) :
    (l.copiesSketch px n col).dma l.vidbas = l.copies px n col := by
  induction n generalizing col with
  | zero => rfl
  | succ n ih =>
    rw [copiesSketch, copies, Blit.dma_bind, draw_call_dma]
    simp only [ih]

theorem packedSketch_dma (n : Nat) (bits col : Int) (br : Bitr) :
    (l.packedSketch n bits col br).dma l.vidbas = l.packed n bits col br := by
  induction n generalizing bits col br with
  | zero => rfl
  | succ n ih =>
    rw [packedSketch, packed]
    split
    · rfl
    · rw [Blit.dma_bind, fetchBits_dma]
      apply bind_congr
      rintro ⟨flag, br⟩
      dsimp only
      split
      · rw [Blit.dma_bind, fetchBits_dma]
        apply bind_congr
        rintro ⟨cnt, br⟩
        dsimp only
        rw [Blit.dma_bind, literalRunSketch_dma]
        simp only [ih]
      · rw [Blit.dma_bind, fetchBits_dma]
        apply bind_congr
        rintro ⟨cnt, br⟩
        dsimp only
        split
        · rfl
        · split
          · rfl
          · rw [Blit.dma_bind, fetchBits_dma]
            apply bind_congr
            rintro ⟨v, br⟩
            dsimp only
            rw [Blit.dma_bind, copiesSketch_dma]
            simp only [ih]

theorem drawSketch_dma (literal : Bool) (offset : Byte) (dp : Addr) :
    (l.drawSketch literal offset dp).dma l.vidbas = l.draw literal offset dp := by
  simp only [drawSketch, draw]
  split
  · rfl
  · split
    · exact l.literalSketch_dma _ _ _ _
    · exact l.packedSketch_dma _ _ _ _

end Line

theorem Sprite.linesSketch_dma (s : Sprite) (n line : Nat) (dp : Addr) :
    (s.linesSketch n line dp).dma s.vidbas = s.lines n line dp := by
  induction n generalizing line dp with
  | zero => rfl
  | succ n ih =>
    rw [linesSketch, lines, Blit.dma_bind, fetchByte_dma]
    apply bind_congr
    intro offset
    by_cases last : offset = 0
    · rw [if_pos last, if_pos last]
      rfl
    · have line := (s.lineAt line).drawSketch_dma s.literal offset dp
      rw [if_neg last, if_neg last, Blit.dma_bind]
      simp only [ih]
      exact congrArg (· >>= _) line

theorem loadPensSketch_dma (vidbas : Addr) (n i : Nat) (f : Addr) (pen : Fin 16 → Byte) :
    (loadPensSketch n i f pen).dma vidbas = loadPens n i f pen := by
  induction n generalizing i f pen with
  | zero => rfl
  | succ n ih =>
    rw [loadPensSketch, loadPens, Blit.dma_bind, fetchByte_dma]
    simp only [ih]

theorem Scb.pensSketch_dma (h : Scb) (vidbas scb : Addr) (pen : Fin 16 → Byte) :
    (h.pensSketch scb pen).dma vidbas = h.pens scb pen := by
  unfold pensSketch pens
  split
  · exact loadPensSketch_dma vidbas _ _ _ _
  · rfl

theorem Scb.drawSketch_dma (h : Scb) (vidbas : Addr) (hoff voff : Int)
    (pen : Fin 16 → Byte) :
    (h.drawSketch vidbas hoff voff pen).dma vidbas = h.draw vidbas hoff voff pen := by
  unfold drawSketch draw
  split
  · exact (h.sprite vidbas hoff voff pen).linesSketch_dma _ _ _
  · rfl

theorem readScbSketch_dma (vidbas scb : Addr) :
    (readScbSketch scb).dma vidbas = readScb scb := rfl

theorem scbLoopSketch_dma (vidbas : Addr) (hoff voff : Int) (n : Nat) (scb : Addr)
    (pen : Fin 16 → Byte) :
    (scbLoopSketch vidbas hoff voff n scb pen).dma vidbas =
      scbLoop vidbas hoff voff n scb pen := by
  induction n generalizing scb pen with
  | zero => rfl
  | succ n ih =>
    by_cases last : scb = 0
    · rw [scbLoopSketch, scbLoop, if_pos last, if_pos last]
      rfl
    · rw [scbLoopSketch, if_neg last, scbLoop_succ _ _ _ _ last, readSprite, BusProgram.bind_assoc,
        Blit.dma_bind, readScbSketch_dma]
      apply bind_congr
      intro h
      rw [BusProgram.bind_assoc, Blit.dma_bind, Scb.pensSketch_dma]
      apply bind_congr
      intro pen
      rw [Blit.dma_bind, Scb.drawSketch_dma]
      simp only [ih]
      rfl

/-- The blitter makes the fetches and the calls of its sketch. -/
theorem blitSketch_dma (s : Suzy) :
    (blitSketch s).dma (sreg16 s suzyVidbasl) = blitProgram s := scbLoopSketch_dma ..

end Program

end LynxRecomp
