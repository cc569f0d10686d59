import LynxRecomp.Lib.Marks
import LynxRecomp.Runtime.PackedLine
import LynxRecomp.Runtime.XorSprites

/-!
# Scenes

A scene is a chain of control blocks with the bitmaps of their sprites. One run of the sprite
engine over it and the readout show every pixel as the sprites that cover it leave it, from the
first in the chain to the last.
-/

namespace LynxRecomp

open BusProgram Marks

variable {η : Type} {bpp : Nat}

/-- The lines of a sprite from its first, each with its pens from column 0 on. -/
abbrev Bitmap (bpp : Nat) := List (List (BitVec bpp))

section Meaning

/-- The pen that a sprite has for pixel `(x, y)` of the screen, if it covers it. No more than
204 lines of a sprite are drawn. -/
def Sprite.covers (s : Sprite) (bitmap : Bitmap s.bpp) (x y : Int) : Option (BitVec s.bpp) :=
  (entry (bitmap.take (screenH * 2)) (if s.vflip then s.sy - y else y - s.sy)).bind fun row =>
    entry row (if s.hflip then s.sx - x else x - s.sx)

/-- The pen of the screen for pen `v` of a sprite -/
def Sprite.penOf (s : Sprite) (v : BitVec s.bpp) : Byte := s.pen (Fin.ofNat 16 v.toNat)

/-- Pixel `(x, y)` with a sprite drawn over it. -/
def Sprite.layer (s : Sprite) (bitmap : Bitmap s.bpp) (x y : Int) (old : BitVec 4) : BitVec 4 :=
  (s.covers bitmap x y).elim old fun v => Call.ink ⟨x, y, s.penOf v, s.type⟩ old

/-- A control block and the bitmap of its sprite -/
structure SceneSprite where
  block : ControlBlock
  bitmap : Bitmap block.header.bpp

/-- Where the sprite engine draws: VIDBAS, HOFF and VOFF. -/
structure View where
  vidbas : Addr
  hoff : Int
  voff : Int

def SceneSprite.layer (s : SceneSprite) (view : View) (pen : Fin 16 → Byte) (x y : Int)
    (old : BitVec 4) : BitVec 4 :=
  if s.block.header.ctl1 &&& 0x04 = 0 then
    (s.block.header.sprite view.vidbas view.hoff view.voff pen).layer s.bitmap x y old
  else old

/-- Pixel `(x, y)` with the sprites of a scene drawn over it one after another, each with its
own pens or those of the one before. -/
def scenePixel (view : View) (x y : Int) : List SceneSprite → (Fin 16 → Byte) → BitVec 4 → BitVec 4
  | [], _, old => old
  | s :: rest, pen, old =>
    scenePixel view x y rest (s.block.pens pen) (s.layer view (s.block.pens pen) x y old)

end Meaning

section Storage

/-- The line at `dp` stores these pens: it is blank, totally literal, or packed. -/
inductive RowAt (bpp : Nat) (literal : Bool) (m : Addr → Byte) (dp : Addr) :
    List (BitVec bpp) → Prop where
  | blank (offset : m dp = 1) : RowAt bpp literal m dp []
  | literal {pens : List (BitVec bpp)} {pad : Nat} (flag : literal = true) (short : pad < bpp)
      (holds : LineHolds m dp (m dp) (penBits pens) pad) : RowAt bpp literal m dp pens
  | packed {packets : List (Packet bpp)} {pad : Nat} (flag : literal = false)
      (holds : LineHolds m dp (m dp) (packets.flatMap Packet.bits) pad) :
      RowAt bpp literal m dp (packets.flatMap Packet.pens)

/-- The data from `dp` on stores a bitmap, outside of the video buffer. -/
def BitmapAt (vidbas : Addr) (literal : Bool) (m : Addr → Byte) : Addr → Bitmap bpp → Prop
  | dp, [] => ¬ inVideoBuffer vidbas dp ∧ m dp = 0
  | dp, row :: rows =>
    (∀ a, span dp (m dp).toNat a → ¬ inVideoBuffer vidbas a) ∧ RowAt bpp literal m dp row ∧
      BitmapAt vidbas literal m (dp + (m dp).setWidth 16) rows

/-- The block lies at `scb` and its bitmap where it says, all outside of the video buffer. -/
structure SceneSprite.LiesAt (s : SceneSprite) (vidbas : Addr) (m : Addr → Byte) (scb : Addr) :
    Prop where
  block : s.block.LaidOut m scb
  palette : s.block.PaletteFound m scb
  bitmap : s.block.header.ctl1 &&& 0x04 = 0 →
    BitmapAt vidbas (s.block.header.ctl1 &&& 0x80 != 0) m s.block.header.data s.bitmap
  blockOutside : ∀ a, span scb s.block.bytes.length a → ¬ inVideoBuffer vidbas a
  paletteOutside : s.block.header.ctl1 &&& 0x08 = 0 →
    ∀ a, span (s.block.header.palette scb) (2 ^ s.block.header.bpp / 2) a →
      ¬ inVideoBuffer vidbas a

/-- The chain of control blocks from `scb` on is a scene. -/
def SceneAt (vidbas : Addr) (m : Addr → Byte) : Addr → List SceneSprite → Prop
  | scb, [] => scb = 0
  | scb, s :: rest =>
    scb ≠ 0 ∧ s.LiesAt vidbas m scb ∧ SceneAt vidbas m s.block.header.next rest

end Storage

section Agree

variable {vidbas : Addr} {m m' : Addr → Byte}

theorem LineHolds.agree {dp : Addr} {offset : Byte} {bs : List Bool} {pad : Nat}
    (holds : LineHolds m dp offset bs pad) (same : ∀ a, span dp offset.toNat a → m' a = m a) :
    LineHolds m' dp offset bs pad := by
  refine ⟨holds.1, ?_⟩
  have bytes : ∀ i < offset.toNat - 1, m' (dp + 1 + BitVec.ofNat 16 i) =
      m (dp + 1 + BitVec.ofNat 16 i) := by
    intro i inside
    apply same
    refine ⟨i + 1, by omega, ?_⟩
    rw [Nat.add_comm i 1, BitVec.ofNat_add, BitVec.add_assoc]
    rfl
  rw [BitStream.bitsAt_congr bytes (by omega)]
  exact holds.2

theorem RowAt.agree {literal : Bool} {dp : Addr} {row : List (BitVec bpp)}
    (stored : RowAt bpp literal m dp row) (first : m' dp = m dp)
    (same : ∀ a, span dp (m dp).toNat a → m' a = m a) : RowAt bpp literal m' dp row := by
  cases stored with
  | blank offset => exact .blank (first.trans offset)
  | literal flag short holds =>
    rw [← first] at same holds
    exact .literal flag short (holds.agree same)
  | packed flag holds =>
    rw [← first] at same holds
    exact .packed flag (holds.agree same)

theorem RowAt.more {literal : Bool} {dp : Addr} {row : List (BitVec bpp)}
    (stored : RowAt bpp literal m dp row) : m dp ≠ 0 := by
  cases stored with
  | blank offset => rw [offset]; decide
  | literal flag short holds => exact fun none => absurd holds.1 (by rw [none]; decide)
  | packed flag holds => exact fun none => absurd holds.1 (by rw [none]; decide)

/-- A bitmap outside of the video buffer stays there, whatever is drawn. -/
theorem BitmapAt.agree (agree : AgreeOutside vidbas m m') {literal : Bool} {dp : Addr}
    {bitmap : Bitmap bpp} (stored : BitmapAt vidbas literal m dp bitmap) :
    BitmapAt vidbas literal m' dp bitmap := by
  induction bitmap generalizing dp with
  | nil => exact ⟨stored.1, (agree dp stored.1).trans stored.2⟩
  | cons row rows ih =>
    rcases stored with ⟨outside, row, rest⟩
    have some_ : 0 < (m dp).toNat := by
      have more := row.more
      bv_omega
    have first : m' dp = m dp := agree dp (outside dp ⟨0, some_, (BitVec.add_zero dp).symm⟩)
    have same : ∀ a, span dp (m dp).toNat a → m' a = m a := fun a inside =>
      agree a (outside a inside)
    refine ⟨?_, row.agree first same, ?_⟩
    · rwa [first]
    · rw [first]
      exact ih rest

theorem ControlBlock.LaidOut.agree {b : ControlBlock} {scb : Addr} (laid : b.LaidOut m scb)
    (same : ∀ a, span scb b.bytes.length a → m' a = m a) : b.LaidOut m' scb := by
  intro i inside
  rw [laid i inside]
  exact congrArg some (same _ ⟨i, inside, rfl⟩).symm

theorem SceneSprite.LiesAt.agree (agree : AgreeOutside vidbas m m') {s : SceneSprite} {scb : Addr}
    (lies : s.LiesAt vidbas m scb) : s.LiesAt vidbas m' scb where
  block := lies.block.agree fun a inside => agree a (lies.blockOutside a inside)
  palette := by
    rcases lies.palette with reuses | shallow | bytes
    · exact .inl reuses
    · exact .inr (.inl shallow)
    · by_cases loads : s.block.header.ctl1 &&& 0x08 = 0
      · have laid := lies.block.agree fun a inside => agree a (lies.blockOutside a inside)
        refine .inr (.inr fun j inside => ?_)
        rw [ControlBlock.palette_laidOut laid loads inside,
          agree _ (lies.paletteOutside loads _ ⟨j, inside, rfl⟩), bytes j inside,
          ControlBlock.palette_laidOut lies.block loads inside]
      · exact .inl loads
  bitmap drawn := (lies.bitmap drawn).agree agree
  blockOutside := lies.blockOutside
  paletteOutside := lies.paletteOutside

theorem SceneAt.agree (agree : AgreeOutside vidbas m m') {scb : Addr} {scene : List SceneSprite}
    (laid : SceneAt vidbas m scb scene) : SceneAt vidbas m' scb scene := by
  induction scene generalizing scb with
  | nil => exact laid
  | cons s rest ih => exact ⟨laid.1, laid.2.1.agree agree, ih laid.2.2⟩

end Agree

section Draw

variable {vidbas : Addr} {m : Addr → Byte}

namespace Line

variable (l : Line)

/-- The call that draws pen `v` in a column -/
def penCall (col : Int) (v : BitVec l.bpp) : Call := l.call col (l.penOf (v.setWidth 32))

theorem drawAll_marks (col : Int) (row : List (BitVec l.bpp)) (m : Addr → Byte) :
    ((l.drawAll (columns col row)).run memory m).2 =
      marks (fun col v m => drawnBy l.vidbas m (l.penCall col v)) col row m := by
  induction row generalizing col m with
  | nil => rfl
  | cons v vs ih =>
    rw [columns, drawAll_cons, ih]
    rfl

/-- A line that stores a row draws it. -/
theorem draw_row {literal : Bool} {dp : Addr} {row : List (BitVec l.bpp)}
    (stored : RowAt l.bpp literal m dp row)
    (outside : ∀ a, span dp (m dp).toNat a → ¬ inVideoBuffer l.vidbas a) :
    ((l.draw literal (m dp) dp).run memory m).2 =
      marks (fun col v m => drawnBy l.vidbas m (l.penCall col v)) 0 row m := by
  have data : ∀ a, lineData dp (m dp) a → ¬ inVideoBuffer l.vidbas a := by
    rintro a ⟨k, inside, rfl⟩
    apply outside
    refine ⟨k + 1, by omega, ?_⟩
    rw [Nat.add_comm k 1, BitVec.ofNat_add, BitVec.add_assoc]
    rfl
  rw [← drawAll_marks]
  cases stored with
  | blank offset =>
    rw [draw, if_pos offset]
    rfl
  | literal flag short holds =>
    rw [draw_run, flag, literal_line _ holds short (avoids_of_outside data _)]
  | packed flag holds =>
    rw [draw_run, flag, packed_line _ holds (avoids_of_outside data _)]

end Line

namespace Sprite

variable (s : Sprite)

/-- `lineAt`, for lines before the first as well. -/
def lineFor (line : Int) : Line :=
  { s.lineAt 0 with y := if s.vflip then s.sy - line else s.sy + line }

/-- Memory with a row of a sprite drawn as line `line`. -/
def rowDrawn (line : Int) (row : List (BitVec s.bpp)) (m : Addr → Byte) : Addr → Byte :=
  marks (fun col v m => drawnBy s.vidbas m ((s.lineFor line).penCall col v)) 0 row m

theorem rowDrawn_outside (line : Int) (row : List (BitVec s.bpp)) (m : Addr → Byte) :
    AgreeOutside s.vidbas m (s.rowDrawn line row m) := by
  apply marks_keeps (P := AgreeOutside s.vidbas m)
  · intro col v m' agree a outside
    exact (drawnBy_outside outside m' _).trans (agree a outside)
  · exact fun _ _ => rfl

/-- The line loop draws the rows of the bitmap, as many as it has turns. -/
theorem lines_marks {bitmap : Bitmap s.bpp} {dp : Addr} (n line : Nat)
    (stored : BitmapAt s.vidbas s.literal m dp bitmap) :
    ((s.lines n line dp).run memory m).2 = marks s.rowDrawn line (bitmap.take n) m := by
  induction n generalizing line dp bitmap m with
  | zero => rfl
  | succ n ih =>
    have read : (dramRd dp).run memory m = (m dp, m) := rfl
    rw [lines, run_bind, read]
    cases bitmap with
    | nil =>
      rw [List.take_nil, if_pos stored.2]
      rfl
    | cons row rows =>
      rcases stored with ⟨outside, row_, rest⟩
      have drawn : (((s.lineAt line).draw s.literal (m dp) dp).run memory m).2 =
          s.rowDrawn line row m := (s.lineAt line).draw_row row_ outside
      simp only
      rw [if_neg row_.more, run_bind, List.take_succ_cons, marks]
      change ((s.lines n (line + 1) _).run memory
        (((s.lineAt line).draw s.literal (m dp) dp).run memory m).2).2 = _
      rw [drawn]
      exact ih (line + 1) (rest.agree (s.rowDrawn_outside line row m))

end Sprite

end Draw

section Pixels

variable {x y : Int}

/-- The column of a sprite at `x`, where lines run to the left if they are flipped. -/
theorem mirrored_eq {flip : Bool} {s i x : Int} :
    (if flip then s - i else s + i) = x ↔ i = if flip then s - x else x - s := by
  cases flip with
  | false => exact ⟨fun h => by simp at h ⊢; omega, fun h => by simp at h ⊢; omega⟩
  | true => exact ⟨fun h => by simp at h ⊢; omega, fun h => by simp at h ⊢; omega⟩

namespace Sprite

variable (s : Sprite)

theorem lineFor_penOf (line : Int) (v : BitVec s.bpp) :
    (s.lineFor line).penOf (v.setWidth 32) = s.penOf v := by
  have low : ((v.setWidth 32 : Word) &&& 15).toNat % 16 = v.toNat % 16 := by
    rw [BitVec.toNat_and, BitVec.toNat_setWidth]
    change (v.toNat % 2 ^ 32 &&& 2 ^ 4 - 1) % 2 ^ 4 = v.toNat % 2 ^ 4
    rw [Nat.and_two_pow_sub_one_eq_mod]
    omega
  exact congrArg s.pen (Fin.ext low)

/-- The call for pen `v` of a line and column, as the pixel `(x, y)` sees it -/
def inkAt (x y line col : Int) (v : BitVec s.bpp) (old : BitVec 4) : BitVec 4 :=
  if ((s.lineFor line).penCall col v).at_ x y then ((s.lineFor line).penCall col v).ink old else old

theorem at_iff (line col : Int) (v : BitVec s.bpp) :
    ((s.lineFor line).penCall col v).at_ x y = true ↔
      (col = if s.hflip then s.sx - x else x - s.sx) ∧
        line = if s.vflip then s.sy - y else y - s.sy := by
  rw [Call.at_, Bool.and_eq_true, beq_iff_eq, beq_iff_eq, ← mirrored_eq, ← mirrored_eq]
  rfl

theorem penCall_here {line col : Int} {v : BitVec s.bpp}
    (here : ((s.lineFor line).penCall col v).at_ x y = true) :
    (s.lineFor line).penCall col v = ⟨x, y, s.penOf v, s.type⟩ := by
  rw [Call.at_, Bool.and_eq_true, beq_iff_eq, beq_iff_eq] at here
  rw [← s.lineFor_penOf line, ← here.1, ← here.2]
  rfl

/-- A row shows in its own line only, where each pen shows in its own column. -/
theorem inkAt_shows (line : Int) (row : List (BitVec s.bpp)) (old : BitVec 4) :
    marks (s.inkAt x y line) 0 row old =
      if line = if s.vflip then s.sy - y else y - s.sy then
        (entry row (if s.hflip then s.sx - x else x - s.sx)).elim old fun v =>
          Call.ink ⟨x, y, s.penOf v, s.type⟩ old
      else old := by
  have nowhere (col : Int) (v : BitVec s.bpp) (old : BitVec 4)
      (other : ¬ ((col = if s.hflip then s.sx - x else x - s.sx) ∧
        line = if s.vflip then s.sy - y else y - s.sy)) : s.inkAt x y line col v old = old :=
    if_neg fun here => other ((s.at_iff line col v).mp here)
  by_cases here : line = if s.vflip then s.sy - y else y - s.sy
  · rw [if_pos here, marks_shows fun col v old other => nowhere col v old fun h => other h.1,
      Int.sub_zero]
    cases entry row (if s.hflip then s.sx - x else x - s.sx) with
    | none => rfl
    | some v =>
      have at_ := (s.at_iff (x := x) line _ v).mpr ⟨rfl, here⟩
      exact (if_pos at_).trans (congrArg (Call.ink · old) (s.penCall_here at_))
  · rw [if_neg here]
    exact marks_keeps (P := (· = old))
      (fun col v b same => (nowhere col v b fun h => here h.2).trans same) 0 row rfl

/-- The rows of a sprite show as its bitmap says. -/
theorem penAt_rows (visible : onScreen x y = true) (bitmap : Bitmap s.bpp) (m : Addr → Byte) :
    penAt s.vidbas (marks s.rowDrawn 0 (bitmap.take (screenH * 2)) m) x y =
      s.layer bitmap x y (penAt s.vidbas m x y) := by
  have row (line : Int) (row : List (BitVec s.bpp)) (m : Addr → Byte) :
      penAt s.vidbas (s.rowDrawn line row m) x y =
        marks (s.inkAt x y line) 0 row (penAt s.vidbas m x y) :=
    marks_hom (g := fun m => penAt s.vidbas m x y)
      (fun _ _ m => penAt_drawnBy visible m _) 0 row m
  rw [marks_hom (g := fun m => penAt s.vidbas m x y) row, layer, covers]
  rw [marks_shows (j := if s.vflip then s.sy - y else y - s.sy), Int.sub_zero]
  · cases entry (bitmap.take (screenH * 2)) (if s.vflip then s.sy - y else y - s.sy) with
    | none => rfl
    | some row =>
      change marks (s.inkAt x y _) 0 row _ = _
      rw [inkAt_shows, if_pos rfl]
      rfl
  · intro line row old other
    rw [inkAt_shows, if_neg other]

end Sprite

end Pixels

section Chain

variable {x y : Int} {m : Addr → Byte}

theorem readSprite_lies {s : SceneSprite} {vidbas scb : Addr} (lies : s.LiesAt vidbas m scb)
    (pen : Fin 16 → Byte) :
    (readSprite scb pen).run memory m = ((s.block.header, s.block.pens pen), m) := by
  have pens := (ControlBlock.pens_run_iff lies.block pen).mpr lies.palette
  rw [readSprite, run_bind, ControlBlock.readScb_run lies.block]
  simp only
  rw [run_bind, pens]
  rfl

/-- Memory with the sprite of a block drawn -/
def SceneSprite.drawn (s : SceneSprite) (view : View) (pen : Fin 16 → Byte) (m : Addr → Byte) :
    Addr → Byte :=
  if s.block.header.ctl1 &&& 0x04 = 0 then
    marks (s.block.header.sprite view.vidbas view.hoff view.voff pen).rowDrawn 0
      (s.bitmap.take (screenH * 2)) m
  else m

theorem SceneSprite.drawn_outside (s : SceneSprite) (view : View) (pen : Fin 16 → Byte)
    (m : Addr → Byte) : AgreeOutside view.vidbas m (s.drawn view pen m) := by
  unfold SceneSprite.drawn
  split
  · apply marks_keeps (P := AgreeOutside view.vidbas m) _ _ _ fun _ _ => rfl
    intro line row m' agree a outside
    exact (Sprite.rowDrawn_outside _ line row m' a outside).trans (agree a outside)
  · exact fun _ _ => rfl

theorem SceneSprite.penAt_drawn (visible : onScreen x y = true) (s : SceneSprite) (view : View)
    (pen : Fin 16 → Byte) (m : Addr → Byte) :
    penAt view.vidbas (s.drawn view pen m) x y =
      s.layer view pen x y (penAt view.vidbas m x y) := by
  unfold SceneSprite.drawn SceneSprite.layer
  split
  · exact (s.block.header.sprite view.vidbas view.hoff view.voff pen).penAt_rows visible s.bitmap m
  · rfl

/-- A turn of the SCB loop draws the first sprite of the scene. -/
theorem scbLoop_lies {s : SceneSprite} {view : View} {scb : Addr} (more : scb ≠ 0)
    (lies : s.LiesAt view.vidbas m scb) (n : Nat) (pen : Fin 16 → Byte) :
    ((scbLoop view.vidbas view.hoff view.voff (n + 1) scb pen).run memory m).2 =
      ((scbLoop view.vidbas view.hoff view.voff n s.block.header.next (s.block.pens pen)).run
        memory (s.drawn view (s.block.pens pen) m)).2 := by
  have drawn : ((s.block.header.draw view.vidbas view.hoff view.voff (s.block.pens pen)).run
      memory m).2 = s.drawn view (s.block.pens pen) m := by
    unfold Scb.draw SceneSprite.drawn
    split
    · rename_i shown
      exact (s.block.header.sprite view.vidbas view.hoff view.voff (s.block.pens pen)).lines_marks
        (screenH * 2) 0 (lies.bitmap shown)
    · rfl
  rw [scbLoop_succ _ _ _ _ more, run_bind, readSprite_lies lies]
  simp only
  rw [run_bind, drawn]

/-- The SCB loop draws the scene, as many sprites of it as it has turns. -/
theorem penAt_scbLoop (visible : onScreen x y = true) (view : View) {scene : List SceneSprite}
    {scb : Addr} (n : Nat) (pen : Fin 16 → Byte) (laid : SceneAt view.vidbas m scb scene) :
    penAt view.vidbas
        ((scbLoop view.vidbas view.hoff view.voff n scb pen).run memory m).2 x y =
      scenePixel view x y (scene.take n) pen (penAt view.vidbas m x y) := by
  induction n generalizing scene scb pen m with
  | zero => rfl
  | succ n ih =>
    cases scene with
    | nil =>
      have last : scb = 0 := laid
      rw [scbLoop, if_pos last]
      rfl
    | cons s rest =>
      rcases laid with ⟨more, lies, rest_⟩
      have after := rest_.agree (s.drawn_outside view (s.block.pens pen) m)
      rw [scbLoop_lies more lies, ih _ after, s.penAt_drawn visible]
      rfl

end Chain

/-- Where the sprite engine of a machine draws. -/
def Hw.view (hw : Hw η) : View where
  vidbas := sreg16 hw.suzy suzyVidbasl
  hoff := (sreg16 hw.suzy suzyHoffl).toInt
  voff := (sreg16 hw.suzy suzyVoffl).toInt

theorem blitProgram_go (s : Suzy) (val : Byte) :
    blitProgram { reg := Function.update s.reg suzySprgo val, busy := 1 } = blitProgram s := by
  have kept {off : Byte} (lo : off ≠ suzySprgo) (hi : off + 1 ≠ suzySprgo) :
      sreg16 { reg := Function.update s.reg suzySprgo val, busy := 1 } off = sreg16 s off := by
    have first := Function.update_of_ne lo val s.reg
    have second := Function.update_of_ne hi val s.reg
    unfold sreg16
    rw [← first, ← second]
  unfold blitProgram
  rw [kept (by decide) (by decide), kept (by decide) (by decide), kept (by decide) (by decide),
    kept (by decide) (by decide)]

theorem lynxMemWrite_go (hooks : Hooks η) (hw : Hw η) {val : Byte} (go : val &&& 1 ≠ 0) :
    lynxMemWrite hooks 0xFC91 val hw = { hw with
      ram := ((blitProgram hw.suzy).run memory hw.ram).2
      suzy := { reg := Function.update hw.suzy.reg suzySprgo val, busy := 0 } } := by
  have write : lynxMemWrite hooks 0xFC91 val hw = lynxSuzyBlit { hw with
      suzy := { reg := Function.update hw.suzy.reg suzySprgo val, busy := 1 } } := if_pos go
  rw [write, lynxSuzyBlit, blitProgram_go]

/-- A write to SPRGO draws the scene at SCBNEXT, of up to 256 sprites, and with the display at
VIDBAS the readout shows it: each pixel in the palette colour of the pen that the sprites which
cover it leave there, drawn one over the other onto the picture of before. -/
theorem scene_shown (hooks : Hooks η) {hw : Hw η} {val : Byte} (go : val &&& 1 ≠ 0)
    (same : hw.view.vidbas = word16 (hw.mikey mikeyDispadrl) (hw.mikey mikeyDispadrh))
    {scene : List SceneSprite}
    (laid : SceneAt hw.view.vidbas hw.ram (sreg16 hw.suzy suzyScbnextl) scene)
    (y : Fin screenH) (x : Fin screenW) :
    (lynxVideoRender (lynxMemWrite hooks 0xFC91 val hw) y x).toNat = paletteArgb hw.mikey
      (scenePixel hw.view x.val y.val (scene.take 256) (fun i => BitVec.ofNat 8 i.val)
        (penAt hw.view.vidbas hw.ram x.val y.val)) := by
  have drawn := penAt_scbLoop (onScreen_fin x y) hw.view 256 (fun i => BitVec.ofNat 8 i.val) laid
  rw [lynxMemWrite_go hooks hw go, lynxVideoRender_toNat, ← drawn]
  change paletteArgb hw.mikey (penAt (word16 (hw.mikey mikeyDispadrl) (hw.mikey mikeyDispadrh))
    ((blitProgram hw.suzy).run memory hw.ram).2 x.val y.val) = _
  rw [← same]
  rfl

/-- A control block of a totally literal sprite with one bit a pixel at (10, 8) -/
def barBlock (ctl0 : Byte) (next data : Addr) (pen : BitVec 4) : ControlBlock where
  header := { ctl0 := ctl0, ctl1 := 0x80, next := next, data := data, hpos := 10, vpos := 8 }
  coll := 0
  sizes := []
  pen k := if k = 1 then pen else 0
  sizes_length := by
    have flat : ((0x80 : Byte) >>> 4 &&& 3).toNat = 0 := by decide
    exact (congrArg sizeWords flat).symm

/-- A background bar, and a sprite over it that is transparent but for its first pixel. -/
def twoBars : List SceneSprite :=
  [⟨barBlock 0x00 0x0410 0x0420 5, [[1, 1, 1, 1, 1, 1, 1, 1]]⟩,
    ⟨barBlock 0x04 0 0x0423 6, [[1, 0, 0, 0, 0, 0, 0, 0]]⟩]

def twoBarsMachine : Hw Unit :=
  { spriteMachine
      ((barBlock 0x00 0x0410 0x0420 5).bytes ++ [0, 0, 0, 0] ++ (barBlock 0x04 0 0x0423 6).bytes)
      [2, 0xFF, 0, 2, 0x80, 0] with
    mikey := fun r =>
      if r = 0x95 then 0xC0 else if r = 0xA5 then 0x0F else if r = 0xB5 then 0xA0
      else if r = 0xA6 then 0x03 else if r = 0xB6 then 0x5C else 0 }

theorem span_outside {base : Addr} {bytes : Nat} (low : base.toNat + bytes ≤ 0xC000) (a : Addr)
    (inside : span base bytes a) : ¬ inVideoBuffer 0xC000 a := by
  rcases inside with ⟨k, below, rfl⟩
  apply not_inVideoBuffer (by decide)
  rw [BitVec.lt_def, BitVec.toNat_add, BitVec.toNat_ofNat]
  change _ < 0xC000
  omega

section Bars

variable {ctl0 : Byte} {next data scb : Addr} {pen : BitVec 4} {m : Addr → Byte}

theorem barBlock_reload : (barBlock ctl0 next data pen).header.reload = 0 :=
  (by decide : ((0x80 : Byte) >>> 4 &&& 3).toNat = 0)

theorem barBlock_palette : 2 ^ (barBlock ctl0 next data pen).header.bpp / 2 ≤ 8 := by
  have small := (barBlock ctl0 next data pen).header.bpp_le
  have room : 2 ^ (barBlock ctl0 next data pen).header.bpp ≤ 2 ^ 4 :=
    Nat.pow_le_pow_right (by decide) small
  omega

theorem barBlock_bytes : (barBlock ctl0 next data pen).bytes.length ≤ 19 := by
  have few := @barBlock_palette ctl0 next data pen
  have palette : (barBlock ctl0 next data pen).paletteBytes.length ≤
      2 ^ (barBlock ctl0 next data pen).header.bpp / 2 := by
    unfold ControlBlock.paletteBytes
    split
    · rw [List.length_map, List.length_range]
    · exact Nat.zero_le _
  have header : (barBlock ctl0 next data pen).headerBytes.length = 11 := rfl
  have sizes : (barBlock ctl0 next data pen).sizes = [] := rfl
  rw [ControlBlock.bytes, List.length_append, List.length_append, header, sizes]
  change 11 + 0 + _ ≤ 19
  omega

theorem bar_lies {row : List (BitVec (barBlock ctl0 next data pen).header.bpp)}
    (laid : (barBlock ctl0 next data pen).LaidOut m scb) (low : scb.toNat < 0xBF00)
    (offset : m data = 2) (holds : LineHolds m data 2 (penBits row) 0) (last : m (data + 2) = 0)
    (low' : data.toNat < 0xBF00) :
    SceneSprite.LiesAt ⟨barBlock ctl0 next data pen, [row]⟩ 0xC000 m scb where
  block := laid
  palette := .inr (.inl (by rw [barBlock_reload]; decide))
  bitmap _ := by
    have more : (m data).setWidth 16 = (2 : Addr) := by
      rw [offset]
      rfl
    have literal : ((0x80 : Byte) &&& 0x80 != 0) = true := by decide
    have room : data.toNat + (m data).toNat ≤ 0xC000 := by
      rw [offset]
      change _ + 2 ≤ _
      omega
    rw [← offset] at holds
    rw [← more] at last
    refine ⟨?_, .literal literal (Nat.succ_pos _) holds, ?_, last⟩
    · exact span_outside room
    · refine span_outside ?_ _ ⟨0, Nat.one_pos, (BitVec.add_zero _).symm⟩
      change (data + (m data).setWidth 16).toNat + 1 ≤ _
      rw [more]
      bv_omega
  blockOutside := by
    have few := @barBlock_bytes ctl0 next data pen
    have room : scb.toNat + (barBlock ctl0 next data pen).bytes.length ≤ 0xC000 := by omega
    exact span_outside room
  paletteOutside _ := by
    have few := @barBlock_palette ctl0 next data pen
    have place : (barBlock ctl0 next data pen).header.palette scb = scb + 11 := by
      rw [Scb.palette, barBlock_reload]
      exact BitVec.add_zero _
    rw [place]
    exact span_outside (by bv_omega)

end Bars

theorem twoBars_laidOut : SceneAt 0xC000 twoBarsMachine.ram 0x0400 twoBars := by
  have first : (barBlock 0x00 0x0410 0x0420 5).LaidOut twoBarsMachine.ram 0x0400 := by
    unfold ControlBlock.LaidOut Layout.At
    decide
  have second : (barBlock 0x04 0 0x0423 6).LaidOut twoBarsMachine.ram 0x0410 := by
    unfold ControlBlock.LaidOut Layout.At
    decide
  have row : LineHolds twoBarsMachine.ram 0x0420 2
      (penBits ([1, 1, 1, 1, 1, 1, 1, 1] : List (BitVec 1))) 0 := by
    unfold LineHolds
    decide
  have row' : LineHolds twoBarsMachine.ram 0x0423 2
      (penBits ([1, 0, 0, 0, 0, 0, 0, 0] : List (BitVec 1))) 0 := by
    unfold LineHolds
    decide
  refine ⟨by decide, ?_, show (0x0410 : Addr) ≠ 0 by decide, ?_, rfl⟩
  · exact bar_lies first (by decide) (by decide) row (by decide) (by decide)
  · exact bar_lies second (by decide) (by decide) row' (by decide) (by decide)

theorem twoBars_shown :
    (lynxVideoRender (lynxMemWrite Hooks.none 0xFC91 1 twoBarsMachine) ⟨8, by decide⟩
        ⟨10, by decide⟩).toNat = 0xFFCC3355 ∧
      (lynxVideoRender (lynxMemWrite Hooks.none 0xFC91 1 twoBarsMachine) ⟨8, by decide⟩
        ⟨11, by decide⟩).toNat = 0xFF00FFAA := by
  have shown := @scene_shown Unit Hooks.none twoBarsMachine 1 (by decide) (by decide) twoBars
    twoBars_laidOut
  exact ⟨(shown _ _).trans (by decide), (shown _ _).trans (by decide)⟩

end LynxRecomp
