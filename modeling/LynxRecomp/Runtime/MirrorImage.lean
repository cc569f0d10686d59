import LynxRecomp.Runtime.XorSprites

/-!
# Mirror images

Two runs of the blitter, the second over control blocks with a flip bit toggled and the
position mirrored: every call of the first run is made at the mirror image of its pixel.
-/

namespace LynxRecomp

open BusProgram

variable {η : Type}

/-- The flip, by its bit in SPRCTL0. -/
inductive Axis where
  | horizontal | vertical
  deriving DecidableEq, Repr

namespace Axis

variable (ax : Axis)

def bit : Byte :=
  match ax with
  | horizontal => 0x20
  | vertical => 0x10

/-- The position that goes with the flip -/
def part : Part :=
  match ax with
  | horizontal => .hpos
  | vertical => .vpos

def column (x : Int) : Int :=
  match ax with
  | horizontal => 159 - x
  | vertical => x

def row (y : Int) : Int :=
  match ax with
  | horizontal => y
  | vertical => 101 - y

theorem column_column (x : Int) : ax.column (ax.column x) = x := by
  cases ax with
  | horizontal => exact Int.sub_sub_self 159 x
  | vertical => rfl

theorem row_row (y : Int) : ax.row (ax.row y) = y := by
  cases ax with
  | horizontal => rfl
  | vertical => exact Int.sub_sub_self 101 y

theorem onScreen_mirror {x y : Int} (visible : onScreen x y = true) :
    onScreen (ax.column x) (ax.row y) = true := by
  have range := visible_bounds visible
  apply decide_eq_true
  change 0 ≤ _ ∧ _ < 160 ∧ 0 ≤ _ ∧ _ < 102
  cases ax with
  | horizontal =>
    simp only [column, row]
    omega
  | vertical =>
    simp only [column, row]
    omega

end Axis

def Call.mirror (ax : Axis) (c : Call) : Call :=
  { c with x := ax.column c.x, y := ax.row c.y }

def Line.mirror (ax : Axis) (l : Line) : Line :=
  match ax with
  | .horizontal => { l with sx := 159 - l.sx, hflip := !l.hflip }
  | .vertical => { l with y := 101 - l.y }

def Sprite.mirror (ax : Axis) (s : Sprite) : Sprite :=
  match ax with
  | .horizontal => { s with sx := 159 - s.sx, hflip := !s.hflip }
  | .vertical => { s with sy := 101 - s.sy, vflip := !s.vflip }

section Lines

variable (ax : Axis)

namespace Line

variable (l : Line)

theorem call_mirror (col : Int) (px : Byte) :
    (l.mirror ax).call col px = (l.call col px).mirror ax := by
  cases ax with
  | horizontal =>
    have column : (if !l.hflip then 159 - l.sx - col else 159 - l.sx + col) =
        159 - (if l.hflip then l.sx - col else l.sx + col) := by
      cases l.hflip with
      | false => exact Int.sub_sub 159 l.sx col
      | true =>
        change 159 - l.sx + col = 159 - (l.sx - col)
        omega
    exact congrArg (fun x => (⟨x, l.y, px, l.type⟩ : Call)) column
  | vertical => rfl

theorem mirror_bpp : (l.mirror ax).bpp = l.bpp := by cases ax <;> rfl

theorem mirror_penOf (v : Word) : (l.mirror ax).penOf v = l.penOf v := by cases ax <;> rfl

theorem fetchBits_mirror (b : Bitr) (n : Nat) :
    (fetchBits b n).mapStrokes (Call.mirror ax) = fetchBits b n :=
  Sketch.mapStrokes_eq (F := fun _ => True) (P := fun _ => False) (fun _ none => none.elim)
    (fetchBitsFrom_only (fun _ => trivial) n 0 b)

theorem drawCall_mirror (c : Call) :
    (drawCall c).mapStrokes (Call.mirror ax) = drawCall (c.mirror ax) := rfl

theorem literalSketch_mirror (n : Nat) (bits col : Int) (br : Bitr) :
    (l.mirror ax).literalSketch n bits col br =
      (l.literalSketch n bits col br).mapStrokes (Call.mirror ax) := by
  induction n generalizing bits col br with
  | zero => rfl
  | succ n ih =>
    rw [literalSketch, literalSketch, mirror_bpp]
    split
    · rfl
    · rw [Sketch.mapStrokes_bind, fetchBits_mirror]
      apply bind_congr
      rintro ⟨v, br⟩
      dsimp only
      rw [Sketch.mapStrokes_bind, drawCall_mirror, mirror_penOf, call_mirror, ih]

theorem literalRunSketch_mirror (n : Nat) (bits col : Int) (br : Bitr) :
    (l.mirror ax).literalRunSketch n bits col br =
      (l.literalRunSketch n bits col br).mapStrokes (Call.mirror ax) := by
  induction n generalizing bits col br with
  | zero => rfl
  | succ n ih =>
    rw [literalRunSketch, literalRunSketch, mirror_bpp]
    split
    · rfl
    · rw [Sketch.mapStrokes_bind, fetchBits_mirror]
      apply bind_congr
      rintro ⟨v, br⟩
      dsimp only
      rw [Sketch.mapStrokes_bind, drawCall_mirror, mirror_penOf, call_mirror, ih]

theorem copiesSketch_mirror (px : Byte) (n : Nat) (col : Int) :
    (l.mirror ax).copiesSketch px n col =
      (l.copiesSketch px n col).mapStrokes (Call.mirror ax) := by
  induction n generalizing col with
  | zero => rfl
  | succ n ih =>
    rw [copiesSketch, copiesSketch, Sketch.mapStrokes_bind, drawCall_mirror, call_mirror]
    simp only [ih]

theorem packedSketch_mirror (n : Nat) (bits col : Int) (br : Bitr) :
    (l.mirror ax).packedSketch n bits col br =
      (l.packedSketch n bits col br).mapStrokes (Call.mirror ax) := by
  induction n generalizing bits col br with
  | zero => rfl
  | succ n ih =>
    rw [packedSketch, packedSketch, mirror_bpp]
    split
    · rfl
    · rw [Sketch.mapStrokes_bind, fetchBits_mirror]
      apply bind_congr
      rintro ⟨flag, br⟩
      dsimp only
      split
      · rw [Sketch.mapStrokes_bind, fetchBits_mirror]
        apply bind_congr
        rintro ⟨cnt, br⟩
        dsimp only
        rw [Sketch.mapStrokes_bind, literalRunSketch_mirror]
        simp only [ih]
      · rw [Sketch.mapStrokes_bind, fetchBits_mirror]
        apply bind_congr
        rintro ⟨cnt, br⟩
        dsimp only
        split
        · rfl
        · split
          · rfl
          · rw [Sketch.mapStrokes_bind, fetchBits_mirror]
            apply bind_congr
            rintro ⟨v, br⟩
            dsimp only
            rw [Sketch.mapStrokes_bind, mirror_penOf, copiesSketch_mirror]
            simp only [ih]

theorem drawSketch_mirror (literal : Bool) (offset : Byte) (dp : Addr) :
    (l.mirror ax).drawSketch literal offset dp =
      (l.drawSketch literal offset dp).mapStrokes (Call.mirror ax) := by
  simp only [drawSketch]
  split
  · rfl
  · split
    · exact l.literalSketch_mirror ax _ _ _ _
    · exact l.packedSketch_mirror ax _ _ _ _

end Line

namespace Sprite

variable (s : Sprite)

theorem mirror_lineAt (line : Nat) :
    (s.mirror ax).lineAt line = (s.lineAt line).mirror ax := by
  cases ax with
  | horizontal => rfl
  | vertical =>
    have row : (if !s.vflip then 101 - s.sy - line else 101 - s.sy + line) =
        101 - (if s.vflip then s.sy - line else s.sy + line : Int) := by
      cases s.vflip with
      | false => exact Int.sub_sub 101 s.sy line
      | true =>
        change 101 - s.sy + line = 101 - (s.sy - line)
        omega
    exact congrArg (fun y => (⟨s.vidbas, s.sx, y, s.hflip, s.bpp, s.type, s.pen⟩ : Line)) row

theorem mirror_literal : (s.mirror ax).literal = s.literal := by cases ax <;> rfl

/-- The lines of the mirrored sprite are the lines with every call mirrored. -/
theorem linesSketch_mirror (n line : Nat) (dp : Addr) :
    (s.mirror ax).linesSketch n line dp =
      (s.linesSketch n line dp).mapStrokes (Call.mirror ax) := by
  induction n generalizing line dp with
  | zero => rfl
  | succ n ih =>
    have offset : (fetchByte .offset dp).mapStrokes (Call.mirror ax) = fetchByte .offset dp := rfl
    rw [linesSketch, linesSketch, Sketch.mapStrokes_bind, offset]
    apply bind_congr
    intro offset
    split
    · rfl
    · rw [Sketch.mapStrokes_bind, mirror_lineAt, mirror_literal, Line.drawSketch_mirror]
      simp only [ih]

end Sprite

end Lines

/-- The picture in `m'` is the mirror image of the one in `m`. -/
def Mirrored (ax : Axis) (vidbas : Addr) (m m' : Addr → Byte) : Prop :=
  ∀ x y, onScreen x y = true → penAt vidbas m' x y = penAt vidbas m (ax.column x) (ax.row y)

theorem Mirrored.drawnBy {ax : Axis} {vidbas : Addr} {m m' : Addr → Byte}
    (picture : Mirrored ax vidbas m m') (c : Call) :
    Mirrored ax vidbas (drawnBy vidbas m c) (drawnBy vidbas m' (c.mirror ax)) := by
  intro x y visible
  have here : (c.mirror ax).at_ x y = c.at_ (ax.column x) (ax.row y) := by
    rw [Bool.eq_iff_iff]
    simp only [Call.at_, Call.mirror, Bool.and_eq_true, beq_iff_eq]
    constructor
    · rintro ⟨rfl, rfl⟩
      exact ⟨(ax.column_column _).symm, (ax.row_row _).symm⟩
    · rintro ⟨column, row⟩
      rw [column, row, ax.column_column, ax.row_row]
      exact ⟨rfl, rfl⟩
  rw [penAt_drawnBy visible, penAt_drawnBy (ax.onScreen_mirror visible), here,
    picture x y visible]
  rfl

/-- The block at `scb` in `m'` has the flip bit toggled and the position mirrored. -/
structure FlippedAt (ax : Axis) (hoff voff : Int) (m m' : Addr → Byte) (scb : Addr) : Prop where
  ctl0 : m' scb = m scb ^^^ ax.bit
  column : (scbAt m' scb).hpos.toInt - hoff = ax.column ((scbAt m scb).hpos.toInt - hoff)
  row : (scbAt m' scb).vpos.toInt - voff = ax.row ((scbAt m scb).vpos.toInt - voff)

section Blocks

variable {ax : Axis}

theorem toggled_bits : ∀ (b : Byte),
    ((b ^^^ 0x20) >>> 6) &&& 3 = (b >>> 6) &&& 3 ∧ (b ^^^ 0x20) &&& 0x07 = b &&& 0x07 ∧
      ((b ^^^ 0x20) &&& 0x20 != 0) = !(b &&& 0x20 != 0) ∧
      ((b ^^^ 0x20) &&& 0x10 != 0) = (b &&& 0x10 != 0) ∧
    ((b ^^^ 0x10) >>> 6) &&& 3 = (b >>> 6) &&& 3 ∧ (b ^^^ 0x10) &&& 0x07 = b &&& 0x07 ∧
      ((b ^^^ 0x10) &&& 0x20 != 0) = (b &&& 0x20 != 0) ∧
      ((b ^^^ 0x10) &&& 0x10 != 0) = !(b &&& 0x10 != 0) := by decide

/-- A block that differs from another by the flip alone -/
structure Scb.Flip (ax : Axis) (hoff voff : Int) (h h' : Scb) : Prop where
  ctl0 : h'.ctl0 = h.ctl0 ^^^ ax.bit
  ctl1 : h'.ctl1 = h.ctl1
  next : h'.next = h.next
  data : h'.data = h.data
  column : h'.hpos.toInt - hoff = ax.column (h.hpos.toInt - hoff)
  row : h'.vpos.toInt - voff = ax.row (h.vpos.toInt - voff)

namespace Scb.Flip

variable {hoff voff : Int} {h h' : Scb} (flip : Scb.Flip ax hoff voff h h')

include flip

theorem bpp : h'.bpp = h.bpp := by
  unfold Scb.bpp
  rw [flip.ctl0]
  cases ax with
  | horizontal => exact congrArg (·.toNat + 1) (toggled_bits h.ctl0).1
  | vertical => exact congrArg (·.toNat + 1) (toggled_bits h.ctl0).2.2.2.2.1

theorem pensSketch (scb : Addr) (pen : Fin 16 → Byte) :
    h'.pensSketch scb pen = h.pensSketch scb pen := by
  unfold Scb.pensSketch Scb.palette Scb.reload
  rw [flip.bpp, flip.ctl1]

/-- The flipped block draws the mirrored sprite. -/
theorem sprite (vidbas : Addr) (pen : Fin 16 → Byte) :
    h'.sprite vidbas hoff voff pen = (h.sprite vidbas hoff voff pen).mirror ax := by
  have bpp := flip.bpp
  have column := flip.column
  have row := flip.row
  unfold Scb.sprite
  rw [flip.ctl0, flip.ctl1, bpp, column, row]
  rcases toggled_bits h.ctl0 with ⟨-, type, hflip, vflip, -, type', hflip', vflip'⟩
  cases ax with
  | horizontal =>
    simp only [Axis.bit, type, hflip, vflip]
    rfl
  | vertical =>
    simp only [Axis.bit, type', hflip', vflip']
    rfl

theorem drawSketch (vidbas : Addr) (pen : Fin 16 → Byte) :
    h'.drawSketch vidbas hoff voff pen =
      (h.drawSketch vidbas hoff voff pen).mapStrokes (Call.mirror ax) := by
  unfold Scb.drawSketch
  rw [flip.ctl1, flip.data, flip.sprite]
  split
  · exact Sprite.linesSketch_mirror ax _ _ _ _
  · rfl

end Scb.Flip

end Blocks

section Chain

variable {ax : Axis} {vidbas : Addr} {m₀ m₀' m m' : Addr → Byte}

/-- Two runs that started from `m₀` and `m₀'` have drawn mirror images so far. -/
structure MirrorRuns (ax : Axis) (vidbas : Addr) (m₀ m₀' m m' : Addr → Byte) : Prop where
  first : AgreeOutside vidbas m₀ m
  second : AgreeOutside vidbas m₀' m'
  picture : Mirrored ax vidbas m m'

theorem MirrorRuns.painted (runs : MirrorRuns ax vidbas m₀ m₀' m m') (c : Call) :
    MirrorRuns ax vidbas m₀ m₀' (drawnBy vidbas m c) (drawnBy vidbas m' (c.mirror ax)) where
  first a apart := (drawnBy_outside apart m c).trans (runs.first a apart)
  second a apart := (drawnBy_outside apart m' (c.mirror ax)).trans (runs.second a apart)
  picture := runs.picture.drawnBy c

/-- What the flip leaves alone, and the second run reads as the first. -/
def Kept (ax : Axis) (m₀ m₀' : Addr → Byte) (f : Fetch) : Prop :=
  f.part ≠ .ctl0 → f.part ≠ ax.part → m₀' f.addr = m₀ f.addr

/-- A part of the blitter that reads no more than what the flip leaves alone. -/
theorem MirrorRuns.run {α : Type} {q : Blit α} (runs : MirrorRuns ax vidbas m₀ m₀' m m')
    (parts : q.Only (fun f => f.part ≠ .ctl0 ∧ f.part ≠ ax.part) fun _ => True)
    (outside : FetchedOutside vidbas q m)
    (kept : ∀ f ∈ q.fetches (canvas vidbas) m, Kept ax m₀ m₀' f) :
    (q.mapStrokes (Call.mirror ax)).result (canvas vidbas) m' = q.result (canvas vidbas) m ∧
      MirrorRuns ax vidbas m₀ m₀' (q.drawn (canvas vidbas) m)
        ((q.mapStrokes (Call.mirror ax)).drawn (canvas vidbas) m') := by
  have both := Sketch.run_related (canvas vidbas) (R := MirrorRuns ax vidbas m₀ m₀')
    (g := Call.mirror ax)
    (S := fun f => ¬ inVideoBuffer vidbas f.addr ∧ m₀' f.addr = m₀ f.addr)
    (fun f m m' shared runs => by
      have first := runs.first f.addr shared.1
      have second := runs.second f.addr shared.1
      exact second.trans (shared.2.trans first.symm))
    (fun c m m' runs => runs.painted c)
    (fun f fetched => by
      rcases parts.fetches m f fetched with ⟨control, position⟩
      exact ⟨outside f fetched, kept f fetched control position⟩)
    runs
  exact ⟨both.1, both.2.2⟩

theorem scbAt_agree (agree : AgreeOutside vidbas m₀ m) {scb : Addr}
    (apart : ∀ f ∈ headerFetches scb, ¬ inVideoBuffer vidbas f.addr) :
    scbAt m scb = scbAt m₀ scb := by
  simp only [headerFetches, List.forall_mem_cons] at apart
  rcases apart with ⟨ctl0, ctl1, next, next', data, data', hpos, hpos', vpos, vpos', -⟩
  unfold scbAt
  rw [agree _ ctl0, agree _ ctl1, agree _ next, agree _ next', agree _ data, agree _ data',
    agree _ hpos, agree _ hpos', agree _ vpos, agree _ vpos']

theorem part_ne (part : Part) (other : part ≠ .hpos ∧ part ≠ .vpos) : part ≠ ax.part := by
  cases ax with
  | horizontal => exact other.1
  | vertical => exact other.2

theorem elsewhere {part : Part} (other : part ≠ .ctl0 ∧ part ≠ .hpos ∧ part ≠ .vpos) (a : Addr) :
    (⟨part, a⟩ : Fetch).part ≠ .ctl0 ∧ (⟨part, a⟩ : Fetch).part ≠ ax.part :=
  ⟨other.1, part_ne part other.2⟩

/-- The flipped blocks, as the turns of the loop read them. -/
theorem flip_of_flippedAt {hoff voff : Int} {scb : Addr}
    (flipped : FlippedAt ax hoff voff m₀ m₀' scb)
    (kept : ∀ f ∈ headerFetches scb, Kept ax m₀ m₀' f) :
    Scb.Flip ax hoff voff (scbAt m₀ scb) (scbAt m₀' scb) := by
  simp only [headerFetches, List.forall_mem_cons, Kept] at kept
  rcases kept with ⟨-, ctl1, next, next', data, data', -⟩
  have ctl1 := ctl1 (by decide) (part_ne _ (by decide))
  have next := next (by decide) (part_ne _ (by decide))
  have next' := next' (by decide) (part_ne _ (by decide))
  have data := data (by decide) (part_ne _ (by decide))
  have data' := data' (by decide) (part_ne _ (by decide))
  exact
    { ctl0 := flipped.ctl0
      ctl1 := ctl1
      next := congrArg₂ word16 next next'
      data := congrArg₂ word16 data data'
      column := flipped.column
      row := flipped.row }

/-- The second run loads the pens that the first one loads. -/
theorem MirrorRuns.pens (runs : MirrorRuns ax vidbas m₀ m₀' m m') {hoff voff : Int} {scb : Addr}
    (flip : Scb.Flip ax hoff voff (scbAt m scb) (scbAt m' scb)) (pen : Fin 16 → Byte)
    (outside : FetchedOutside vidbas ((scbAt m scb).pensSketch scb pen) m)
    (kept : ∀ f ∈ ((scbAt m scb).pensSketch scb pen).fetches (canvas vidbas) m,
      Kept ax m₀ m₀' f) : pensAt vidbas m' scb pen = pensAt vidbas m scb pen := by
  have loaded := runs.run (q := (scbAt m scb).pensSketch scb pen)
    (Scb.pensSketch_only (elsewhere (by decide)) _ scb pen) outside kept
  rw [Sketch.mapStrokes_eq (fun _ none => none.elim) (pensSketch_quiet _ scb pen)] at loaded
  rw [pensAt, flip.pensSketch]
  exact loaded.1

/-- Over flipped blocks the SCB loop draws the mirror image. -/
theorem scbLoopSketch_mirror {hoff voff : Int} {n : Nat} {scb : Addr} {pen : Fin 16 → Byte}
    (runs : MirrorRuns ax vidbas m₀ m₀' m m')
    (outside : FetchedOutside vidbas (scbLoopSketch vidbas hoff voff n scb pen) m)
    (flipped : ∀ f ∈ (scbLoopSketch vidbas hoff voff n scb pen).fetches (canvas vidbas) m,
      f.part = .ctl0 → FlippedAt ax hoff voff m₀ m₀' f.addr)
    (kept : ∀ f ∈ (scbLoopSketch vidbas hoff voff n scb pen).fetches (canvas vidbas) m,
      Kept ax m₀ m₀' f) :
    MirrorRuns ax vidbas m₀ m₀'
      ((scbLoopSketch vidbas hoff voff n scb pen).drawn (canvas vidbas) m)
      ((scbLoopSketch vidbas hoff voff n scb pen).drawn (canvas vidbas) m') := by
  induction n generalizing scb pen m m' with
  | zero => exact runs
  | succ n ih =>
    by_cases last : scb = 0
    · rw [scbLoopSketch, if_pos last]
      exact runs
    · unfold FetchedOutside at outside
      rw [scbLoopSketch_fetches last] at outside flipped kept
      simp only [List.forall_mem_append] at outside flipped kept
      rcases outside with ⟨header, pens, data, later⟩
      rcases flipped with ⟨block, -, -, blocks⟩
      rcases kept with ⟨keptHeader, keptPens, keptData, keptLater⟩
      have first := scbAt_agree runs.first header
      have second := scbAt_agree runs.second header
      have flip : Scb.Flip ax hoff voff (scbAt m scb) (scbAt m' scb) := by
        rw [first, second]
        exact flip_of_flippedAt (block _ List.mem_cons_self rfl) keptHeader
      have pen' := runs.pens flip pen pens keptPens
      have drawn := runs.run (q := turnSketch vidbas hoff voff m scb pen)
        (turnSketch_only (elsewhere (by decide)) (elsewhere (by decide)) fun _ _ _ => trivial)
        data keptData
      have turn' : turnSketch vidbas hoff voff m' scb pen =
          (turnSketch vidbas hoff voff m scb pen).mapStrokes (Call.mirror ax) := by
        rw [turnSketch, pen', flip.drawSketch]
        rfl
      rw [scbLoopSketch_drawn last, scbLoopSketch_drawn last, turn', pen', flip.next]
      exact ih drawn.2 later blocks keptLater

end Chain

/-- Toggle a flip bit in every control block, mirror the position and the picture, and leave
alone whatever else the blitter reads: the result is the mirror image. -/
theorem lynxSuzyBlit_mirror (ax : Axis) {hw hw' : Hw η} (regs : hw'.suzy.reg = hw.suzy.reg)
    (outside : ∀ f ∈ blitFetches hw, ¬ inVideoBuffer (sreg16 hw.suzy suzyVidbasl) f.addr)
    (flipped : ∀ f ∈ blitFetches hw, f.part = .ctl0 →
      FlippedAt ax (sreg16 hw.suzy suzyHoffl).toInt (sreg16 hw.suzy suzyVoffl).toInt
        hw.ram hw'.ram f.addr)
    (kept : ∀ f ∈ blitFetches hw, Kept ax hw.ram hw'.ram f)
    (picture : Mirrored ax (sreg16 hw.suzy suzyVidbasl) hw.ram hw'.ram) :
    Mirrored ax (sreg16 hw.suzy suzyVidbasl) (lynxSuzyBlit hw).ram (lynxSuzyBlit hw').ram := by
  have vidbas : sreg16 hw'.suzy suzyVidbasl = sreg16 hw.suzy suzyVidbasl := by
    rw [sreg16, sreg16, regs]
  have sketch : blitSketch hw'.suzy = blitSketch hw.suzy := by
    unfold blitSketch sreg16
    rw [regs]
  rw [lynxSuzyBlit_ram, lynxSuzyBlit_ram, vidbas, sketch]
  have start : MirrorRuns ax _ hw.ram hw'.ram hw.ram hw'.ram :=
    ⟨fun _ _ => rfl, fun _ _ => rfl, picture⟩
  exact (scbLoopSketch_mirror start outside flipped kept).picture

/-- A sprite at row 8 with its data at `dataAt`: a block at `$0400` with a byte 2 before it, and
a line of five copies of pen 0 at `$0420`. -/
def flipMachine (dataAt : Addr) (ctl0 hpos : Byte) : Hw Unit :=
  let block := [2, 0, 0, 0, 0, 0, dataAt.setWidth 8, (dataAt >>> 8).setWidth 8, 0, 0, 8, 0, 0x50]
  { Hw.zeroed () with
    suzy := { reg := fun r => if r = 0x09 then 0xC0 else if r = 0x11 then 0x04 else 0, busy := 0 }
    ram := Function.update (Function.update
      (fun a => holding block 0x03FF a ||| holding [2, 0x22, 0] 0x0420 a) 0x0400 ctl0) 0x0407 hpos }

theorem holding_above {bs : List Byte} {a x : Addr} (above : a.toNat + bs.length ≤ x.toNat) :
    holding bs a x = 0 := by
  have index : (x - a).toNat = x.toNat - a.toNat := by
    rw [BitVec.toNat_sub_of_le (BitVec.le_def.mpr (by omega))]
  rw [holding, List.getD_eq_default _ _ (by omega)]

theorem flipMachine_blank (dataAt : Addr) (ctl0 hpos : Byte) {a : Addr}
    (inside : inVideoBuffer 0xC000 a) : (flipMachine dataAt ctl0 hpos).ram a = 0 := by
  rcases inside with ⟨k, small, rfl⟩
  change k < 8160 at small
  have place : (0xC000 + BitVec.ofNat 16 k : Addr).toNat = 0xC000 + k := by
    rw [BitVec.toNat_add, BitVec.toNat_ofNat]
    change (49152 + k % 65536) % 65536 = 49152 + k
    omega
  have ne (b : Addr) (low : b.toNat < 0xC000) : (0xC000 + BitVec.ofNat 16 k : Addr) ≠ b := by
    rintro rfl
    omega
  unfold flipMachine
  dsimp only
  rw [Function.update_of_ne (ne 0x0407 (by decide)), Function.update_of_ne (ne 0x0400 (by decide)),
    holding_above (a := 0x03FF) (by rw [place]; change 1023 + 13 ≤ _; omega),
    holding_above (a := 0x0420) (by rw [place]; change 1056 + 3 ≤ _; omega)]
  rfl

theorem flipMachine_mirrored (ax : Axis) (dataAt : Addr) (ctl0 hpos ctl0' hpos' : Byte) :
    Mirrored ax 0xC000 (flipMachine dataAt ctl0 hpos).ram (flipMachine dataAt ctl0' hpos').ram := by
  intro x y visible
  have there := ax.onScreen_mirror visible
  rw [penAt, penAt, flipMachine_blank _ _ _ (pixelAddr_inVideoBuffer _ visible),
    flipMachine_blank _ _ _ (pixelAddr_inVideoBuffer _ there)]
  unfold half
  split
  · split <;> rfl
  · split <;> rfl

theorem flipMachine_flipped :
    Mirrored .horizontal 0xC000 (lynxSuzyBlit (flipMachine 0x0420 0x02 10)).ram
      (lynxSuzyBlit (flipMachine 0x0420 0x22 149)).ram := by
  have below : ∀ f ∈ blitFetches (flipMachine 0x0420 0x02 10), f.addr < 0xC000 := by
    decide +kernel
  have block : ∀ f ∈ blitFetches (flipMachine 0x0420 0x02 10),
      f.part = .ctl0 → f.addr = 0x0400 := by
    decide +kernel
  refine @lynxSuzyBlit_mirror Unit .horizontal (flipMachine 0x0420 0x02 10)
    (flipMachine 0x0420 0x22 149) rfl ?_ ?_ ?_ ?_
  · exact fun f fetched => not_inVideoBuffer (by decide) (below f fetched)
  · intro f fetched control
    rw [block f fetched control]
    exact ⟨by decide, by decide, by decide⟩
  · unfold Kept
    decide +kernel
  · exact flipMachine_mirrored _ _ _ _ _ _

/-- Where a control byte is sprite data too, toggling its flip bit changes what is drawn. -/
theorem sharedByte_notMirrored :
    ¬ ∀ (ax : Axis) (hw hw' : Hw Unit), hw'.suzy.reg = hw.suzy.reg →
      (∀ f ∈ blitFetches hw, ¬ inVideoBuffer (sreg16 hw.suzy suzyVidbasl) f.addr) →
      (∀ f ∈ blitFetches hw, f.part = .ctl0 →
        FlippedAt ax (sreg16 hw.suzy suzyHoffl).toInt (sreg16 hw.suzy suzyVoffl).toInt
          hw.ram hw'.ram f.addr) →
      (∀ a, ¬ inVideoBuffer (sreg16 hw.suzy suzyVidbasl) a →
        (∀ f ∈ blitFetches hw, f.part = .ctl0 ∨ f.part = ax.part → f.addr ≠ a) →
          hw'.ram a = hw.ram a) →
      Mirrored ax (sreg16 hw.suzy suzyVidbasl) hw.ram hw'.ram →
      Mirrored ax (sreg16 hw.suzy suzyVidbasl) (lynxSuzyBlit hw).ram (lynxSuzyBlit hw').ram := by
  intro mirrors
  have below : ∀ f ∈ blitFetches (flipMachine 0x03FF 0x02 10), f.addr < 0xC000 := by
    decide +kernel
  have block : ∀ f ∈ blitFetches (flipMachine 0x03FF 0x02 10),
      f.part = .ctl0 → f.addr = 0x0400 := by
    decide +kernel
  have mirrored := mirrors .horizontal (flipMachine 0x03FF 0x02 10) (flipMachine 0x03FF 0x22 149)
    rfl
    (fun f fetched => not_inVideoBuffer (by decide) (below f fetched))
    (by
      intro f fetched control
      rw [block f fetched control]
      exact ⟨by decide, by decide, by decide⟩)
    (by
      intro a _ elsewhere
      have ctl0 := elsewhere ⟨.ctl0, 0x0400⟩ (by decide +kernel) (.inl rfl)
      have hpos := elsewhere ⟨.hpos, 0x0407⟩ (by decide +kernel) (.inr rfl)
      unfold flipMachine
      dsimp only at ctl0 hpos ⊢
      rw [Function.update_of_ne hpos.symm, Function.update_of_ne hpos.symm,
        Function.update_of_ne ctl0.symm, Function.update_of_ne ctl0.symm])
    (flipMachine_mirrored _ _ _ _ _ _)
  have pixel := mirrored 149 8 (by decide)
  revert pixel
  decide

end LynxRecomp
