import LynxRecomp.Lib.BitStream
import LynxRecomp.Runtime.Suzy

/-!
# What a sprite line draws

The pixels of a line, as pairs of a column and a pen index, in the order in which they are
drawn. They depend on the bytes of the line alone, even where the bit reader goes past them.
-/

namespace LynxRecomp

open BusProgram BitStream

/-- A pixel: its column and its pen index -/
abbrev Pixel := Int × Word

namespace Line

variable (l : Line)

def drawPixel (p : Pixel) : Dma Unit := l.plot p.1 (l.penOf p.2)

/-- `literal`, with the pixels drawn. -/
def literalPixels : Nat → Int → Int → Bitr → Dma (List Pixel)
  | 0, _, _, _ => pure []
  | fuel + 1, lineBits, col, br =>
    if lineBits < l.bpp then pure []
    else do
      let (v, br) ← bitsGet br l.bpp
      l.drawPixel (col, v)
      let pixels ← literalPixels fuel (lineBits - l.bpp) (col + 1) br
      pure ((col, v) :: pixels)

/-- `literalRun`, with the pixels drawn. -/
def literalRunPixels : Nat → Int → Int → Bitr → Dma ((Int × Int × Bitr) × List Pixel)
  | 0, lineBits, col, br => pure ((lineBits, col, br), [])
  | cnt + 1, lineBits, col, br =>
    if lineBits < l.bpp then pure ((lineBits, col, br), [])
    else do
      let (v, br) ← bitsGet br l.bpp
      l.drawPixel (col, v)
      let (after, pixels) ← literalRunPixels cnt (lineBits - l.bpp) (col + 1) br
      pure (after, (col, v) :: pixels)

/-- `copies`, with the pixels drawn. -/
def copiesPixels (v : Word) : Nat → Int → Dma (Int × List Pixel)
  | 0, col => pure (col, [])
  | n + 1, col => do
    l.drawPixel (col, v)
    let (after, pixels) ← copiesPixels v n (col + 1)
    pure (after, (col, v) :: pixels)

/-- `packed`, with the pixels drawn. -/
def packedPixels : Nat → Int → Int → Bitr → Dma (List Pixel)
  | 0, _, _, _ => pure []
  | fuel + 1, lineBits, col, br =>
    if lineBits ≤ 0 then pure []
    else do
      let (isLit, br) ← bitsGet br 1
      let lineBits := lineBits - 1
      if isLit ≠ 0 then
        let (cnt, br) ← bitsGet br 4
        let ((lineBits, col, br), run) ← l.literalRunPixels (cnt.toNat + 1) (lineBits - 4) col br
        let pixels ← packedPixels fuel lineBits col br
        pure (run ++ pixels)
      else
        let (cnt, br) ← bitsGet br 4
        let lineBits := lineBits - 4
        if cnt = 0 then pure []
        else if lineBits < l.bpp then pure []
        else
          let (v, br) ← bitsGet br l.bpp
          let (col, run) ← l.copiesPixels v (cnt.toNat + 1) col
          let pixels ← packedPixels fuel (lineBits - l.bpp) col br
          pure (run ++ pixels)

def drawPixels (literal : Bool) (offset : Byte) (dp : Addr) : Dma (List Pixel) :=
  let lineBits : Int := (offset.toNat - 1) * 8
  let br : Bitr := { addr := dp + 1, bit := 0 }
  if offset = 1 then pure []
  else if literal then l.literalPixels (lineBits.toNat + 1) lineBits 0 br
  else l.packedPixels (lineBits.toNat + 1) lineBits 0 br

section Forget

theorem literal_eq (n : Nat) (bits col : Int) (br : Bitr) :
    l.literal n bits col br = l.literalPixels n bits col br >>= fun _ => pure () := by
  induction n generalizing bits col br with
  | zero => rfl
  | succ n ih =>
    rw [literal, literalPixels]
    split
    · rfl
    · simp only [bind_assoc, pure_bind, ih]
      rfl

theorem literalRun_eq (n : Nat) (bits col : Int) (br : Bitr) :
    l.literalRun n bits col br = l.literalRunPixels n bits col br >>= fun r => pure r.1 := by
  induction n generalizing bits col br with
  | zero => rfl
  | succ n ih =>
    rw [literalRun, literalRunPixels]
    split
    · rfl
    · simp only [bind_assoc, pure_bind, ih]
      rfl

theorem copies_eq (v : Word) (n : Nat) (col : Int) :
    l.copies (l.penOf v) n col = l.copiesPixels v n col >>= fun r => pure r.1 := by
  induction n generalizing col with
  | zero => rfl
  | succ n ih =>
    rw [copies, copiesPixels]
    simp only [bind_assoc, pure_bind, ih]
    rfl

theorem packed_eq (n : Nat) (bits col : Int) (br : Bitr) :
    l.packed n bits col br = l.packedPixels n bits col br >>= fun _ => pure () := by
  induction n generalizing bits col br with
  | zero => rfl
  | succ n ih =>
    rw [packed, packedPixels]
    split
    · rfl
    · simp only [bind_assoc, pure_bind, ih, literalRun_eq, copies_eq]
      apply bind_congr
      intro (flag, br)
      simp only
      split
      · simp only [bind_assoc, pure_bind]
      · simp only [bind_assoc]
        apply bind_congr
        intro (cnt, br)
        simp only
        split
        · rfl
        · split
          · rfl
          · simp only [bind_assoc, pure_bind]

/-- The line is drawn by drawing its pixels. -/
theorem draw_eq (literal : Bool) (offset : Byte) (dp : Addr) :
    l.draw literal offset dp = l.drawPixels literal offset dp >>= fun _ => pure () := by
  simp only [draw, drawPixels]
  split
  · rfl
  · split
    · exact l.literal_eq _ _ _ _
    · exact l.packed_eq _ _ _ _

end Forget

end Line

/-- The reader before bit `p` of the stream from `base`. -/
def Bitr.atBit (base : Addr) (p : Nat) : Bitr where
  addr := base + BitVec.ofNat 16 (p / 8)
  bit := p % 8

theorem Bitr.atBit_succ (base : Addr) (p : Nat) :
    Bitr.atBit base (p + 1) =
      if p % 8 + 1 = 8 then { addr := base + BitVec.ofNat 16 (p / 8) + 1, bit := 0 }
      else { addr := base + BitVec.ofNat 16 (p / 8), bit := p % 8 + 1 } := by
  unfold Bitr.atBit
  split
  · have quotient : (p + 1) / 8 = p / 8 + 1 := by omega
    have remainder : (p + 1) % 8 = 0 := by omega
    rw [quotient, remainder, BitVec.ofNat_add, BitVec.add_assoc]
    rfl
  · have quotient : (p + 1) / 8 = p / 8 := by omega
    have remainder : (p + 1) % 8 = p % 8 + 1 := by omega
    rw [quotient, remainder]

theorem shifted_bit : ∀ (byte : Byte) (k : Fin 8),
    (byte.setWidth 32 >>> (7 - k.val)) &&& 1 =
      ((BitVec.ofBool (byte.getLsbD (7 - k.val))).setWidth 32 : Word) := by
  decide +kernel

theorem bitsGetFrom_run (ram : Addr → Byte) (base : Addr) (n p : Nat) (v : Word) :
    (bitsGetFrom n v (Bitr.atBit base p)).run memory ram =
      ((value v (bitsAt ram base p n), Bitr.atBit base (p + n)), ram) := by
  induction n generalizing p v with
  | zero => rfl
  | succ n ih =>
    have pushed : v <<< 1 ||| ((ram (Bitr.atBit base p).addr).setWidth 32 >>>
        (7 - (Bitr.atBit base p).bit)) &&& 1 = push v (bitAt ram base p) :=
      congrArg (v <<< 1 ||| ·) (shifted_bit _ ⟨p % 8, Nat.mod_lt p (by decide)⟩)
    have next := Bitr.atBit_succ base p
    have step : (bitsGetFrom (n + 1) v (Bitr.atBit base p)).run memory ram =
        (bitsGetFrom n (push v (bitAt ram base p)) (Bitr.atBit base (p + 1))).run memory ram := by
      rw [bitsGetFrom, next, ← pushed]
      change (if _ then _ else _ : Dma _).run memory ram = _
      split
      · rename_i last
        have last' : p % 8 + 1 = 8 := last
        rw [if_pos last']
        rfl
      · rename_i inner
        have inner' : ¬ p % 8 + 1 = 8 := inner
        rw [if_neg inner']
        rfl
    have total : p + 1 + n = p + (n + 1) := by omega
    rw [step, ih, bitsAt, value_cons, total]

/-- The bit reader delivers the bits of the stream. -/
theorem bitsGet_run (ram : Addr → Byte) (base : Addr) (p n : Nat) :
    (bitsGet (Bitr.atBit base p) n).run memory ram =
      ((value 0 (bitsAt ram base p n), Bitr.atBit base (p + n)), ram) :=
  bitsGetFrom_run ram base n p 0

/-- The bytes from `base` on -/
def span (base : Addr) (bytes : Nat) (a : Addr) : Prop := ∃ k < bytes, a = base + BitVec.ofNat 16 k

section Dependence

variable {base : Addr} {bytes : Nat}

theorem bitsGet_dependsOn {p n : Nat} (within : p + n ≤ 8 * bytes) :
    (bitsGet (Bitr.atBit base p) n).DependsOn (span base bytes) := by
  intro m m' agree
  rw [bitsGet_run, bitsGet_run, bitsAt_congr (fun i inside => agree _ ⟨i, inside, rfl⟩) within]
  exact ⟨rfl, agree⟩

theorem bitsGet_bind_dependsOn {α : Type} {p n : Nat} {f : Word × Bitr → Dma α}
    (within : p + n ≤ 8 * bytes)
    (next : ∀ v, (f (v, Bitr.atBit base (p + n))).DependsOn (span base bytes)) :
    (bitsGet (Bitr.atBit base p) n >>= f).DependsOn (span base bytes) := by
  apply (bitsGet_dependsOn within).bind_of (P := fun r => r.2 = Bitr.atBit base (p + n))
  · intro m
    rw [bitsGet_run]
  · rintro ⟨v, br⟩ reader
    simp only at reader
    subst reader
    exact next v

theorem blitPixel_dependsOn (A : Addr → Prop) (vidbas : Addr) (x y : Int) (pen : Byte)
    (type : Nat) : (blitPixel vidbas x y pen type).DependsOn A := by
  unfold blitPixel
  split
  · exact dependsOn_pure ()
  · split
    · exact dependsOn_pure ()
    · exact dependsOn_modify (pixelAddr vidbas x y) fun cur => mixPixel cur pen type (x % 2 == 1)

namespace Line

variable (l : Line)

theorem drawPixel_dependsOn (A : Addr → Prop) (px : Pixel) : (l.drawPixel px).DependsOn A :=
  blitPixel_dependsOn A _ _ _ _ _

theorem literalPixels_dependsOn (fuel : Nat) {p : Nat} (inside : p ≤ 8 * bytes) (col : Int) :
    (l.literalPixels fuel ((8 * bytes : Nat) - p) col (Bitr.atBit base p)).DependsOn
      (span base bytes) := by
  induction fuel generalizing p col with
  | zero => exact dependsOn_pure []
  | succ fuel ih =>
    rw [literalPixels]
    by_cases short : ((8 * bytes : Nat) - p : Int) < l.bpp
    · rw [if_pos short]
      exact dependsOn_pure []
    · rw [if_neg short]
      have within : p + l.bpp ≤ 8 * bytes := by omega
      apply bitsGet_bind_dependsOn within
      intro v
      apply (l.drawPixel_dependsOn _ _).bind
      intro _
      have left : ((8 * bytes : Nat) - p - l.bpp : Int) =
          (8 * bytes : Nat) - (p + l.bpp : Nat) := by
        omega
      rw [left]
      apply (ih within (col + 1)).bind
      intro pixels
      exact dependsOn_pure _

/-- After a run the reader is at a bit of the line, and the bits from there on are left. -/
def RestOfLine (base : Addr) (bytes : Nat) (r : (Int × Int × Bitr) × List Pixel) : Prop :=
  ∃ p ≤ 8 * bytes, r.1.1 = (8 * bytes : Nat) - p ∧ r.1.2.2 = Bitr.atBit base p

theorem literalRunPixels_dependsOn (n : Nat) {p : Nat} (inside : p ≤ 8 * bytes) (col : Int) :
    (l.literalRunPixels n ((8 * bytes : Nat) - p) col (Bitr.atBit base p)).DependsOn
        (span base bytes) ∧
      ∀ m, RestOfLine base bytes
        ((l.literalRunPixels n ((8 * bytes : Nat) - p) col
          (Bitr.atBit base p)).run memory m).1 := by
  induction n generalizing p col with
  | zero => exact ⟨dependsOn_pure _, fun _ => ⟨p, inside, rfl, rfl⟩⟩
  | succ n ih =>
    rw [literalRunPixels]
    by_cases short : ((8 * bytes : Nat) - p : Int) < l.bpp
    · rw [if_pos short]
      exact ⟨dependsOn_pure _, fun _ => ⟨p, inside, rfl, rfl⟩⟩
    · rw [if_neg short]
      have within : p + l.bpp ≤ 8 * bytes := by omega
      have left : ((8 * bytes : Nat) - p - l.bpp : Int) =
          (8 * bytes : Nat) - (p + l.bpp : Nat) := by
        omega
      rcases ih within (col + 1) with ⟨depends, rest⟩
      constructor
      · apply bitsGet_bind_dependsOn within
        intro v
        apply (l.drawPixel_dependsOn _ _).bind
        intro _
        rw [left]
        apply depends.bind
        intro after
        exact dependsOn_pure _
      · intro m
        rw [run_bind, bitsGet_run]
        simp only
        rw [run_bind, run_bind, left]
        exact rest _

theorem copiesPixels_dependsOn (A : Addr → Prop) (v : Word) (n : Nat) (col : Int) :
    (l.copiesPixels v n col).DependsOn A := by
  induction n generalizing col with
  | zero => exact dependsOn_pure _
  | succ n ih =>
    apply (l.drawPixel_dependsOn _ _).bind
    intro _
    apply (ih (col + 1)).bind
    intro after
    exact dependsOn_pure _

theorem packedPixels_done (fuel : Nat) {bits : Int} (done : bits ≤ 0) (col : Int) (br : Bitr) :
    l.packedPixels fuel bits col br = pure [] := by
  cases fuel with
  | zero => rfl
  | succ fuel => rw [packedPixels, if_pos done]

/-- Without five bits for the header of a packet there are no pixels, whatever the reader
fetches beyond the line. -/
theorem packedPixels_short (fuel : Nat) {p : Nat} (short : 8 * bytes < p + 5) (col : Int)
    (m : Addr → Byte) :
    (l.packedPixels fuel ((8 * bytes : Nat) - p) col (Bitr.atBit base p)).run memory m =
      ([], m) := by
  cases fuel with
  | zero => rfl
  | succ fuel =>
    rw [packedPixels]
    by_cases none : ((8 * bytes : Nat) - p : Int) ≤ 0
    · rw [if_pos none]
      rfl
    · rw [if_neg none, run_bind, bitsGet_run]
      simp only
      by_cases flag : (value 0 (bitsAt m base p 1) : Word) ≠ 0
      · rw [if_pos flag, run_bind, bitsGet_run]
        simp only
        rw [literalRunPixels, if_pos (by omega), run_bind]
        simp only [pure_eq, run_ret]
        rw [packedPixels_done l fuel (by omega)]
        rfl
      · rw [if_neg flag, run_bind, bitsGet_run]
        simp only
        by_cases zero : (value 0 (bitsAt m base (p + 1) 4) : Word) = 0
        · rw [if_pos zero]
          rfl
        · rw [if_neg zero, if_pos (by omega)]
          rfl

/-- A packed line depends on its own bytes. -/
theorem packedPixels_dependsOn (fuel : Nat) {p : Nat} (inside : p ≤ 8 * bytes) (col : Int) :
    (l.packedPixels fuel ((8 * bytes : Nat) - p) col (Bitr.atBit base p)).DependsOn
      (span base bytes) := by
  induction fuel generalizing p col with
  | zero => exact dependsOn_pure []
  | succ fuel ih =>
    by_cases short : 8 * bytes < p + 5
    · exact dependsOn_of_run (l.packedPixels_short (fuel + 1) short col)
    · rw [packedPixels, if_neg (by omega)]
      have header : ((8 * bytes : Nat) - p - 1 - 4 : Int) =
          (8 * bytes : Nat) - (p + 1 + 4 : Nat) := by
        omega
      have read : p + 1 + 4 ≤ 8 * bytes := by omega
      apply bitsGet_bind_dependsOn (by omega)
      intro flag
      simp only
      split
      · apply bitsGet_bind_dependsOn read
        intro cnt
        simp only [header]
        rcases l.literalRunPixels_dependsOn (cnt.toNat + 1) read col with ⟨depends, rest⟩
        apply depends.bind_of rest
        rintro ⟨⟨bits, col, br⟩, run⟩ ⟨q, inside, left, reader⟩
        simp only at left reader
        subst left reader
        apply (ih inside col).bind
        intro pixels
        exact dependsOn_pure _
      · apply bitsGet_bind_dependsOn read
        intro cnt
        simp only [header]
        split
        · exact dependsOn_pure []
        · split
          · exact dependsOn_pure []
          · rename_i room
            have within : p + 1 + 4 + l.bpp ≤ 8 * bytes := by omega
            have left : ((8 * bytes : Nat) - (p + 1 + 4 : Nat) - l.bpp : Int) =
                (8 * bytes : Nat) - (p + 1 + 4 + l.bpp : Nat) := by omega
            apply bitsGet_bind_dependsOn within
            intro v
            apply (l.copiesPixels_dependsOn _ _ _ _).bind
            rintro ⟨col, run⟩
            simp only [left]
            apply (ih within col).bind
            intro pixels
            exact dependsOn_pure _

/-- The data bytes of a line as a stream. -/
theorem drawPixels_eq (literal : Bool) {offset : Byte} (some_ : 2 ≤ offset.toNat) (dp : Addr) :
    l.drawPixels literal offset dp =
      if literal then l.literalPixels (8 * (offset.toNat - 1) + 1)
        ((8 * (offset.toNat - 1) : Nat) - (0 : Nat)) 0 (Bitr.atBit (dp + 1) 0)
      else l.packedPixels (8 * (offset.toNat - 1) + 1)
        ((8 * (offset.toNat - 1) : Nat) - (0 : Nat)) 0 (Bitr.atBit (dp + 1) 0) := by
  have bits : ((offset.toNat - 1) * 8 : Int) = (8 * (offset.toNat - 1) : Nat) - (0 : Nat) := by
    omega
  have fuel : ((8 * (offset.toNat - 1) : Nat) - (0 : Nat) : Int).toNat =
      8 * (offset.toNat - 1) := by
    omega
  have start : (⟨dp + 1, 0⟩ : Bitr) = Bitr.atBit (dp + 1) 0 :=
    congrArg (fun a => (⟨a, 0⟩ : Bitr)) (BitVec.add_zero (dp + 1)).symm
  have more : ¬ offset = 1 := by
    rintro rfl
    exact absurd some_ (by decide)
  simp only [drawPixels]
  rw [if_neg more, bits, fuel, start]

theorem drawPixels_dependsOn (literal : Bool) {offset : Byte} (more : offset ≠ 0) (dp : Addr) :
    (l.drawPixels literal offset dp).DependsOn (span (dp + 1) (offset.toNat - 1)) := by
  by_cases blank : offset = 1
  · simp only [drawPixels, if_pos blank]
    exact dependsOn_pure []
  · have some_ : 2 ≤ offset.toNat := by bv_omega
    rw [drawPixels_eq l literal some_]
    split
    · exact l.literalPixels_dependsOn _ (Nat.zero_le _) 0
    · exact l.packedPixels_dependsOn _ (Nat.zero_le _) 0

end Line

end Dependence

namespace Sprite

variable (s : Sprite)

def lineAt (line : Nat) : Line where
  vidbas := s.vidbas
  sx := s.sx
  y := if s.vflip then s.sy - line else s.sy + line
  hflip := s.hflip
  bpp := s.bpp
  type := s.type
  pen := s.pen

/-- Draw the line at `dp`; returns where the next line starts, if there is one, and the
pixels drawn. -/
def linePixels (line : Nat) (dp : Addr) : Dma (Option Addr × List Pixel) := do
  let offset ← dramRd dp
  if offset = 0 then pure (none, [])
  else do
    let pixels ← (s.lineAt line).drawPixels s.literal offset dp
    pure (some (dp + offset.setWidth 16), pixels)

/-- A turn of the line loop -/
theorem lines_succ (n line : Nat) (dp : Addr) :
    s.lines (n + 1) line dp =
      s.linePixels line dp >>= fun r => r.1.elim (pure ()) (s.lines n (line + 1)) := by
  rw [lines, linePixels, bind_assoc]
  apply bind_congr
  intro offset
  by_cases last : offset = 0
  · rw [if_pos last, if_pos last]
    rfl
  · rw [if_neg last, if_neg last]
    simp only [Line.draw_eq, bind_assoc, pure_bind]
    rfl

theorem linePixels_run (line : Nat) (dp : Addr) {m : Addr → Byte} (more : m dp ≠ 0) :
    (s.linePixels line dp).run memory m =
      ((some (dp + (m dp).setWidth 16),
        (((s.lineAt line).drawPixels s.literal (m dp) dp).run memory m).1),
        (((s.lineAt line).drawPixels s.literal (m dp) dp).run memory m).2) := by
  have read : (dramRd dp).run memory m = (m dp, m) := rfl
  rw [linePixels, run_bind, read]
  simp only
  rw [if_neg more, run_bind]
  rfl

/-- The line loop draws line by line. Over two memories with the same bytes in a line it
draws the same pixels there, and goes on at the same place. -/
theorem line_dependsOn (line : Nat) (dp : Addr) :
    (∀ n, s.lines (n + 1) line dp =
      s.linePixels line dp >>= fun r => r.1.elim (pure ()) (s.lines n (line + 1))) ∧
    ∀ m m' : Addr → Byte, m dp = m' dp →
      (∀ k < (m dp).toNat, m (dp + BitVec.ofNat 16 k) = m' (dp + BitVec.ofNat 16 k)) →
      ((s.linePixels line dp).run memory m).1 = ((s.linePixels line dp).run memory m').1 ∧
      ((s.linePixels line dp).run memory m).1.1 =
        if m dp = 0 then none else some (dp + (m dp).setWidth 16) := by
  refine ⟨fun n => s.lines_succ n line dp, fun m m' offset bytes => ?_⟩
  by_cases last : m dp = 0
  · have none (m : Addr → Byte) (last : m dp = 0) :
        ((s.linePixels line dp).run memory m).1 = (none, []) := by
      have read : (dramRd dp).run memory m = (m dp, m) := rfl
      rw [linePixels, run_bind, read]
      simp only
      rw [if_pos last]
      rfl
    rw [none m last, none m' (offset ▸ last), if_pos last]
    exact ⟨rfl, rfl⟩
  · have agree : ∀ a, span (dp + 1) ((m dp).toNat - 1) a → m a = m' a := by
      rintro a ⟨k, inside, rfl⟩
      have place : dp + 1 + BitVec.ofNat 16 k = dp + BitVec.ofNat 16 (k + 1) := by
        rw [Nat.add_comm k 1, BitVec.ofNat_add, BitVec.add_assoc]
        rfl
      rw [place]
      exact bytes (k + 1) (by omega)
    have same := ((s.lineAt line).drawPixels_dependsOn s.literal last dp m m' agree).1
    rw [s.linePixels_run line dp last, s.linePixels_run line dp (offset ▸ last), ← offset, same,
      if_neg last]
    exact ⟨rfl, rfl⟩

end Sprite

/-- A packed sprite of four bits a pixel -/
def cornerSprite : Sprite where
  vidbas := 0xC000
  sx := 0
  sy := 0
  bpp := 4
  type := 0
  hflip := false
  vflip := false
  literal := false
  pen i := BitVec.ofNat 8 i.val

/-- The header of a packet that the end of the line cuts off. -/
def cutOffLine : Addr → Byte := fun a => if a = 0x0420 then 2 else if a = 0x0421 then 0x85 else 0

theorem cutOffLine_same :
    ((cornerSprite.linePixels 0 0x0420).run memory cutOffLine).1 =
      ((cornerSprite.linePixels 0 0x0420).run memory
        (Function.update cutOffLine 0x0422 0xFF)).1 := by
  apply ((cornerSprite.line_dependsOn 0 0x0420).2 cutOffLine _ (by decide) _).1
  decide

end LynxRecomp
