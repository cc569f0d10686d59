import LynxRecomp.Runtime.Blitter
import LynxRecomp.Runtime.SpriteLine

/-!
# Packets

A packed line that is well formed draws the pens of its packets, one column after the other,
unless it draws over its own data.
-/

namespace LynxRecomp

open BusProgram BitStream

variable {bpp : Nat}

/-- A literal run of pens, or copies of one pen. -/
inductive Packet (bpp : Nat) where
  | run (pens : List (BitVec bpp)) (some_ : 1 ≤ pens.length) (fits : pens.length ≤ 16)
  | copies (count : Nat) (pen : BitVec bpp) (more : 2 ≤ count) (fits : count ≤ 16)

/-- Pens as bits, one after the other -/
def penBits (pens : List (BitVec bpp)) : List Bool := pens.flatMap msbFirst

namespace Packet

/-- The flag, the length minus 1 in four bits, and the pens. -/
def bits : Packet bpp → List Bool
  | .run pens _ _ => true :: (msbFirst (BitVec.ofNat 4 (pens.length - 1)) ++ penBits pens)
  | .copies count pen _ _ => false :: (msbFirst (BitVec.ofNat 4 (count - 1)) ++ msbFirst pen)

def pens : Packet bpp → List (BitVec bpp)
  | .run pens _ _ => pens
  | .copies count pen _ _ => List.replicate count pen

end Packet

/-- The pixels of `pens` at the columns from `col` on. -/
def columns (col : Int) : List (BitVec bpp) → List Pixel
  | [] => []
  | v :: vs => (col, v.setWidth 32) :: columns (col + 1) vs

theorem columns_append (col : Int) (vs ws : List (BitVec bpp)) :
    columns col (vs ++ ws) = columns col vs ++ columns (col + vs.length) ws := by
  induction vs generalizing col with
  | nil => simp [columns]
  | cons v vs ih =>
    have place : col + (v :: vs).length = col + 1 + vs.length := by
      rw [List.length_cons]
      omega
    rw [List.cons_append, columns, columns, ih, place, List.cons_append]

/-- The bits of the line from bit `p` to its end are `bs`. -/
def Left (m : Addr → Byte) (base : Addr) (bytes p : Nat) (bs : List Bool) : Prop :=
  p + bs.length = 8 * bytes ∧ bitsAt m base p bs.length = bs

section Left

variable {m m' : Addr → Byte} {base : Addr} {bytes p : Nat} {bs rest : List Bool}

theorem Left.bits (left : Left m base bytes p bs) : ((8 * bytes : Nat) - p : Int) = bs.length := by
  have total := left.1
  omega

theorem Left.split (left : Left m base bytes p (bs ++ rest)) :
    bitsAt m base p bs.length = bs ∧ Left m base bytes (p + bs.length) rest := by
  rcases bitsAt_eq_append left.2 with ⟨_, first, later⟩
  have total := left.1
  rw [List.length_append] at total later
  rw [Nat.add_sub_cancel_left] at later
  exact ⟨first, by omega, later⟩

/-- The reader takes the next value off. -/
theorem Left.read {w : Nat} {v : BitVec w} (left : Left m base bytes p (msbFirst v ++ rest)) :
    (bitsGet (Bitr.atBit base p) w).run memory m =
        ((v.setWidth 32, Bitr.atBit base (p + w)), m) ∧
      Left m base bytes (p + w) rest := by
  rcases left.split with ⟨first, later⟩
  rw [length_msbFirst] at first later
  rw [bitsGet_run, first, value_msbFirst]
  exact ⟨rfl, later⟩

theorem Left.kept (left : Left m base bytes p bs) (same : ∀ a, span base bytes a → m' a = m a) :
    Left m' base bytes p bs := by
  refine ⟨left.1, ?_⟩
  rw [bitsAt_congr (fun i inside => same _ ⟨i, inside, rfl⟩) (Nat.le_of_eq left.1)]
  exact left.2

end Left

namespace Line

variable (l : Line)

def drawAll : List Pixel → Dma Unit
  | [] => pure ()
  | px :: pixels => do
    l.drawPixel px
    drawAll pixels

/-- None of the pixels is stored in a cell of `A`. -/
def Avoids (A : Addr → Prop) (pixels : List Pixel) : Prop :=
  ∀ px ∈ pixels, (l.drawPixel px).Stores fun a => ¬ A a

variable {l} {m : Addr → Byte} {base : Addr} {bytes p : Nat} {rest : List Bool}

theorem drawAll_cons (px : Pixel) (pixels : List Pixel) (m : Addr → Byte) :
    ((l.drawAll (px :: pixels)).run memory m).2 =
      ((l.drawAll pixels).run memory ((l.drawPixel px).run memory m).2).2 := by
  rw [drawAll, run_bind]

theorem drawAll_append (pixels more : List Pixel) (m : Addr → Byte) :
    ((l.drawAll (pixels ++ more)).run memory m).2 =
      ((l.drawAll more).run memory ((l.drawAll pixels).run memory m).2).2 := by
  induction pixels generalizing m with
  | nil => rfl
  | cons px pixels ih =>
    rw [List.cons_append, drawAll_cons, drawAll_cons]
    exact ih _

theorem drawPixel_keeps {A : Addr → Prop} {px : Pixel}
    (avoids : (l.drawPixel px).Stores fun a => ¬ A a) (m : Addr → Byte) (a : Addr) (inside : A a) :
    ((l.drawPixel px).run memory m).2 a = m a := avoids.frame m (not_not.mpr inside)

theorem drawAll_keeps {A : Addr → Prop} {pixels : List Pixel} (avoids : l.Avoids A pixels)
    (m : Addr → Byte) (a : Addr) (inside : A a) :
    ((l.drawAll pixels).run memory m).2 a = m a := by
  induction pixels generalizing m with
  | nil => rfl
  | cons px pixels ih =>
    rw [drawAll_cons, ih fun px later => avoids px (List.mem_cons_of_mem _ later)]
    exact drawPixel_keeps (avoids px List.mem_cons_self) m a inside

theorem Avoids.append {A : Addr → Prop} {pixels more : List Pixel}
    (avoids : l.Avoids A (pixels ++ more)) : l.Avoids A pixels ∧ l.Avoids A more :=
  ⟨fun px h => avoids px (List.mem_append_left _ h),
    fun px h => avoids px (List.mem_append_right _ h)⟩

/-- The next pen is read, and its pixel leaves the pens behind it alone. -/
theorem nextPen {v : BitVec l.bpp} {vs : List (BitVec l.bpp)}
    (left : Left m base bytes p (penBits (v :: vs) ++ rest)) {col : Int}
    (avoids : l.Avoids (span base bytes) (columns col (v :: vs))) :
    ((l.bpp : Int) ≤ (8 * bytes : Nat) - p ∧
        (bitsGet (Bitr.atBit base p) l.bpp).run memory m =
          ((v.setWidth 32, Bitr.atBit base (p + l.bpp)), m)) ∧
      Left ((l.drawPixel (col, v.setWidth 32)).run memory m).2 base bytes (p + l.bpp)
          (penBits vs ++ rest) ∧
        l.Avoids (span base bytes) (columns (col + 1) vs) := by
  rw [penBits, List.flatMap_cons, List.append_assoc] at left
  have bits := left.bits
  rw [List.length_append, length_msbFirst] at bits
  rcases left.read with ⟨read, later⟩
  have first : (l.drawPixel (col, v.setWidth 32)).Stores fun a => ¬ span base bytes a :=
    avoids _ List.mem_cons_self
  refine ⟨⟨by omega, read⟩, later.kept (drawPixel_keeps first m), ?_⟩
  exact fun px h => avoids px (List.mem_cons_of_mem _ h)

/-- A totally literal line with its pens draws them, if less than a pen is left at its end. -/
theorem literalPixels_run {vs : List (BitVec l.bpp)} {fuel pad : Nat} (short : pad < l.bpp)
    (enough : vs.length < fuel)
    (left : Left m base bytes p (penBits vs ++ List.replicate pad false)) {col : Int}
    (avoids : l.Avoids (span base bytes) (columns col vs)) :
    (l.literalPixels fuel ((8 * bytes : Nat) - p) col (Bitr.atBit base p)).run memory m =
      (columns col vs, ((l.drawAll (columns col vs)).run memory m).2) := by
  induction vs generalizing m p fuel col with
  | nil =>
    obtain ⟨fuel, rfl⟩ : ∃ n, fuel = n + 1 := ⟨fuel - 1, by simp at enough; omega⟩
    have bits : ((8 * bytes : Nat) - p : Int) = pad := by simpa [penBits] using left.bits
    rw [literalPixels, if_pos (by omega)]
    rfl
  | cons v vs ih =>
    obtain ⟨fuel, rfl⟩ : ∃ n, fuel = n + 1 := ⟨fuel - 1, by simp at enough; omega⟩
    rcases nextPen left avoids with ⟨⟨inside, read⟩, later, others⟩
    have next : ((8 * bytes : Nat) - p - l.bpp : Int) = (8 * bytes : Nat) - (p + l.bpp : Nat) := by
      omega
    rw [literalPixels, if_neg (Int.not_lt.mpr inside), run_bind, read]
    simp only
    rw [run_bind, run_bind, next, ih (Nat.lt_of_succ_lt_succ enough) later others, columns,
      drawAll_cons]
    rfl

/-- A literal run draws its pens. -/
theorem literalRunPixels_run {vs : List (BitVec l.bpp)}
    (left : Left m base bytes p (penBits vs ++ rest)) {col : Int}
    (avoids : l.Avoids (span base bytes) (columns col vs)) :
    (l.literalRunPixels vs.length ((8 * bytes : Nat) - p) col (Bitr.atBit base p)).run memory m =
      (((((8 * bytes : Nat) - (p + (penBits vs).length : Nat) : Int), col + vs.length,
        Bitr.atBit base (p + (penBits vs).length)), columns col vs),
        ((l.drawAll (columns col vs)).run memory m).2) := by
  induction vs generalizing m p col with
  | nil => simp [literalRunPixels, penBits, columns, drawAll]
  | cons v vs ih =>
    rcases nextPen left avoids with ⟨⟨inside, read⟩, later, others⟩
    have next : ((8 * bytes : Nat) - p - l.bpp : Int) = (8 * bytes : Nat) - (p + l.bpp : Nat) := by
      omega
    have length : (penBits (v :: vs)).length = l.bpp + (penBits vs).length := by
      rw [penBits, List.flatMap_cons, List.length_append, length_msbFirst, penBits]
    have place : col + (vs.length + 1 : Nat) = col + 1 + vs.length := by omega
    rw [List.length_cons, literalRunPixels, if_neg (Int.not_lt.mpr inside), run_bind, read]
    simp only
    rw [run_bind, run_bind, next, ih later others, length, ← Nat.add_assoc, place, columns,
      drawAll_cons]
    rfl

theorem copiesPixels_run (pen : BitVec l.bpp) (n : Nat) (col : Int) (m : Addr → Byte) :
    (l.copiesPixels (pen.setWidth 32) n col).run memory m =
      ((col + n, columns col (List.replicate n pen)),
        ((l.drawAll (columns col (List.replicate n pen))).run memory m).2) := by
  induction n generalizing col m with
  | zero => simp [copiesPixels, columns, drawAll]
  | succ n ih =>
    have place : col + 1 + n = col + (n + 1 : Nat) := by omega
    rw [copiesPixels, run_bind, run_bind, ih, place, List.replicate_succ, columns, drawAll_cons]
    rfl

/-- Zeros at the end of a packed line draw nothing: they end the line, or are too few for the
header of a packet. -/
theorem packedPixels_padding (fuel : Nat) {pad : Nat}
    (left : Left m base bytes p (List.replicate pad false)) (col : Int) :
    (l.packedPixels fuel ((8 * bytes : Nat) - p) col (Bitr.atBit base p)).run memory m =
      ([], m) := by
  have total := left.1
  rw [List.length_replicate] at total
  by_cases short : 8 * bytes < p + 5
  · exact l.packedPixels_short fuel short col m
  · cases fuel with
    | zero => rfl
    | succ fuel =>
      have zeros : List.replicate pad false =
          msbFirst (0 : BitVec 1) ++
            (msbFirst (0 : BitVec 4) ++ List.replicate (pad - 5) false) := by
        obtain ⟨more, rfl⟩ : ∃ n, pad = 5 + n := ⟨pad - 5, by omega⟩
        rw [List.replicate_add, Nat.add_sub_cancel_left]
        rfl
      rcases (zeros ▸ left).read with ⟨flag, later⟩
      rw [packedPixels, if_neg (by omega), run_bind, flag]
      simp only
      rw [if_neg (by decide), run_bind, later.read.1]
      simp only
      rw [if_pos (by decide)]
      rfl

/-- The length of a packet, from the four bits that hold it minus 1. -/
theorem packet_count {n : Nat} (some_ : 1 ≤ n) (fits : n ≤ 16) :
    ((BitVec.ofNat 4 (n - 1)).setWidth 32 : Word).toNat + 1 = n := by
  rw [BitVec.toNat_setWidth, BitVec.toNat_ofNat]
  omega

/-- A literal packet draws its pens, and decoding goes on behind it. -/
theorem packedPixels_literal {pens : List (BitVec l.bpp)} (some_ : 1 ≤ pens.length)
    (fits : pens.length ≤ 16)
    (left : Left m base bytes p ((Packet.run pens some_ fits).bits ++ rest)) (fuel : Nat)
    {col : Int} (avoids : l.Avoids (span base bytes) (columns col pens)) :
    let next := p + (Packet.run pens some_ fits).bits.length
    let after := (l.packedPixels fuel ((8 * bytes : Nat) - next) (col + pens.length)
      (Bitr.atBit base next)).run memory ((l.drawAll (columns col pens)).run memory m).2
    (l.packedPixels (fuel + 1) ((8 * bytes : Nat) - p) col (Bitr.atBit base p)).run memory m =
      (columns col pens ++ after.1, after.2) := by
  have length : p + (Packet.run pens some_ fits).bits.length =
      p + 1 + 4 + (penBits pens).length := by
    simp only [Packet.bits, List.length_cons, List.length_append, length_msbFirst]
    omega
  have flagged : (Packet.run pens some_ fits).bits ++ rest =
      msbFirst (1 : BitVec 1) ++
        (msbFirst (BitVec.ofNat 4 (pens.length - 1)) ++ (penBits pens ++ rest)) := by
    simp [Packet.bits, msbFirst]
  rw [length]
  rw [flagged] at left
  have bits := left.bits
  simp only [List.length_append, length_msbFirst] at bits
  rcases left.read with ⟨flag, left⟩
  rcases left.read with ⟨count, left⟩
  have header : ((8 * bytes : Nat) - p - 1 - 4 : Int) = (8 * bytes : Nat) - (p + 1 + 4 : Nat) := by
    omega
  have drawn := literalRunPixels_run left avoids
  rw [packedPixels, if_neg (by omega), run_bind, flag]
  simp only
  rw [if_pos (by decide), run_bind, count]
  simp only
  rw [packet_count some_ fits, header, run_bind, drawn]
  simp only
  rw [run_bind]
  rfl

/-- A repeat packet draws its pen as often as it says, and decoding goes on behind it. -/
theorem packedPixels_copies {count : Nat} (pen : BitVec l.bpp) (more : 2 ≤ count)
    (fits : count ≤ 16)
    (left : Left m base bytes p ((Packet.copies count pen more fits).bits ++ rest)) (fuel : Nat)
    (col : Int) :
    let next := p + (Packet.copies count pen more fits).bits.length
    let after := (l.packedPixels fuel ((8 * bytes : Nat) - next) (col + count)
      (Bitr.atBit base next)).run memory
        ((l.drawAll (columns col (List.replicate count pen))).run memory m).2
    (l.packedPixels (fuel + 1) ((8 * bytes : Nat) - p) col (Bitr.atBit base p)).run memory m =
      (columns col (List.replicate count pen) ++ after.1, after.2) := by
  have length : p + (Packet.copies count pen more fits).bits.length = p + 1 + 4 + l.bpp := by
    simp only [Packet.bits, List.length_cons, List.length_append, length_msbFirst]
    omega
  have flagged : (Packet.copies count pen more fits).bits ++ rest =
      msbFirst (0 : BitVec 1) ++
        (msbFirst (BitVec.ofNat 4 (count - 1)) ++ (msbFirst pen ++ rest)) := by
    simp [Packet.bits, msbFirst]
  rw [length]
  rw [flagged] at left
  have bits := left.bits
  simp only [List.length_append, length_msbFirst] at bits
  rcases left.read with ⟨flag, left⟩
  rcases left.read with ⟨header, left⟩
  have index := left.read.1
  have some_ : ¬ (BitVec.ofNat 4 (count - 1)).setWidth 32 = (0 : Word) := by
    intro zero
    have value := packet_count (n := count) (by omega) fits
    rw [zero] at value
    change 1 = count at value
    omega
  have after : ((8 * bytes : Nat) - p - 1 - 4 - l.bpp : Int) =
      (8 * bytes : Nat) - (p + 1 + 4 + l.bpp : Nat) := by omega
  rw [packedPixels, if_neg (by omega), run_bind, flag]
  simp only
  rw [if_neg (by decide), run_bind, header]
  simp only
  rw [if_neg some_, if_neg (by omega), run_bind, index]
  simp only
  rw [packet_count (by omega) fits, run_bind, copiesPixels_run]
  simp only
  rw [after, run_bind]
  rfl

/-- A packet draws its pens, and decoding goes on behind it. -/
theorem packedPixels_packet (packet : Packet l.bpp)
    (left : Left m base bytes p (packet.bits ++ rest)) (fuel : Nat) {col : Int}
    (avoids : l.Avoids (span base bytes) (columns col packet.pens)) :
    let next := p + packet.bits.length
    let after := (l.packedPixels fuel ((8 * bytes : Nat) - next) (col + packet.pens.length)
      (Bitr.atBit base next)).run memory ((l.drawAll (columns col packet.pens)).run memory m).2
    (l.packedPixels (fuel + 1) ((8 * bytes : Nat) - p) col (Bitr.atBit base p)).run memory m =
      (columns col packet.pens ++ after.1, after.2) := by
  cases packet with
  | run pens some_ fits => exact packedPixels_literal some_ fits left fuel avoids
  | copies count pen more fits =>
    have pens : (Packet.copies count pen more fits).pens.length = count := List.length_replicate
    rw [pens]
    exact packedPixels_copies pen more fits left fuel col

/-- A packed line draws the pens of its packets. -/
theorem packedPixels_run {packets : List (Packet l.bpp)} {fuel pad : Nat}
    (enough : packets.length < fuel)
    (left : Left m base bytes p (packets.flatMap Packet.bits ++ List.replicate pad false))
    {col : Int} (avoids : l.Avoids (span base bytes) (columns col (packets.flatMap Packet.pens))) :
    (l.packedPixels fuel ((8 * bytes : Nat) - p) col (Bitr.atBit base p)).run memory m =
      (columns col (packets.flatMap Packet.pens),
        ((l.drawAll (columns col (packets.flatMap Packet.pens))).run memory m).2) := by
  induction packets generalizing m p fuel col with
  | nil => exact packedPixels_padding fuel left col
  | cons packet packets ih =>
    obtain ⟨fuel, rfl⟩ : ∃ n, fuel = n + 1 := ⟨fuel - 1, by simp at enough; omega⟩
    rw [List.flatMap_cons, columns_append] at avoids
    rw [List.flatMap_cons, List.append_assoc] at left
    rcases avoids.append with ⟨here, there⟩
    have later := left.split.2.kept (drawAll_keeps here m)
    rw [List.flatMap_cons, columns_append, drawAll_append,
      packedPixels_packet packet left fuel here, ih (Nat.lt_of_succ_lt_succ enough) later there]

/-- Lines outside the video buffer are never drawn over. -/
theorem avoids_of_outside {A : Addr → Prop} (outside : ∀ a, A a → ¬ inVideoBuffer l.vidbas a)
    (pixels : List Pixel) : l.Avoids A pixels := by
  intro px _
  apply (l.plot_stores _ _).mono
  intro a buffer inside
  exact outside a inside buffer

end Line

theorem Packet.bits_pos (packet : Packet bpp) : 1 ≤ packet.bits.length := by
  cases packet with
  | run pens some_ fits => simp [bits]
  | copies count pen more fits => simp [bits]

theorem packets_length_le (packets : List (Packet bpp)) :
    packets.length ≤ (packets.flatMap Packet.bits).length := by
  induction packets with
  | nil => exact Nat.le_refl 0
  | cons packet packets ih =>
    have some_ := packet.bits_pos
    rw [List.flatMap_cons, List.length_cons, List.length_append]
    omega

theorem length_penBits (pens : List (BitVec bpp)) : (penBits pens).length = pens.length * bpp := by
  induction pens with
  | nil => simp [penBits]
  | cons v vs ih =>
    rw [penBits, List.flatMap_cons, List.length_append, length_msbFirst, ← penBits, ih,
      List.length_cons, Nat.succ_mul, Nat.add_comm]

/-- The data bytes of the line at `dp` hold `bs`, filled up with `pad` zeros. -/
def LineHolds (m : Addr → Byte) (dp : Addr) (offset : Byte) (bs : List Bool) (pad : Nat) : Prop :=
  2 ≤ offset.toNat ∧
    bitsAt m (dp + 1) 0 (8 * (offset.toNat - 1)) = bs ++ List.replicate pad false

theorem LineHolds.left {m : Addr → Byte} {dp : Addr} {offset : Byte} {bs : List Bool}
    {pad : Nat} (holds : LineHolds m dp offset bs pad) :
    Left m (dp + 1) (offset.toNat - 1) 0 (bs ++ List.replicate pad false) := by
  have length := congrArg List.length holds.2
  rw [length_bitsAt] at length
  refine ⟨by omega, ?_⟩
  rw [← length]
  exact holds.2

/-- The data bytes of the line at `dp` -/
def lineData (dp : Addr) (offset : Byte) : Addr → Prop := span (dp + 1) (offset.toNat - 1)

namespace Line

variable {l : Line} {m : Addr → Byte} {dp : Addr} {offset : Byte} {pad : Nat}

theorem packed_line (packets : List (Packet l.bpp))
    (holds : LineHolds m dp offset (packets.flatMap Packet.bits) pad)
    (avoids : l.Avoids (lineData dp offset) (columns 0 (packets.flatMap Packet.pens))) :
    (l.drawPixels false offset dp).run memory m =
      (columns 0 (packets.flatMap Packet.pens),
        ((l.drawAll (columns 0 (packets.flatMap Packet.pens))).run memory m).2) := by
  have left := holds.left
  have enough : packets.length < 8 * (offset.toNat - 1) + 1 := by
    have few := packets_length_le packets
    have total := left.1
    rw [List.length_append] at total
    omega
  rw [drawPixels_eq l false holds.1]
  exact packedPixels_run enough left avoids

theorem literal_line (pens : List (BitVec l.bpp)) (holds : LineHolds m dp offset (penBits pens) pad)
    (short : pad < l.bpp) (avoids : l.Avoids (lineData dp offset) (columns 0 pens)) :
    (l.drawPixels true offset dp).run memory m =
      (columns 0 pens, ((l.drawAll (columns 0 pens)).run memory m).2) := by
  have left := holds.left
  have enough : pens.length < 8 * (offset.toNat - 1) + 1 := by
    have few : pens.length ≤ pens.length * l.bpp := Nat.le_mul_of_pos_right _ (by omega)
    have total := left.1
    rw [List.length_append, length_penBits] at total
    omega
  rw [drawPixels_eq l true holds.1]
  exact literalPixels_run short enough left avoids

theorem draw_run (l : Line) (literal : Bool) (offset : Byte) (dp : Addr) (m : Addr → Byte) :
    ((l.draw literal offset dp).run memory m).2 =
      ((l.drawPixels literal offset dp).run memory m).2 := by
  rw [draw_eq, run_bind]
  rfl

end Line

/-- A packed line draws the pens of its packets at the columns 0, 1, 2 and so on, unless it
draws over its own data; so does a literal line with the same pens. -/
theorem packed_line_draws (l : Line) (packets : List (Packet l.bpp)) {m : Addr → Byte} {dp : Addr}
    {offset : Byte} {pad : Nat} (holds : LineHolds m dp offset (packets.flatMap Packet.bits) pad)
    (avoids : l.Avoids (lineData dp offset) (columns 0 (packets.flatMap Packet.pens))) :
    ((l.drawPixels false offset dp).run memory m).1 = columns 0 (packets.flatMap Packet.pens) ∧
    ((l.draw false offset dp).run memory m).2 =
      ((l.drawAll (columns 0 (packets.flatMap Packet.pens))).run memory m).2 ∧
    ∀ (dp' : Addr) (offset' : Byte) (pad' : Nat), pad' < l.bpp →
      LineHolds m dp' offset' (penBits (packets.flatMap Packet.pens)) pad' →
      l.Avoids (lineData dp' offset') (columns 0 (packets.flatMap Packet.pens)) →
      ((l.drawPixels true offset' dp').run memory m).1 =
          ((l.drawPixels false offset dp).run memory m).1 ∧
        ((l.draw true offset' dp').run memory m).2 =
          ((l.draw false offset dp).run memory m).2 := by
  have drawn := Line.packed_line packets holds avoids
  refine ⟨by rw [drawn], by rw [Line.draw_run, drawn], ?_⟩
  intro dp' offset' pad' short holds' avoids'
  have literal := Line.literal_line _ holds' short avoids'
  constructor
  · rw [literal, drawn]
  · rw [Line.draw_run, Line.draw_run, literal, drawn]

/-- A line of the upper left corner with four bits a pixel, 4 pixels from the edge. -/
def cornerLine (vidbas : Addr) : Line where
  vidbas := vidbas
  sx := 4
  y := 0
  hflip := false
  bpp := 4
  type := 0
  pen i := BitVec.ofNat 8 i.val

/-- A literal run of five pens -/
def cornerPackets : List (Packet 4) := [.run [15, 0, 0, 0, 0] (by decide) (by decide)]

/-- Memory with a line of these packets at `$0420`. -/
def cornerMemory : Addr → Byte := fun a =>
  if a = 0x0420 then 5 else if a = 0x0421 then 0xA7 else if a = 0x0422 then 0x80 else 0

theorem cornerMemory_holds :
    LineHolds cornerMemory 0x0420 5 (cornerPackets.flatMap Packet.bits) 7 := by
  unfold LineHolds
  decide

/-- A literal run of three pens and four copies of another. -/
def mixedPackets : List (Packet 4) :=
  [.run [15, 0, 6] (by decide) (by decide), .copies 4 9 (by decide) (by decide)]

/-- Memory with a line of these packets at `$0420`. -/
def mixedMemory : Addr → Byte := fun a =>
  if a = 0x0420 then 5 else if a = 0x0421 then 0x97 else if a = 0x0422 then 0x83
  else if a = 0x0423 then 0x0E else if a = 0x0424 then 0x40 else 0

theorem mixedLine_draws :
    LineHolds mixedMemory 0x0420 5 (mixedPackets.flatMap Packet.bits) 6 ∧
      ((cornerLine 0xC000).drawPixels false 5 0x0420 |>.run memory mixedMemory).1 =
        [(0, 15), (1, 0), (2, 6), (3, 9), (4, 9), (5, 9), (6, 9)] := by
  have holds : LineHolds mixedMemory 0x0420 5 (mixedPackets.flatMap Packet.bits) 6 := by
    unfold LineHolds
    decide
  have avoids : (cornerLine 0xC000).Avoids (lineData 0x0420 5)
      (columns 0 (mixedPackets.flatMap Packet.pens)) := by
    apply Line.avoids_of_outside
    rintro a ⟨i, below, rfl⟩ ⟨k, inside, same⟩
    change i < 4 at below
    change k < 8160 at inside
    change (0x0420 : Addr) + 1 + BitVec.ofNat 16 i = 0xC000 + BitVec.ofNat 16 k at same
    bv_omega
  exact ⟨holds, (packed_line_draws (cornerLine 0xC000) mixedPackets holds avoids).1.trans
    (by decide)⟩

/-- A line in the video buffer may change its own packets before they are read. -/
theorem cornerLine_overdrawn :
    ¬ ∀ (l : Line) (packets : List (Packet l.bpp)) (m : Addr → Byte) (dp : Addr) (offset : Byte)
        (pad : Nat), LineHolds m dp offset (packets.flatMap Packet.bits) pad →
        ((l.drawPixels false offset dp).run memory m).1 =
          columns 0 (packets.flatMap Packet.pens) := by
  intro draws
  have drawn := draws (cornerLine 0x0421) cornerPackets _ _ _ _ cornerMemory_holds
  revert drawn
  decide

end LynxRecomp
