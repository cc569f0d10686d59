import LynxRecomp.Lib.Layout
import LynxRecomp.Runtime.Suzy

/-!
# Sprite control blocks

A turn of the SCB loop takes a control block apart and draws its sprite. The size words
between the header and the palette are as many as the reload depth says; the loop skips
two for each step of the depth.
-/

namespace LynxRecomp

open BusProgram

/-- The fields of a control block that the loop reads from fixed places. -/
@[ext]
structure Scb where
  ctl0 : Byte
  ctl1 : Byte
  next : Addr
  data : Addr
  hpos : Addr
  vpos : Addr

namespace Scb

variable (h : Scb)

def bpp : Nat := ((h.ctl0 >>> 6) &&& 3).toNat + 1

theorem bpp_le : h.bpp ≤ 4 := Nat.succ_le_succ (BitVec.toNat_and .. ▸ Nat.and_le_right)

/-- The reload depth: 0 none, 1 HV, 2 HVS, 3 HVST. -/
def reload : Nat := ((h.ctl1 >>> 4) &&& 3).toNat

/-- Where the loop looks for the palette of the block at `scb`. -/
def palette (scb : Addr) : Addr := scb + 11 + BitVec.ofNat 16 (h.reload * 2 * 2)

/-- The pens that the sprite is drawn with: its own, or those of the sprite before. -/
def pens (scb : Addr) (pen : Fin 16 → Byte) : Dma (Fin 16 → Byte) :=
  if h.ctl1 &&& 0x08 = 0 then loadPens (2 ^ h.bpp / 2) 0 (h.palette scb) pen else pure pen

def sprite (vidbas : Addr) (hoff voff : Int) (pen : Fin 16 → Byte) : Sprite where
  vidbas := vidbas
  sx := h.hpos.toInt - hoff
  sy := h.vpos.toInt - voff
  bpp := h.bpp
  type := (h.ctl0 &&& 0x07).toNat
  hflip := h.ctl0 &&& 0x20 != 0
  vflip := h.ctl0 &&& 0x10 != 0
  literal := h.ctl1 &&& 0x80 != 0
  pen := pen

/-- Draw the sprite, unless the block says to skip it. -/
def draw (vidbas : Addr) (hoff voff : Int) (pen : Fin 16 → Byte) : Dma Unit :=
  if h.ctl1 &&& 0x04 = 0 then (h.sprite vidbas hoff voff pen).lines (screenH * 2) 0 h.data
  else pure ()

end Scb

def readScb (scb : Addr) : Dma Scb := do
  let ctl0 ← dramRd scb
  let ctl1 ← dramRd (scb + 1)
  let next ← dramRd16 (scb + 3)
  let data ← dramRd16 (scb + 5)
  let hpos ← dramRd16 (scb + 7)
  let vpos ← dramRd16 (scb + 9)
  pure ⟨ctl0, ctl1, next, data, hpos, vpos⟩

/-- The control block at `scb` and the pens for its sprite. -/
def readSprite (scb : Addr) (pen : Fin 16 → Byte) : Dma (Scb × (Fin 16 → Byte)) := do
  let h ← readScb scb
  let pen ← h.pens scb pen
  pure (h, pen)

/-- A turn of the SCB loop: read the block, draw, and go on with the next block. -/
theorem scbLoop_succ (vidbas : Addr) (hoff voff : Int) (n : Nat) {scb : Addr} (more : scb ≠ 0)
    (pen : Fin 16 → Byte) :
    scbLoop vidbas hoff voff (n + 1) scb pen =
      readSprite scb pen >>= fun (h, pen) =>
        h.draw vidbas hoff voff pen >>= fun _ => scbLoop vidbas hoff voff n h.next pen := by
  rw [scbLoop, if_neg more]
  simp only [readSprite, readScb, bind_assoc, pure_bind]
  apply bind_congr; intro ctl0
  apply bind_congr; intro ctl1
  apply bind_congr; intro next
  apply bind_congr; intro data
  apply bind_congr; intro hpos
  apply bind_congr; intro vpos
  have drawn (pen : Fin 16 → Byte) :
      (if ctl1 &&& 0x04 = 0 then
        (Scb.sprite ⟨ctl0, ctl1, next, data, hpos, vpos⟩ vidbas hoff voff pen).lines
          (screenH * 2) 0 data >>= fun _ => scbLoop vidbas hoff voff n next pen
        else scbLoop vidbas hoff voff n next pen) =
      (Scb.draw ⟨ctl0, ctl1, next, data, hpos, vpos⟩ vidbas hoff voff pen >>= fun _ =>
        scbLoop vidbas hoff voff n next pen) := by
    rw [Scb.draw]
    split
    · rfl
    · rfl
  rw [Scb.pens]
  by_cases loads : ctl1 &&& 0x08 = 0
  · rw [if_pos loads, if_pos loads]
    apply bind_congr
    exact drawn
  · rw [if_neg loads, if_neg loads, pure_bind]
    exact drawn pen

section Pens

/-- Two pens a byte, the first one in the high half. -/
def penOfByte (byte : Byte) (k : Nat) : Byte := if k % 2 = 0 then byte >>> 4 else byte &&& 0x0F

theorem loadPens_run (ram : Addr → Byte) (n i : Nat) (f : Addr) (pen : Fin 16 → Byte)
    (even : i % 2 = 0) (room : i + 2 * n ≤ 16) :
    (loadPens n i f pen).run memory ram =
      (fun k => if i ≤ k.val ∧ k.val < i + 2 * n then
        penOfByte (ram (f + BitVec.ofNat 16 ((k.val - i) / 2))) k.val else pen k, ram) := by
  induction n generalizing i f pen with
  | zero =>
    have nothing (k : Fin 16) : ¬ (i ≤ k.val ∧ k.val < i + 2 * 0) := by omega
    simp only [nothing, if_false]
    rfl
  | succ n ih =>
    have step := ih (i + 2) (f + 1)
      (Function.update (Function.update pen (Fin.ofNat 16 i) (ram f >>> 4))
        (Fin.ofNat 16 (i + 1)) (ram f &&& 0x0F)) (by omega) (by omega)
    refine step.trans (Prod.ext (funext fun k => ?_) rfl)
    have first : k = Fin.ofNat 16 i ↔ k.val = i := by
      rw [Fin.ext_iff, Fin.val_ofNat, Nat.mod_eq_of_lt (by omega)]
    have second : k = Fin.ofNat 16 (i + 1) ↔ k.val = i + 1 := by
      rw [Fin.ext_iff, Fin.val_ofNat, Nat.mod_eq_of_lt (by omega)]
    have zero : f + BitVec.ofNat 16 0 = f := BitVec.add_zero f
    simp only [Function.update_apply, first, second]
    by_cases left : k.val = i
    · have here : (k.val - i) / 2 = 0 := by omega
      rw [if_neg (by omega), if_neg (by omega), if_pos left, if_pos (by omega), here, zero,
        penOfByte, if_pos (by omega)]
    · by_cases right : k.val = i + 1
      · have here : (k.val - i) / 2 = 0 := by omega
        rw [if_neg (by omega), if_pos right, if_pos (by omega), here, zero, penOfByte,
          if_neg (by omega)]
      · rw [if_neg right, if_neg left]
        by_cases later : i + 2 ≤ k.val ∧ k.val < i + 2 + 2 * n
        · have place : f + 1 + BitVec.ofNat 16 ((k.val - (i + 2)) / 2) =
              f + BitVec.ofNat 16 ((k.val - i) / 2) := by
            have next : (k.val - i) / 2 = 1 + (k.val - (i + 2)) / 2 := by omega
            rw [next, BitVec.ofNat_add, BitVec.add_assoc]
            rfl
          rw [if_pos later, if_pos (by omega), place]
        · rw [if_neg later, if_neg (by omega)]

end Pens

/-- The size words of a control block, by reload depth: none; H and V; H, V and stretch;
H, V, stretch and tilt. -/
def sizeWords : Nat → Nat
  | 0 => 0
  | 1 => 2
  | 2 => 3
  | _ => 4

/-- A control block as it is described: the header, the size words, and, unless the sprite
reuses the pens of the one before, the pens, of which the first `2 ^ bpp` are stored. -/
structure ControlBlock where
  header : Scb
  coll : Byte
  sizes : List Addr
  pen : Fin 16 → BitVec 4
  sizes_length : sizes.length = sizeWords header.reload

/-- A word with its low byte first -/
def wordBytes (w : Addr) : List Byte := [w.setWidth 8, (w >>> 8).setWidth 8]

namespace ControlBlock

variable (b : ControlBlock)

def headerBytes : List Byte :=
  [b.header.ctl0, b.header.ctl1, b.coll] ++ wordBytes b.header.next ++ wordBytes b.header.data ++
    wordBytes b.header.hpos ++ wordBytes b.header.vpos

/-- The pens `2 * j` and `2 * j + 1` in one byte -/
def penByte (j : Nat) : Byte := b.pen (Fin.ofNat 16 (2 * j)) ++ b.pen (Fin.ofNat 16 (2 * j + 1))

def paletteBytes : List Byte :=
  if b.header.ctl1 &&& 0x08 = 0 then (List.range (2 ^ b.header.bpp / 2)).map b.penByte else []

def bytes : List Byte := b.headerBytes ++ b.sizes.flatMap wordBytes ++ b.paletteBytes

/-- The block lies in memory at `a`. -/
def LaidOut (ram : Addr → Byte) (a : Addr) : Prop :=
  Layout.At (fun i => ram (a + BitVec.ofNat 16 i)) b.bytes

/-- The pens that the sprite has, after one with the pens `previous`. -/
def pens (previous : Fin 16 → Byte) : Fin 16 → Byte := fun k =>
  if b.header.ctl1 &&& 0x08 = 0 ∧ k.val < 2 ^ b.header.bpp then (b.pen k).setWidth 8
  else previous k

/-- Where the palette of a block at `a` is. -/
def paletteAt (a : Addr) : Addr := a + 11 + BitVec.ofNat 16 (2 * sizeWords b.header.reload)

variable {b} {ram : Addr → Byte} {a : Addr}

theorem wordBytes_length (w : Addr) : (wordBytes w).length = 2 := rfl

theorem sizes_bytes_length : (b.sizes.flatMap wordBytes).length = 2 * b.sizes.length := by
  simp [List.length_flatMap, wordBytes_length, Nat.mul_comm]

theorem dramRd16_run {k : Nat} {w : Addr} (lo : ram (a + BitVec.ofNat 16 k) = w.setWidth 8)
    (hi : ram (a + BitVec.ofNat 16 (k + 1)) = (w >>> 8).setWidth 8) :
    ((dramRd16 (a + BitVec.ofNat 16 k)).run memory ram).1 = w := by
  have second : a + BitVec.ofNat 16 k + 1 = a + BitVec.ofNat 16 (k + 1) := by
    rw [BitVec.ofNat_add, BitVec.add_assoc]
    rfl
  change word16 (ram (a + BitVec.ofNat 16 k)) (ram (a + BitVec.ofNat 16 k + 1)) = w
  rw [second, lo, hi, word16_split]

/-- The header is read as it is laid out. -/
theorem readScb_run (laid : b.LaidOut ram a) :
    (readScb a).run memory ram = (b.header, ram) := by
  have header := (Layout.at_append.mp (Layout.at_append.mp laid).1).1
  simp only [headerBytes, wordBytes, List.cons_append, List.nil_append, Layout.at_cons,
    Layout.advance_apply, Nat.reduceAdd, Layout.at_nil, and_true] at header
  rcases header with ⟨ctl0, ctl1, -, next, next', data, data', hpos, hpos', vpos, vpos'⟩
  have zero : a + 0#16 = a := BitVec.add_zero a
  rw [zero] at ctl0
  have fields : (readScb a).run memory ram =
      (⟨ram a, ram (a + 1), ((dramRd16 (a + 3)).run memory ram).1,
        ((dramRd16 (a + 5)).run memory ram).1, ((dramRd16 (a + 7)).run memory ram).1,
        ((dramRd16 (a + 9)).run memory ram).1⟩, ram) := rfl
  rw [fields]
  refine Prod.ext (Scb.ext ctl0 ctl1 ?_ ?_ ?_ ?_) rfl
  · exact dramRd16_run next next'
  · exact dramRd16_run data data'
  · exact dramRd16_run hpos hpos'
  · exact dramRd16_run vpos vpos'

/-- The palette follows the last size word. -/
theorem palette_laidOut (laid : b.LaidOut ram a) (loads : b.header.ctl1 &&& 0x08 = 0) {j : Nat}
    (stored : j < 2 ^ b.header.bpp / 2) :
    ram (b.paletteAt a + BitVec.ofNat 16 j) = b.penByte j := by
  have palette := (Layout.at_append.mp laid).2
  have length : (b.headerBytes ++ b.sizes.flatMap wordBytes).length =
      11 + 2 * sizeWords b.header.reload := by
    rw [List.length_append, sizes_bytes_length, b.sizes_length]
    rfl
  have place : b.paletteAt a + BitVec.ofNat 16 j =
      a + BitVec.ofNat 16 (11 + 2 * sizeWords b.header.reload + j) := by
    rw [paletteAt, BitVec.ofNat_add, BitVec.ofNat_add, BitVec.add_assoc, BitVec.add_assoc,
      BitVec.add_assoc]
    rfl
  rw [length, paletteBytes, if_pos loads] at palette
  have byte := palette j (by simpa using stored)
  rw [List.getElem?_map, List.getElem?_range stored] at byte
  rw [place]
  exact (Option.some.inj byte).symm

theorem penOfByte_append_even : ∀ hi lo : BitVec 4, (hi ++ lo : Byte) >>> 4 = hi.setWidth 8 := by
  decide

theorem penOfByte_append_odd : ∀ hi lo : BitVec 4, (hi ++ lo : Byte) &&& 0x0F = lo.setWidth 8 := by
  decide

theorem byte_halves : ∀ x : Byte, (x >>> 4) <<< 4 ||| x &&& 0x0F = x := by decide

theorem penOfByte_penByte (k : Fin 16) :
    penOfByte (b.penByte (k.val / 2)) k.val = (b.pen k).setWidth 8 := by
  unfold penOfByte penByte
  by_cases even : k.val % 2 = 0
  · have here : Fin.ofNat 16 (2 * (k.val / 2)) = k := by
      apply Fin.ext
      simp only [Fin.val_ofNat]
      omega
    rw [if_pos even, penOfByte_append_even, here]
  · have here : Fin.ofNat 16 (2 * (k.val / 2) + 1) = k := by
      apply Fin.ext
      simp only [Fin.val_ofNat]
      omega
    rw [if_neg even, penOfByte_append_odd, here]

/-- Two bytes hold the same pens only if they are the same. -/
theorem eq_of_penOfByte {x y : Byte} {j : Nat} (first : penOfByte x (2 * j) = penOfByte y (2 * j))
    (second : penOfByte x (2 * j + 1) = penOfByte y (2 * j + 1)) : x = y := by
  have even : 2 * j % 2 = 0 := by omega
  have odd : ¬ (2 * j + 1) % 2 = 0 := by omega
  simp only [penOfByte, if_pos even, if_neg odd] at first second
  rw [← byte_halves x, first, second, byte_halves]

/-- The loop finds the palette: there is none to load, no more size words than the loop
skips, or the same bytes where it looks. -/
def PaletteFound (b : ControlBlock) (ram : Addr → Byte) (a : Addr) : Prop :=
  b.header.ctl1 &&& 0x08 ≠ 0 ∨ b.header.reload ≤ 1 ∨
    ∀ j < 2 ^ b.header.bpp / 2,
      ram (b.header.palette a + BitVec.ofNat 16 j) = ram (b.paletteAt a + BitVec.ofNat 16 j)

theorem palette_of_reload_le (shallow : b.header.reload ≤ 1) (a : Addr) :
    b.header.palette a = b.paletteAt a := by
  unfold Scb.palette paletteAt
  have depth : b.header.reload = 0 ∨ b.header.reload = 1 := by omega
  rcases depth with none | one
  · rw [none]
    rfl
  · rw [one]
    rfl

/-- A pen that the block sets is in its palette. -/
theorem pens_laidOut (laid : b.LaidOut ram a) (loads : b.header.ctl1 &&& 0x08 = 0)
    (previous : Fin 16 → Byte) {k : Fin 16} (known : k.val < 2 ^ b.header.bpp) :
    b.pens previous k =
      penOfByte (ram (b.paletteAt a + BitVec.ofNat 16 (k.val / 2))) k.val := by
  have whole : 2 * (2 ^ b.header.bpp / 2) = 2 ^ b.header.bpp := by
    rw [Scb.bpp, Nat.pow_succ]
    omega
  rw [palette_laidOut laid loads (by omega), penOfByte_penByte, pens, if_pos ⟨loads, known⟩]

theorem PaletteFound.bytes (found : b.PaletteFound ram a) (loads : b.header.ctl1 &&& 0x08 = 0)
    {j : Nat} (inside : j < 2 ^ b.header.bpp / 2) :
    ram (b.header.palette a + BitVec.ofNat 16 j) = ram (b.paletteAt a + BitVec.ofNat 16 j) := by
  rcases found with reuses | shallow | bytes
  · exact absurd loads reuses
  · rw [palette_of_reload_le shallow]
  · exact bytes j inside

theorem pens_run_iff (laid : b.LaidOut ram a) (previous : Fin 16 → Byte) :
    (b.header.pens a previous).run memory ram = (b.pens previous, ram) ↔ b.PaletteFound ram a := by
  by_cases loads : b.header.ctl1 &&& 0x08 = 0
  · have small := b.header.bpp_le
    have whole : 2 * (2 ^ b.header.bpp / 2) = 2 ^ b.header.bpp := by
      rw [Scb.bpp, Nat.pow_succ]
      omega
    have room : 2 ^ b.header.bpp ≤ 2 ^ 4 := Nat.pow_le_pow_right (by decide) small
    rw [Scb.pens, if_pos loads, loadPens_run ram _ 0 _ previous rfl (by omega)]
    constructor
    · intro same
      refine .inr (.inr fun j inside => ?_)
      have pen (k : Nat) (known : k < 2 ^ b.header.bpp) (half : k / 2 = j) :
          penOfByte (ram (b.header.palette a + BitVec.ofNat 16 j)) k =
            penOfByte (ram (b.paletteAt a + BitVec.ofNat 16 j)) k := by
        have both := congrFun (congrArg Prod.fst same) ⟨k, by omega⟩
        have stored := pens_laidOut laid loads previous (k := ⟨k, by omega⟩) known
        simp only at both
        rw [if_pos ⟨Nat.zero_le _, by omega⟩, stored, Nat.sub_zero, half] at both
        exact both
      exact eq_of_penOfByte (pen (2 * j) (by omega) (by omega))
        (pen (2 * j + 1) (by omega) (by omega))
    · intro found
      refine Prod.ext (funext fun k => ?_) rfl
      simp only [Nat.zero_le, true_and, Nat.zero_add, Nat.sub_zero, whole]
      by_cases known : k.val < 2 ^ b.header.bpp
      · rw [if_pos known, found.bytes loads (by omega), pens_laidOut laid loads previous known]
      · rw [if_neg known, pens, if_neg (fun h => known h.2)]
  · rw [Scb.pens, if_neg loads]
    have same : b.pens previous = previous := funext fun k => if_neg fun h => loads h.1
    rw [same]
    exact ⟨fun _ => .inl loads, fun _ => rfl⟩

end ControlBlock

/-- Every turn of the SCB loop draws the sprite that it reads from the block, with the pens
it reads; a block that is laid out as described is read as it is if and only if the loop
finds its palette. -/
theorem scbLoop_decodes (vidbas : Addr) (hoff voff : Int) :
    (∀ (n : Nat) (scb : Addr) (pen : Fin 16 → Byte), scb ≠ 0 →
      scbLoop vidbas hoff voff (n + 1) scb pen =
        readSprite scb pen >>= fun (h, pen) =>
          h.draw vidbas hoff voff pen >>= fun _ => scbLoop vidbas hoff voff n h.next pen) ∧
    ∀ (b : ControlBlock) (ram : Addr → Byte) (a : Addr) (previous : Fin 16 → Byte),
      b.LaidOut ram a →
        ((readSprite a previous).run memory ram = ((b.header, b.pens previous), ram) ↔
          b.PaletteFound ram a) := by
  constructor
  · intro n scb pen more
    exact scbLoop_succ vidbas hoff voff n more pen
  · intro b ram a previous laid
    rw [← ControlBlock.pens_run_iff laid previous]
    have read : (readSprite a previous).run memory ram =
        ((b.header, ((b.header.pens a previous).run memory ram).1),
          ((b.header.pens a previous).run memory ram).2) := by
      rw [readSprite, run_bind, ControlBlock.readScb_run laid, run_bind]
      rfl
    rw [read, Prod.ext_iff, Prod.ext_iff, Prod.ext_iff]
    simp

/-- A sprite of one bit a pixel whose second pen is 5, with size words for the depth. -/
def sampleBlock (ctl1 : Byte) (sizes : List Addr)
    (fits : sizes.length = sizeWords ((ctl1 >>> 4) &&& 3).toNat) : ControlBlock where
  header := { ctl0 := 0x04, ctl1 := ctl1, next := 0, data := 0x0420, hpos := 10, vpos := 8 }
  coll := 0
  sizes := sizes
  pen k := if k = 1 then 5 else 0
  sizes_length := fits

def flatBlock : ControlBlock := sampleBlock 0x00 [] rfl

def stretchedBlock : ControlBlock := sampleBlock 0x20 [0x0100, 0x0100, 0] rfl

/-- Memory that holds `bs` from `a` on. -/
def holding (bs : List Byte) (a : Addr) : Addr → Byte := fun x => bs.getD (x - a).toNat 0

theorem flatBlock_decoded :
    flatBlock.LaidOut (holding flatBlock.bytes 0x0400) 0x0400 ∧
      (readSprite 0x0400 fun _ => 0).run memory (holding flatBlock.bytes 0x0400) =
        ((flatBlock.header, flatBlock.pens fun _ => 0), holding flatBlock.bytes 0x0400) := by
  have laid : flatBlock.LaidOut (holding flatBlock.bytes 0x0400) 0x0400 := by
    unfold ControlBlock.LaidOut Layout.At
    decide
  have found : flatBlock.PaletteFound (holding flatBlock.bytes 0x0400) 0x0400 :=
    .inr (.inl (by decide))
  exact ⟨laid, ((scbLoop_decodes 0 0 0).2 flatBlock _ _ _ laid).mpr found⟩

/-- With a stretch word the loop looks for the palette one word too far. -/
theorem stretchedBlock_misread :
    stretchedBlock.LaidOut (holding stretchedBlock.bytes 0x0400) 0x0400 ∧
      (readSprite 0x0400 fun _ => 0).run memory (holding stretchedBlock.bytes 0x0400) ≠
        ((stretchedBlock.header, stretchedBlock.pens fun _ => 0),
          holding stretchedBlock.bytes 0x0400) := by
  constructor
  · unfold ControlBlock.LaidOut Layout.At
    decide
  · intro decoded
    have second := congrArg (fun r => r.1.2 1) decoded
    revert second
    decide

end LynxRecomp
