import LynxRecomp.Lib.Numeral

/-!
# Binary pixmaps

A file of the Netpbm format `P6` has the width, the height and the highest value of a sample as
decimal numbers with blanks before them, one blank after the last, and three bytes a pixel.
-/

namespace Netpbm

open Decimal

abbrev Octet := BitVec 8

def char (b : Octet) : Char := Char.ofNat b.toNat

def octet (c : Char) : Octet := BitVec.ofNat 8 c.toNat

/-- The number at the front, after blanks, and what follows it -/
def number (cs : List Char) : Option (Nat × List Char) :=
  let cs := cs.dropWhile isSpace
  (scanDigits cs).map fun n => (n, cs.dropWhile isDigit)

/-- The width, the height and the highest value, and what follows the header -/
def header (cs : List Char) : Option ((Nat × Nat × Nat) × List Char) :=
  if cs.take 2 = ['P', '6'] then
    (number (cs.drop 2)).bind fun w =>
      (number w.2).bind fun h =>
        (number h.2).bind fun m =>
          if (m.2.head?.any isSpace) = true then some ((w.1, h.1, m.1), m.2.drop 1) else none
  else none

structure Pixmap where
  width : Nat
  height : Nat
  maxval : Nat
  raster : List Octet

/-- Of the formats with more than a byte for a sample nothing is read. -/
def read (bs : List Octet) : Option Pixmap :=
  (header (bs.map char)).bind fun r =>
    let size := 3 * (r.1.1 * r.1.2.1)
    if 0 < r.1.2.2 ∧ r.1.2.2 < 256 ∧ size ≤ r.2.length then
      some {
        width := r.1.1
        height := r.1.2.1
        maxval := r.1.2.2
        raster := (bs.drop (bs.length - r.2.length)).take size }
    else none

/-- Red, green and blue of the pixel in a row and a column -/
def Pixmap.pixel (p : Pixmap) (row col : Nat) : List Octet :=
  (p.raster.drop (3 * (row * p.width + col))).take 3

/-- `P6\n%d %d\n%d\n` -/
def printHeader (w h m : Nat) : List Char :=
  'P' :: '6' :: '\n' :: (Numeral.print 10 1 w ++ ' ' :: (Numeral.print 10 1 h ++
    '\n' :: (Numeral.print 10 1 m ++ ['\n'])))

section Header

variable {b d : Char} {rest : List Char}

theorem digit_plain : ∀ k < 10,
    isSpace (Numeral.digit k) = false ∧ (Numeral.digit k).toNat < 128 := by
  decide

theorem dropWhile_digits (n : Nat) (ends : isDigit d = false) :
    (Numeral.print 10 1 n ++ d :: rest).dropWhile isDigit = d :: rest := by
  have all : ∀ c ∈ Numeral.print 10 1 n, isDigit c = true := by
    intro c member
    rcases Numeral.mem_print (by decide) member with ⟨k, small, rfl⟩
    exact isDigit_digit small
  rw [List.dropWhile_append_of_pos all, List.dropWhile_cons_of_neg (by rw [ends]; decide)]

theorem dropWhile_spaces (n : Nat) (blank : isSpace b = true) (more : List Char) :
    (b :: (Numeral.print 10 1 n ++ more)).dropWhile isSpace = Numeral.print 10 1 n ++ more := by
  rcases List.exists_cons_of_ne_nil (print_ne_nil n) with ⟨c, cs, shape⟩
  have digit : ∃ k < 10, c = Numeral.digit k :=
    Numeral.mem_print (b := 10) (by decide) (shape ▸ List.mem_cons_self)
  have plain : isSpace c = false := by
    rcases digit with ⟨k, small, rfl⟩
    exact (digit_plain k small).1
  rw [List.dropWhile_cons_of_pos blank, shape, List.cons_append,
    List.dropWhile_cons_of_neg (by rw [plain]; decide)]

theorem number_print (blank : isSpace b = true) (n : Nat) (ends : isDigit d = false) :
    number (b :: (Numeral.print 10 1 n ++ d :: rest)) = some (n, d :: rest) := by
  have last : ∀ c ∈ (d :: rest).head?, isDigit c = false := by
    intro c first
    rwa [← Option.some.inj first]
  rw [number]
  simp only [dropWhile_spaces n blank, dropWhile_digits n ends]
  rw [scanDigits_print last, Option.map_some]

/-- A header is read as it was written. -/
theorem header_print (w h m : Nat) (rest : List Char) :
    header (printHeader w h m ++ rest) = some ((w, h, m), rest) := by
  let third := Numeral.print 10 1 m ++ '\n' :: rest
  let second := Numeral.print 10 1 h ++ '\n' :: third
  have width := @number_print '\n' ' ' second (by decide) w (by decide)
  have height := @number_print ' ' '\n' third (by decide) h (by decide)
  have most := @number_print '\n' '\n' rest (by decide) m (by decide)
  have shape : (printHeader w h m ++ rest).drop 2 = '\n' :: (Numeral.print 10 1 w ++
      ' ' :: (Numeral.print 10 1 h ++ '\n' :: (Numeral.print 10 1 m ++ '\n' :: rest))) := by
    simp [printHeader]
  have magic : (printHeader w h m ++ rest).take 2 = ['P', '6'] := rfl
  rw [header, if_pos magic, shape, width, Option.bind_some, height, Option.bind_some, most]
  rfl

end Header

/-- The header has ASCII characters alone. -/
theorem ascii_printHeader {w h m : Nat} {c : Char} (member : c ∈ printHeader w h m) :
    c.toNat < 128 := by
  have digits {n : Nat} (inside : c ∈ Numeral.print 10 1 n) : c.toNat < 128 := by
    rcases Numeral.mem_print (b := 10) (by decide) inside with ⟨k, small, rfl⟩
    exact (digit_plain k small).2
  simp only [printHeader, List.mem_cons, List.mem_append, List.not_mem_nil, or_false] at member
  rcases member with rfl | rfl | rfl | inside | rfl | inside | rfl | inside | rfl
  all_goals first
    | decide
    | exact digits inside

theorem char_octet {c : Char} (ascii : c.toNat < 128) : char (octet c) = c := by
  rw [char, octet, BitVec.toNat_ofNat, Nat.mod_eq_of_lt (by omega)]
  exact Char.ofNat_toNat c

/-- A pixmap is read as it was written. -/
theorem read_print {w h m : Nat} {raster : List Octet} (positive : 0 < m) (small : m < 256)
    (size : raster.length = 3 * (w * h)) :
    read ((printHeader w h m).map octet ++ raster) = some ⟨w, h, m, raster⟩ := by
  have text : ((printHeader w h m).map octet ++ raster).map char =
      printHeader w h m ++ raster.map char := by
    rw [List.map_append, List.map_map]
    congr 1
    refine (List.map_congr_left fun c member => ?_).trans (List.map_id _)
    exact char_octet (ascii_printHeader member)
  have rest : ((printHeader w h m).map octet ++ raster).length - (raster.map char).length =
      ((printHeader w h m).map octet).length := by
    rw [List.length_append, List.length_map (f := char)]
    omega
  rw [read, text, header_print, Option.bind_some]
  simp only
  rw [if_pos ⟨positive, small, by rw [List.length_map, size]⟩, rest, List.drop_left,
    List.take_of_length_le (Nat.le_of_eq size)]

/-- Three bytes a pixel, one pixel after the other -/
theorem pixel_flatMap {w h : Nat} (m : Nat) {rgb : Nat → List Octet}
    (three : ∀ i, (rgb i).length = 3) {row col : Nat} (above : row < h) (left : col < w) :
    (Pixmap.mk w h m ((List.range (w * h)).flatMap rgb)).pixel row col = rgb (row * w + col) := by
  have split (n i : Nat) (inside : i < n) :
      (((List.range n).flatMap rgb).drop (3 * i)).take 3 = rgb i := by
    obtain ⟨k, rfl⟩ := Nat.exists_eq_add_of_lt inside
    have front : ((List.range i).flatMap rgb).length = 3 * i := by
      simp [List.length_flatMap, three, Nat.mul_comm]
    have shape : (List.range (i + k + 1)).flatMap rgb = (List.range i).flatMap rgb ++
        (rgb i ++ ((List.range k).map (i + 1 + ·)).flatMap rgb) := by
      have order : i + k + 1 = i + 1 + k := by omega
      rw [order, List.range_add, List.range_succ]
      simp
    rw [shape, List.drop_left' front, List.take_left' (three i)]
  apply split
  calc row * w + col < row * w + w := Nat.add_lt_add_left left _
    _ = (row + 1) * w := (Nat.succ_mul row w).symm
    _ ≤ h * w := Nat.mul_le_mul_right w above
    _ = w * h := Nat.mul_comm h w

end Netpbm
