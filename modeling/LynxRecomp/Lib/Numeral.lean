import Mathlib.Data.Nat.Digits.Lemmas
import Mathlib.Tactic.IntervalCases

/-!
# Numbers as text

What `printf` prints of a number, and reading it back: digits in a base of at most 16, with
`%0wX` and `%d` as the cases that programs use.
-/

namespace Numeral

def alphabet : List Char := "0123456789ABCDEF".toList

def digit (d : Nat) : Char := alphabet.getD d '0'

def value (c : Char) : Nat := alphabet.idxOf c

/-- The digits of a number, with zeros in front up to a width -/
def print (b w n : Nat) : List Char := ((Nat.digits b n).map digit).reverse.leftpad w '0'

def read (b : Nat) (cs : List Char) : Nat := Nat.ofDigits b (cs.reverse.map value)

theorem value_digit {d : Nat} (small : d < 16) : value (digit d) = d := by
  revert d
  decide

variable {b : Nat} (base : 1 < b)

include base

/-- A number is read back, with however many zeros in front of it. -/
theorem read_print (few : b ≤ 16) (w n : Nat) : read b (print b w n) = n := by
  have digits : ((Nat.digits b n).map digit).map value = Nat.digits b n := by
    rw [List.map_map]
    refine (List.map_congr_left fun d member => ?_).trans (List.map_id _)
    exact value_digit (Nat.lt_of_lt_of_le (Nat.digits_lt_base base member) few)
  have zero : value '0' = 0 := by decide
  unfold read print List.leftpad
  rw [List.reverse_append, List.reverse_reverse, List.map_append, digits, List.reverse_replicate,
    List.map_replicate, zero, Nat.ofDigits_append_replicate_zero, Nat.ofDigits_digits]

theorem length_print {w n k : Nat} (fits : n < b ^ k) :
    (print b w n).length ≤ max w k := by
  have digits : (Nat.digits b n).length ≤ k := (Nat.digits_length_le_iff base n).mpr fits
  unfold print
  rw [List.length_leftpad, List.length_reverse, List.length_map]
  exact max_le_max_left w digits

theorem length_print_eq {w n : Nat} (fits : n < b ^ w) : (print b w n).length = w := by
  apply Nat.le_antisymm
  · exact (length_print base fits).trans (Nat.le_of_eq (max_self w))
  · unfold print
    rw [List.length_leftpad]
    exact Nat.le_max_left ..

/-- Every character is the digit of a number below the base. -/
theorem mem_print {w n : Nat} {c : Char} (member : c ∈ print b w n) : ∃ d < b, c = digit d := by
  have zero : '0' = digit 0 := by decide
  unfold print List.leftpad at member
  rcases List.mem_append.mp member with pad | digits
  · exact ⟨0, Nat.lt_trans Nat.zero_lt_one base, (List.eq_of_mem_replicate pad).trans zero⟩
  · rcases List.mem_map.mp (List.mem_reverse.mp digits) with ⟨d, inside, rfl⟩
    exact ⟨d, Nat.digits_lt_base base inside, rfl⟩

end Numeral

namespace Hex

/-- `%0wX` -/
def print (w n : Nat) : List Char := Numeral.print 16 w n

def read (cs : List Char) : Nat := Numeral.read 16 cs

@[simp] theorem read_print (w n : Nat) : read (print w n) = n :=
  Numeral.read_print (by decide) (by decide) w n

theorem length_print_le {w n k : Nat} (narrow : w ≤ k) (fits : n < 16 ^ k) :
    (print w n).length ≤ k :=
  (Numeral.length_print (by decide) fits).trans (max_le narrow (Nat.le_refl k))

theorem length_print {w n : Nat} (fits : n < 16 ^ w) : (print w n).length = w :=
  Numeral.length_print_eq (by decide) fits

end Hex

namespace Decimal

/-- `%d` -/
def print (i : Int) : List Char :=
  if i < 0 then '-' :: Numeral.print 10 1 i.natAbs else Numeral.print 10 1 i.natAbs

def isDigit (c : Char) : Bool := decide ('0' ≤ c ∧ c ≤ '9')

/-- `isspace` -/
def isSpace (c : Char) : Bool := c == ' ' || (decide ('\t' ≤ c) && decide (c ≤ '\r'))

/-- The digits at the front, if there are any -/
def scanDigits (cs : List Char) : Option Nat :=
  let digits := cs.takeWhile isDigit
  if digits = [] then none else some (Numeral.read 10 digits)

/-- `%d` of `sscanf`: blanks, a sign, and digits, whatever follows them. A number that an `int`
does not hold would be undefined there. -/
def scan (cs : List Char) : Option Int :=
  match cs.dropWhile isSpace with
  | '-' :: rest => (scanDigits rest).map fun n => -(n : Int)
  | '+' :: rest => (scanDigits rest).map fun n => (n : Int)
  | rest => (scanDigits rest).map fun n => (n : Int)

theorem isDigit_digit {d : Nat} (small : d < 10) : isDigit (Numeral.digit d) = true := by
  revert d
  decide

theorem print_ne_nil (n : Nat) : Numeral.print 10 1 n ≠ [] := by
  apply List.ne_nil_of_length_pos
  unfold Numeral.print
  rw [List.length_leftpad]
  exact Nat.lt_of_lt_of_le Nat.one_pos (Nat.le_max_left ..)

theorem takeWhile_none {p : Char → Bool} {cs : List Char} (ends : ∀ c ∈ cs.head?, p c = false) :
    cs.takeWhile p = [] := by
  cases cs with
  | nil => rfl
  | cons c cs => exact List.takeWhile_cons_of_neg (by rw [ends c rfl]; decide)

theorem length_print {i : Int} {k : Nat} (wide : 1 ≤ k) (fits : i.natAbs < 10 ^ k) :
    (print i).length ≤ k + 1 := by
  have digits : (Numeral.print 10 1 i.natAbs).length ≤ k :=
    (Numeral.length_print (by decide) fits).trans (max_le wide (Nat.le_refl k))
  unfold print
  split
  · exact Nat.succ_le_succ digits
  · exact Nat.le_succ_of_le digits

/-- There are only digits and a sign. -/
theorem mem_print {i : Int} {c : Char} (member : c ∈ print i) : c = '-' ∨ isDigit c = true := by
  have digits (inside : c ∈ Numeral.print 10 1 i.natAbs) : isDigit c = true := by
    rcases Numeral.mem_print (by decide) inside with ⟨d, small, rfl⟩
    exact isDigit_digit small
  unfold print at member
  split at member
  · exact (List.mem_cons.mp member).imp id digits
  · exact .inr (digits member)

variable {rest : List Char} (ends : ∀ c ∈ rest.head?, isDigit c = false)

include ends

theorem scanDigits_print (n : Nat) : scanDigits (Numeral.print 10 1 n ++ rest) = some n := by
  have all : ∀ c ∈ Numeral.print 10 1 n, isDigit c = true := by
    intro c member
    rcases Numeral.mem_print (by decide) member with ⟨d, small, rfl⟩
    exact isDigit_digit small
  have digits : (Numeral.print 10 1 n ++ rest).takeWhile isDigit = Numeral.print 10 1 n := by
    rw [List.takeWhile_append_of_pos all, takeWhile_none ends, List.append_nil]
  rw [scanDigits, digits, if_neg (print_ne_nil n), Numeral.read_print (by decide) (by decide)]

/-- What `%d` prints, `%d` reads, if no digit follows. -/
theorem scan_print (i : Int) : scan (print i ++ rest) = some i := by
  unfold print
  split
  · rename_i negative
    have number := scanDigits_print ends i.natAbs
    have sign : scan ('-' :: (Numeral.print 10 1 i.natAbs ++ rest)) =
        (scanDigits (Numeral.print 10 1 i.natAbs ++ rest)).map fun n => -(n : Int) := rfl
    have whole : -(i.natAbs : Int) = i := by omega
    rw [List.cons_append, sign, number]
    exact congrArg some whole
  · rename_i positive
    have number := scanDigits_print ends i.natAbs
    rcases List.exists_cons_of_ne_nil (print_ne_nil i.natAbs) with ⟨c, cs, shape⟩
    rcases Numeral.mem_print (b := 10) (by decide) (shape ▸ List.mem_cons_self)
      with ⟨d, small, first⟩
    have plain : scan (Numeral.digit d :: (cs ++ rest)) =
        (scanDigits (Numeral.digit d :: (cs ++ rest))).map fun n => (n : Int) := by
      interval_cases d <;> rfl
    rw [shape, List.cons_append] at number ⊢
    rw [first] at number ⊢
    have whole : (i.natAbs : Int) = i := by omega
    rw [plain, number]
    exact congrArg some whole

end Decimal
