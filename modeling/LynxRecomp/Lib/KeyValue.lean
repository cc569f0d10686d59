import LynxRecomp.Lib.Numeral
import Mathlib.Data.List.FinRange
import Mathlib.Logic.Function.Basic

/-!
# Lines of keys and values

Reading text line by line into a buffer, and taking `key=number` off a line.
-/

namespace KeyValue

/-- `fgets` with room for `n` characters: up to the end of the line, if there is room, and the
rest of the text -/
def fgets : Nat → List Char → List Char × List Char
  | 0, cs => ([], cs)
  | _ + 1, [] => ([], [])
  | n + 1, c :: cs =>
    if c = '\n' then ([c], cs)
    else
      let r := fgets n cs
      (c :: r.1, r.2)

/-- The lines of a text, with room for `n` characters in each, as far as the fuel goes -/
def linesFrom (n : Nat) : Nat → List Char → List (List Char)
  | 0, _ => []
  | fuel + 1, cs => if cs = [] then [] else (fgets n cs).1 :: linesFrom n fuel (fgets n cs).2

/-- All lines: each call of `fgets` takes one character at least. -/
def lines (n : Nat) (cs : List Char) : List (List Char) := linesFrom n cs.length cs

/-- `sscanf` with `%w[^=]=%d`, if both are there -/
def scan (w : Nat) (line : List Char) : Option (List Char × Int) :=
  let key := (line.takeWhile (· != '=')).take w
  if key = [] then none
  else
    match line.drop key.length with
    | '=' :: rest => (Decimal.scan rest).map fun i => (key, i)
    | _ => none

/-- `%s=%d` -/
def line (entry : List Char × Int) : List Char := entry.1 ++ '=' :: Decimal.print entry.2

def print (entry : List Char × Int) : List Char := line entry ++ ['\n']

section Lines

theorem fgets_line {n : Nat} {line rest : List Char} (room : line.length < n)
    (whole : '\n' ∉ line) : fgets n (line ++ '\n' :: rest) = (line ++ ['\n'], rest) := by
  induction line generalizing n with
  | nil =>
    obtain ⟨m, rfl⟩ := Nat.exists_eq_succ_of_ne_zero (Nat.ne_of_gt room)
    rfl
  | cons c line ih =>
    obtain ⟨m, rfl⟩ := Nat.exists_eq_succ_of_ne_zero (Nat.ne_of_gt (Nat.zero_lt_of_lt room))
    have other : c ≠ '\n' := fun same => whole (same ▸ List.mem_cons_self)
    have later := ih (Nat.lt_of_succ_lt_succ room) fun inside =>
      whole (List.mem_cons_of_mem c inside)
    rw [List.cons_append, fgets, if_neg other, later]
    rfl

/-- Lines that fit are read as they are. -/
theorem linesFrom_lines {n fuel : Nat} {ls : List (List Char)}
    (fit : ∀ line ∈ ls, line.length < n ∧ '\n' ∉ line)
    (enough : (ls.flatMap (· ++ ['\n'])).length ≤ fuel) :
    linesFrom n fuel (ls.flatMap (· ++ ['\n'])) = ls.map (· ++ ['\n']) := by
  induction ls generalizing fuel with
  | nil => cases fuel <;> rfl
  | cons line ls ih =>
    have text : (line :: ls).flatMap (· ++ ['\n']) =
        line ++ '\n' :: ls.flatMap (· ++ ['\n']) := by simp
    rcases fit line List.mem_cons_self with ⟨room, whole⟩
    rw [text] at enough ⊢
    rw [List.length_append, List.length_cons] at enough
    obtain ⟨fuel, rfl⟩ := Nat.exists_eq_succ_of_ne_zero (n := fuel) (by omega)
    rw [linesFrom, if_neg (by simp), fgets_line room whole,
      ih (fun line later => fit line (List.mem_cons_of_mem _ later)) (by omega)]
    rfl

theorem lines_lines {n : Nat} {ls : List (List Char)}
    (fit : ∀ line ∈ ls, line.length < n ∧ '\n' ∉ line) :
    lines n (ls.flatMap (· ++ ['\n'])) = ls.map (· ++ ['\n']) :=
  linesFrom_lines fit (Nat.le_refl _)

end Lines

section Entries

/-- A key that can stand in front of `=` on a line, in a buffer of `w` characters -/
structure Key (w : Nat) (key : List Char) : Prop where
  some_ : key ≠ []
  fits : key.length ≤ w
  plain : '=' ∉ key ∧ '\n' ∉ key

instance decidableKey (w : Nat) (key : List Char) : Decidable (Key w key) :=
  decidable_of_iff (key ≠ [] ∧ key.length ≤ w ∧ '=' ∉ key ∧ '\n' ∉ key)
    ⟨fun h => ⟨h.1, h.2.1, h.2.2⟩, fun h => ⟨h.some_, h.fits, h.plain⟩⟩

variable {w n k : Nat} {key : List Char}

/-- An entry that was printed is scanned. -/
theorem scan_print (good : Key w key) (i : Int) : scan w (print (key, i)) = some (key, i) := by
  have other : ∀ c ∈ key, (c != '=') = true := fun c inside =>
    bne_iff_ne.mpr fun same => good.plain.1 (same ▸ inside)
  have text : print (key, i) = key ++ '=' :: (Decimal.print i ++ ['\n']) := by
    rw [print, line, List.append_assoc, List.cons_append]
  have front : ((print (key, i)).takeWhile (· != '=')).take w = key := by
    rw [text, List.takeWhile_append_of_pos other, List.takeWhile_cons_of_neg (by decide),
      List.append_nil, List.take_of_length_le good.fits]
  have ends : ∀ c ∈ ['\n'].head?, Decimal.isDigit c = false := by
    intro c newline
    rw [← Option.some.inj newline]
    decide
  have number := Decimal.scan_print ends i
  rw [scan, front, if_neg good.some_, text, List.drop_left' rfl]
  simp only [number, Option.map_some]

theorem head?_print (good : Key w key) (i : Int) : (print (key, i)).head? = key.head? := by
  rcases List.exists_cons_of_ne_nil good.some_ with ⟨c, cs, rfl⟩
  rfl

theorem line_fits (good : Key w key) (wide : 1 ≤ k) (room : w + k + 2 < n) {i : Int}
    (small : i.natAbs < 10 ^ k) : (line (key, i)).length < n ∧ '\n' ∉ line (key, i) := by
  constructor
  · have digits := Decimal.length_print wide small
    have fits := good.fits
    have parts : (line (key, i)).length = key.length + ((Decimal.print i).length + 1) := by
      rw [line, List.length_append, List.length_cons]
    omega
  · intro inside
    rcases List.mem_append.mp inside with inside | inside
    · exact good.plain.2 inside
    · rcases List.mem_cons.mp inside with same | inside
      · revert same
        decide
      · exact absurd (Decimal.mem_print inside) (by decide)

/-- A heading and entries are read line by line. -/
theorem lines_print (heading : List Char) {entries : List (List Char × Int)}
    (first : heading.length < n ∧ '\n' ∉ heading) (wide : 1 ≤ k) (room : w + k + 2 < n)
    (good : ∀ entry ∈ entries, Key w entry.1 ∧ entry.2.natAbs < 10 ^ k) :
    lines n (heading ++ '\n' :: entries.flatMap print) =
      (heading ++ ['\n']) :: entries.map print := by
  have text : heading ++ '\n' :: entries.flatMap print =
      (heading :: entries.map line).flatMap (· ++ ['\n']) := by
    rw [List.flatMap_cons, List.flatMap_map, List.append_assoc]
    rfl
  rw [text, lines_lines, List.map_cons, List.map_map]
  · rfl
  · intro l member
    rcases List.mem_cons.mp member with rfl | member
    · exact first
    · rcases List.mem_map.mp member with ⟨entry, inside, rfl⟩
      exact line_fits (good entry inside).1 wide room (good entry inside).2

end Entries

section Assign

variable {ι β : Type} [DecidableEq ι]

/-- Assigning the values of `v` one after the other -/
theorem foldl_update (v : ι → β) (l : List ι) (f : ι → β) :
    l.foldl (fun f i => Function.update f i (v i)) f = fun i => if i ∈ l then v i else f i := by
  induction l generalizing f with
  | nil => rfl
  | cons j l ih =>
    rw [List.foldl_cons, ih]
    funext i
    by_cases later : i ∈ l
    · simp [later]
    · by_cases same : i = j
      · subst same
        simp [later]
      · simp [later, same]

theorem foldl_update_all {n : Nat} (v f : Fin n → β) :
    (List.finRange n).foldl (fun f i => Function.update f i (v i)) f = v := by
  rw [foldl_update]
  simp

end Assign

end KeyValue
