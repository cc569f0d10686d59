import Mathlib.Data.List.Basic
import Mathlib.Data.List.OfFn

/-!
# Fixed-size object representations

A layout says how the values of a type are laid out in a fixed number of cells and
how they are read back through a pointer. A pointer is an index function: reading
`p` at `i` is `p[i]`, and `advance n p` is `p + n`.
-/

universe u v w

namespace Layout

variable {β : Type u}

/-- `p + n` -/
def advance (n : Nat) (p : Nat → β) : Nat → β := fun i => p (n + i)

@[simp] theorem advance_apply (n : Nat) (p : Nat → β) (i : Nat) : advance n p i = p (n + i) := rfl

@[simp] theorem advance_zero (p : Nat → β) : advance 0 p = p := by funext i; simp [advance]

/-- The cells `bs` lie at `p`. -/
def At (p : Nat → β) (bs : List β) : Prop := ∀ i < bs.length, bs[i]? = some (p i)

@[simp] theorem at_nil (p : Nat → β) : At p [] := fun i h => absurd h (Nat.not_lt_zero i)

theorem at_cons {p : Nat → β} {b : β} {bs : List β} :
    At p (b :: bs) ↔ p 0 = b ∧ At (advance 1 p) bs := by
  constructor
  · intro h
    refine ⟨by simpa using (h 0 (by simp)).symm, fun i hi => ?_⟩
    simpa [Nat.add_comm 1 i] using h (i + 1) (by simpa using hi)
  · rintro ⟨rfl, rest⟩ i hi
    cases i with
    | zero => simp
    | succ i => simpa [Nat.add_comm 1 i] using rest i (by simpa using hi)

theorem at_append {p : Nat → β} {xs ys : List β} :
    At p (xs ++ ys) ↔ At p xs ∧ At (advance xs.length p) ys := by
  induction xs generalizing p with
  | nil => simp
  | cons x xs ih =>
    have moved : advance xs.length (advance 1 p) = advance (x :: xs).length p := by
      funext i
      simp only [advance_apply, List.length_cons]
      exact congrArg p (by omega)
    rw [List.cons_append, at_cons, at_cons, ih, moved, and_assoc]

/-- A list read through a pointer: the list itself, and `d` past its end. -/
theorem at_getD (bs rest : List β) (d : β) : At (fun i => (bs ++ rest).getD i d) bs := by
  intro i hi
  simp [List.getD, List.getElem?_append_left hi, hi]

end Layout

/-- A layout of `α` in `size` cells. -/
structure Layout (β : Type u) (α : Type v) where
  size : Nat
  enc : α → List β
  dec : (Nat → β) → α
  length_enc : ∀ a, (enc a).length = size
  dec_enc : ∀ a p, Layout.At p (enc a) → dec p = a

namespace Layout

variable {β : Type u} {α : Type v} {γ : Type w}

attribute [simp] length_enc

/-- One cell. -/
def cell : Layout β β where
  size := 1
  enc b := [b]
  dec p := p 0
  length_enc _ := rfl
  dec_enc _ _ h := (at_cons.mp h).1

/-- One object after the other. -/
def pair (l : Layout β α) (r : Layout β γ) : Layout β (α × γ) where
  size := l.size + r.size
  enc a := l.enc a.1 ++ r.enc a.2
  dec p := (l.dec p, r.dec (advance l.size p))
  length_enc a := by simp
  dec_enc a p h := by
    have split := at_append.mp h
    rw [l.length_enc] at split
    rw [l.dec_enc _ _ split.1, r.dec_enc _ _ split.2]

/-- The same cells seen as another type. -/
def as (l : Layout β α) (f : α → γ) (g : γ → α) (inverse : ∀ c, f (g c) = c) : Layout β γ where
  size := l.size
  enc c := l.enc (g c)
  dec p := f (l.dec p)
  length_enc c := l.length_enc _
  dec_enc c p h := by rw [l.dec_enc _ _ h, inverse]

theorem at_flatten_ofFn (l : Layout β α) {n : Nat} {a : Fin n → α} {p : Nat → β}
    (h : At p (List.ofFn fun i => l.enc (a i)).flatten) (i : Fin n) :
    At (advance (i.val * l.size) p) (l.enc (a i)) := by
  induction n generalizing p with
  | zero => exact i.elim0
  | succ n ih =>
    rw [List.ofFn_succ, List.flatten_cons, at_append, l.length_enc] at h
    refine Fin.cases ?_ (fun j => ?_) i
    · simpa using h.1
    · have moved : advance (j.val * l.size) (advance l.size p) =
          advance (j.succ.val * l.size) p := by
        funext k
        simp only [advance_apply, Fin.val_succ, Nat.succ_mul]
        exact congrArg p (by omega)
      have rest := ih (a := fun j => a j.succ) h.2 j
      rwa [moved] at rest

/-- `n` objects in a row. -/
def array (n : Nat) (l : Layout β α) : Layout β (Fin n → α) where
  size := n * l.size
  enc a := (List.ofFn fun i => l.enc (a i)).flatten
  dec p i := l.dec (advance (i.val * l.size) p)
  length_enc a := by
    induction n with
    | zero => simp
    | succ n ih =>
      rw [List.ofFn_succ, List.flatten_cons, List.length_append, l.length_enc, ih, Nat.succ_mul,
        Nat.add_comm]
  dec_enc a p h := by
    funext i
    exact l.dec_enc _ _ (l.at_flatten_ofFn h i)

end Layout
