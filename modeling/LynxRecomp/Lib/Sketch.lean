import LynxRecomp.Lib.BusProgram

/-!
# Sketches

A program that draws into memory fetches cells, and what it fetches decides what follows;
between fetches it makes strokes, which change memory without telling the program anything.
While no stroke reaches a cell that is fetched, the strokes depend on the other cells alone.
-/

universe u v

/-- Fetches and strokes, with a result. -/
inductive Sketch (φ β κ : Type u) (α : Type v) : Type (max u v) where
  | ret : α → Sketch φ β κ α
  | fetch : φ → (β → Sketch φ β κ α) → Sketch φ β κ α
  | stroke : κ → Sketch φ β κ α → Sketch φ β κ α

namespace Sketch

open BusProgram

variable {φ β κ ι : Type u} {α γ : Type v}

def bind : Sketch φ β κ α → (α → Sketch φ β κ γ) → Sketch φ β κ γ
  | .ret a, f => f a
  | .fetch i k, f => .fetch i fun b => (k b).bind f
  | .stroke c q, f => .stroke c (q.bind f)

instance : Monad (Sketch.{u, v} φ β κ) where
  pure := .ret
  bind := bind

@[simp] theorem pure_eq (a : α) : (pure a : Sketch φ β κ α) = .ret a := rfl

@[simp] theorem ret_bind (a : α) (f : α → Sketch φ β κ γ) : (ret a >>= f) = f a := rfl

@[simp] theorem fetch_bind (i : φ) (k : β → Sketch φ β κ α) (f : α → Sketch φ β κ γ) :
    (fetch i k >>= f) = fetch i fun b => k b >>= f := rfl

@[simp] theorem stroke_bind (c : κ) (q : Sketch φ β κ α) (f : α → Sketch φ β κ γ) :
    (stroke c q >>= f) = stroke c (q >>= f) := rfl

theorem bind_ret (q : Sketch φ β κ α) : q >>= ret = q := by
  induction q with
  | ret a => rfl
  | fetch i k ih => simp only [fetch_bind, ih]
  | stroke c q ih => simp only [stroke_bind, ih]

theorem bind_assoc {δ : Type v} (q : Sketch φ β κ α) (f : α → Sketch φ β κ γ)
    (g : γ → Sketch φ β κ δ) : q >>= f >>= g = q >>= fun a => f a >>= g := by
  induction q with
  | ret a => rfl
  | fetch i k ih => simp only [fetch_bind, ih]
  | stroke c q ih => simp only [stroke_bind, ih]

instance : LawfulMonad (Sketch.{u, v} φ β κ) :=
  LawfulMonad.mk' _ bind_ret (fun _ _ => rfl) bind_assoc

/-- Fetch one cell and return what it held. -/
def get (i : φ) : Sketch.{u, u} φ β κ β := .fetch i .ret

/-- Make one stroke. -/
def draw (c : κ) : Sketch.{u, v} φ β κ PUnit := .stroke c (.ret ⟨⟩)

/-- The same sketch with other strokes. -/
def mapStrokes (g : κ → κ) : Sketch φ β κ α → Sketch φ β κ α
  | .ret a => .ret a
  | .fetch i k => .fetch i fun b => (k b).mapStrokes g
  | .stroke c q => .stroke (g c) (q.mapStrokes g)

theorem mapStrokes_bind (g : κ → κ) (q : Sketch φ β κ α) (f : α → Sketch φ β κ γ) :
    (q >>= f).mapStrokes g = q.mapStrokes g >>= fun a => (f a).mapStrokes g := by
  induction q with
  | ret a => rfl
  | fetch i k ih => simp only [fetch_bind, mapStrokes, ih]
  | stroke c q ih => simp only [stroke_bind, mapStrokes, ih]

/-- Every fetch of the sketch satisfies `F` and every stroke `P`, whatever is fetched. -/
def Only (F : φ → Prop) (P : κ → Prop) : Sketch φ β κ α → Prop
  | .ret _ => True
  | .fetch i k => F i ∧ ∀ b, (k b).Only F P
  | .stroke c q => P c ∧ q.Only F P

theorem Only.bind {F : φ → Prop} {P : κ → Prop} {q : Sketch φ β κ α}
    {f : α → Sketch φ β κ γ} (first : q.Only F P) (next : ∀ a, (f a).Only F P) :
    (q >>= f).Only F P := by
  induction q with
  | ret a => exact next a
  | fetch i k ih => exact ⟨first.1, fun b => ih b (first.2 b)⟩
  | stroke c q ih => exact ⟨first.1, ih first.2⟩

theorem mapStrokes_eq {F : φ → Prop} {P : κ → Prop} {g : κ → κ} (same : ∀ c, P c → g c = c)
    {q : Sketch φ β κ α} (only : q.Only F P) : q.mapStrokes g = q := by
  induction q with
  | ret a => rfl
  | fetch i k ih => exact congrArg (fetch i) (funext fun b => ih b (only.2 b))
  | stroke c q ih => rw [mapStrokes, same c only.1, ih only.2]

theorem mapStrokes_id (q : Sketch φ β κ α) : q.mapStrokes id = q := by
  induction q with
  | ret a => rfl
  | fetch i k ih => exact congrArg (fetch i) (funext ih)
  | stroke c q ih => exact congrArg (stroke c) ih

/-- Where the cells are, and what a stroke does to memory. -/
structure Canvas (φ β κ ι : Type u) where
  cell : φ → ι
  paint : κ → BusProgram.{u, v} ι β PUnit

section Program

variable (cv : Canvas.{u, v} φ β κ ι)

/-- The program over the bus -/
def program : Sketch φ β κ α → BusProgram ι β α
  | .ret a => .ret a
  | .fetch i k => .read (cv.cell i) fun b => (k b).program
  | .stroke c q => cv.paint c >>= fun _ => q.program

theorem program_bind (q : Sketch φ β κ α) (f : α → Sketch φ β κ γ) :
    (q >>= f).program cv =
      q.program cv >>= fun a => (f a).program cv := by
  induction q with
  | ret a => rfl
  | fetch i k ih => simp only [fetch_bind, program, ih, read_bind]
  | stroke c q ih => simp only [stroke_bind, program, ih, BusProgram.bind_assoc]

end Program

section Memory

variable [DecidableEq ι] (cv : Canvas.{u, v} φ β κ ι)

/-- What one stroke does to memory. -/
def painted (m : ι → β) (c : κ) : ι → β := ((cv.paint c).run memory m).2

/-- The cells that the run over `m` fetches, in order. -/
def fetches : Sketch φ β κ α → (ι → β) → List φ
  | .ret _, _ => []
  | .fetch i k, m => i :: (k (m (cv.cell i))).fetches m
  | .stroke c q, m => q.fetches (painted cv m c)

/-- The strokes that the run over `m` makes, in order. -/
def strokes : Sketch φ β κ α → (ι → β) → List κ
  | .ret _, _ => []
  | .fetch i k, m => (k (m (cv.cell i))).strokes m
  | .stroke c q, m => c :: q.strokes (painted cv m c)

/-- The result of the run over `m`. -/
def result (q : Sketch φ β κ α) (m : ι → β) : α := ((q.program cv).run memory m).1

/-- What the run over `m` leaves in memory. -/
def drawn (q : Sketch φ β κ α) (m : ι → β) : ι → β := ((q.program cv).run memory m).2

variable {cv}

@[simp] theorem result_ret (a : α) (m : ι → β) :
    (ret a : Sketch φ β κ α).result cv m = a := rfl

@[simp] theorem drawn_ret (a : α) (m : ι → β) :
    (ret a : Sketch φ β κ α).drawn cv m = m := rfl

@[simp] theorem result_fetch (i : φ) (k : β → Sketch φ β κ α) (m : ι → β) :
    (fetch i k).result cv m = (k (m (cv.cell i))).result cv m := rfl

@[simp] theorem drawn_fetch (i : φ) (k : β → Sketch φ β κ α) (m : ι → β) :
    (fetch i k).drawn cv m = (k (m (cv.cell i))).drawn cv m := rfl

@[simp] theorem result_stroke (c : κ) (q : Sketch φ β κ α) (m : ι → β) :
    (stroke c q).result cv m = q.result cv (painted cv m c) := by
  rw [result, program, run_bind]
  rfl

@[simp] theorem drawn_stroke (c : κ) (q : Sketch φ β κ α) (m : ι → β) :
    (stroke c q).drawn cv m = q.drawn cv (painted cv m c) := by
  rw [drawn, program, run_bind]
  rfl

theorem drawn_bind (q : Sketch φ β κ α) (f : α → Sketch φ β κ γ) (m : ι → β) :
    (q >>= f).drawn cv m =
      (f (q.result cv m)).drawn cv (q.drawn cv m) := by
  rw [drawn, program_bind, run_bind]
  rfl

theorem fetches_bind (q : Sketch φ β κ α) (f : α → Sketch φ β κ γ) (m : ι → β) :
    (q >>= f).fetches cv m = q.fetches cv m ++
      (f (q.result cv m)).fetches cv (q.drawn cv m) := by
  induction q generalizing m with
  | ret a => rfl
  | fetch i k ih => exact congrArg (List.cons i) (ih _ m)
  | stroke c q ih =>
    rw [stroke_bind, fetches, fetches, result_stroke, drawn_stroke]
    exact ih _

theorem strokes_bind (q : Sketch φ β κ α) (f : α → Sketch φ β κ γ) (m : ι → β) :
    (q >>= f).strokes cv m = q.strokes cv m ++
      (f (q.result cv m)).strokes cv (q.drawn cv m) := by
  induction q generalizing m with
  | ret a => rfl
  | fetch i k ih => exact ih _ m
  | stroke c q ih =>
    rw [stroke_bind, strokes, strokes, result_stroke, drawn_stroke]
    exact congrArg (List.cons c) (ih _)

theorem Only.fetches {F : φ → Prop} {P : κ → Prop} {q : Sketch φ β κ α} (only : q.Only F P)
    (m : ι → β) : ∀ i ∈ q.fetches cv m, F i := by
  induction q generalizing m with
  | ret a => exact fun i none => absurd none List.not_mem_nil
  | fetch i k ih =>
    rw [Sketch.fetches, List.forall_mem_cons]
    exact ⟨only.1, ih _ (only.2 _) m⟩
  | stroke c q ih => exact ih only.2 _

theorem Only.strokes {F : φ → Prop} {P : κ → Prop} {q : Sketch φ β κ α} (only : q.Only F P)
    (m : ι → β) : ∀ c ∈ q.strokes cv m, P c := by
  induction q generalizing m with
  | ret a => exact fun c none => absurd none List.not_mem_nil
  | fetch i k ih => exact ih _ (only.2 _) m
  | stroke c q ih =>
    rw [Sketch.strokes, List.forall_mem_cons]
    exact ⟨only.1, ih only.2 _⟩

/-- Memory changes by the strokes. -/
theorem drawn_eq_foldl (q : Sketch φ β κ α) (m : ι → β) :
    q.drawn cv m = (q.strokes cv m).foldl (painted cv) m := by
  induction q generalizing m with
  | ret a => rfl
  | fetch i k ih => exact ih _ m
  | stroke c q ih =>
    rw [drawn_stroke, strokes, List.foldl_cons]
    exact ih _

variable (cv)

/-- Without strokes nothing changes. -/
theorem drawn_eq {F : φ → Prop} {q : Sketch φ β κ α} (only : q.Only F fun _ => False)
    (m : ι → β) :
    q.strokes cv m = [] ∧ q.drawn cv m = m := by
  have none : q.strokes cv m = [] := List.eq_nil_iff_forall_not_mem.mpr (only.strokes m)
  rw [drawn_eq_foldl, none]
  exact ⟨rfl, rfl⟩

/-- The rule for two runs. Memories stay related if strokes keep them related; if related
memories agree on what is fetched, the second run makes the strokes of the first. -/
theorem run_related {R : (ι → β) → (ι → β) → Prop} {S : φ → Prop} {g : κ → κ}
    (fetch : ∀ i m m', S i → R m m' → m' (cv.cell i) = m (cv.cell i))
    (stroke : ∀ c m m', R m m' → R (painted cv m c) (painted cv m' (g c)))
    {q : Sketch φ β κ α} {m m' : ι → β} (shared : ∀ i ∈ q.fetches cv m, S i)
    (related : R m m') :
    (q.mapStrokes g).result cv m' = q.result cv m ∧
    (q.mapStrokes g).strokes cv m' = (q.strokes cv m).map g ∧
    R (q.drawn cv m) ((q.mapStrokes g).drawn cv m') := by
  induction q generalizing m m' with
  | ret a => exact ⟨rfl, rfl, related⟩
  | fetch i k ih =>
    have same := fetch i m m' (shared i List.mem_cons_self) related
    simp only [mapStrokes, result_fetch, drawn_fetch, strokes, same]
    exact ih _ (fun j later => shared j (List.mem_cons_of_mem _ later)) related
  | stroke c q ih =>
    rcases ih shared (stroke c m m' related) with ⟨result, strokes, after⟩
    rw [mapStrokes, result_stroke, result_stroke, drawn_stroke, drawn_stroke]
    exact ⟨result, congrArg (List.cons (g c)) strokes, after⟩

end Memory

end Sketch
