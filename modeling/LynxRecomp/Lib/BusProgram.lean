import Mathlib.Logic.Function.Basic

/-!
# Programs over an addressed bus

A program reads and writes cells of a bus and finally returns a value. It says
which cells are touched, in which order, and how the values read influence what
follows; it does not say what a cell holds. Running the same program over two
buses is therefore a matter of relating the buses, once, access by access.
-/

universe u v w

/-- A finite program whose only effects are reads and writes of bus cells. -/
inductive BusProgram (ι : Type u) (β : Type u) (α : Type v) : Type (max u v) where
  | ret : α → BusProgram ι β α
  | read : ι → (β → BusProgram ι β α) → BusProgram ι β α
  | write : ι → β → BusProgram ι β α → BusProgram ι β α

/-- What answers the accesses: reading a cell may change the state behind it. -/
structure Bus (ι : Type u) (β : Type u) (σ : Type w) where
  read : ι → σ → β × σ
  write : ι → β → σ → σ

/-- One access of a run, with the value carried. -/
inductive BusAccess (ι : Type u) (β : Type u) where
  | read : ι → BusAccess ι β
  | write : ι → β → BusAccess ι β

/-- One access as it shows on the bus, with the value read or written. -/
inductive BusEvent (ι : Type u) (β : Type u) where
  | read : ι → β → BusEvent ι β
  | write : ι → β → BusEvent ι β
  deriving DecidableEq, Repr

namespace BusAccess

def cell {ι β : Type u} : BusAccess ι β → ι
  | .read i => i
  | .write i _ => i

@[simp] theorem cell_read {ι β : Type u} (i : ι) : (read i : BusAccess ι β).cell = i := rfl

@[simp] theorem cell_write {ι β : Type u} (i : ι) (b : β) : (write i b).cell = i := rfl

end BusAccess

namespace BusProgram

variable {ι β : Type u} {α γ : Type v} {σ τ : Type w}

def bind : BusProgram ι β α → (α → BusProgram ι β γ) → BusProgram ι β γ
  | .ret a, f => f a
  | .read i k, f => .read i fun b => (k b).bind f
  | .write i b p, f => .write i b (p.bind f)

instance : Monad (BusProgram.{u, v} ι β) where
  pure := .ret
  bind := bind

@[simp] theorem pure_eq (a : α) : (pure a : BusProgram ι β α) = .ret a := rfl

@[simp] theorem ret_bind (a : α) (f : α → BusProgram ι β γ) : (ret a >>= f) = f a := rfl

@[simp] theorem read_bind (i : ι) (k : β → BusProgram ι β α) (f : α → BusProgram ι β γ) :
    (read i k >>= f) = read i fun b => k b >>= f := rfl

@[simp] theorem write_bind (i : ι) (b : β) (p : BusProgram ι β α) (f : α → BusProgram ι β γ) :
    (write i b p >>= f) = write i b (p >>= f) := rfl

theorem bind_ret (p : BusProgram ι β α) : p >>= ret = p := by
  induction p with
  | ret a => rfl
  | read i k ih => simp only [read_bind, ih]
  | write i b p ih => simp only [write_bind, ih]

theorem bind_assoc {δ : Type v} (p : BusProgram ι β α) (f : α → BusProgram ι β γ)
    (g : γ → BusProgram ι β δ) : p >>= f >>= g = p >>= fun a => f a >>= g := by
  induction p with
  | ret a => rfl
  | read i k ih => simp only [read_bind, ih]
  | write i b p ih => simp only [write_bind, ih]

instance : LawfulMonad (BusProgram.{u, v} ι β) :=
  LawfulMonad.mk' _ bind_ret (fun _ _ => rfl) bind_assoc

/-- The program that reads one cell and returns what it held. -/
def get (i : ι) : BusProgram.{u, u} ι β β := .read i .ret

/-- The program that writes one cell. -/
def put (i : ι) (b : β) : BusProgram.{u, v} ι β PUnit := .write i b (.ret ⟨⟩)

@[simp] theorem get_bind {α : Type u} (i : ι) (f : β → BusProgram ι β α) :
    (get i >>= f) = read i f := rfl

@[simp] theorem put_bind (i : ι) (b : β) (f : PUnit → BusProgram ι β α) :
    (put i b >>= f) = write i b (f ⟨⟩) := rfl

/-- Every result of the program satisfies `P`, whatever it reads. -/
def Always (P : α → Prop) : BusProgram ι β α → Prop
  | .ret a => P a
  | .read _ k => ∀ b, (k b).Always P
  | .write _ _ p => p.Always P

theorem Always.bind {P : α → Prop} {Q : γ → Prop} {p : BusProgram ι β α}
    {f : α → BusProgram ι β γ} (first : p.Always P) (next : ∀ a, P a → (f a).Always Q) :
    (p >>= f).Always Q := by
  induction p with
  | ret a => exact next a first
  | read i k ih => exact fun b => ih b (first b)
  | write i b p ih => exact ih first

theorem always_true (p : BusProgram ι β α) : p.Always fun _ => True := by
  induction p with
  | ret a => trivial
  | read i k ih => exact ih
  | write i b p ih => exact ih

theorem Always.mono {P Q : α → Prop} {p : BusProgram ι β α} (always : p.Always P)
    (weaker : ∀ a, P a → Q a) : p.Always Q := by
  induction p with
  | ret a => exact weaker a always
  | read i k ih => exact fun b => ih b (always b)
  | write i b p ih => exact ih always

/-- What follows a program need only agree on its possible results. -/
theorem Always.bind_congr {P : α → Prop} {p : BusProgram ι β α} {f g : α → BusProgram ι β γ}
    (always : p.Always P) (same : ∀ a, P a → f a = g a) : p >>= f = p >>= g := by
  induction p with
  | ret a => exact same a always
  | read i k ih =>
    rw [read_bind, read_bind]
    exact congrArg (read i) (funext fun b => ih b (always b))
  | write i b p ih =>
    rw [write_bind, write_bind, ih always]

/-- The program writes only cells of `W`, whatever it reads. -/
def Stores (W : ι → Prop) : BusProgram ι β α → Prop
  | .ret _ => True
  | .read _ k => ∀ b, (k b).Stores W
  | .write i _ p => W i ∧ p.Stores W

theorem Stores.mono {W V : ι → Prop} {p : BusProgram ι β α} (stores : p.Stores W)
    (wider : ∀ i, W i → V i) : p.Stores V := by
  induction p with
  | ret a => trivial
  | read i k ih => exact fun b => ih b (stores b)
  | write i b p ih => exact ⟨wider i stores.1, ih stores.2⟩

theorem Stores.bind {W : ι → Prop} {p : BusProgram ι β α} {f : α → BusProgram ι β γ}
    (first : p.Stores W) (next : ∀ a, (f a).Stores W) : (p >>= f).Stores W := by
  induction p with
  | ret a => exact next a
  | read i k ih => exact fun b => ih b (first b)
  | write i b p ih => exact ⟨first.1, ih first.2⟩

section Run

variable (bus : Bus ι β σ)

def run : BusProgram ι β α → σ → α × σ
  | .ret a, s => (a, s)
  | .read i k, s => (k (bus.read i s).1).run (bus.read i s).2
  | .write i b p, s => p.run (bus.write i b s)

@[simp] theorem run_ret (a : α) (s : σ) : (ret a : BusProgram ι β α).run bus s = (a, s) := rfl

@[simp] theorem run_read (i : ι) (k : β → BusProgram ι β α) (s : σ) :
    (read i k).run bus s = (k (bus.read i s).1).run bus (bus.read i s).2 := rfl

@[simp] theorem run_write (i : ι) (b : β) (p : BusProgram ι β α) (s : σ) :
    (write i b p).run bus s = p.run bus (bus.write i b s) := rfl

theorem run_bind (p : BusProgram ι β α) (f : α → BusProgram ι β γ) (s : σ) :
    (p >>= f).run bus s = (f (p.run bus s).1).run bus (p.run bus s).2 := by
  induction p generalizing s with
  | ret a => rfl
  | read i k ih => exact ih _ _
  | write i b p ih => exact ih _

/-- What shows on the bus during the run. -/
def trace : BusProgram ι β α → σ → List (BusEvent ι β)
  | .ret _, _ => []
  | .read i k, s => .read i (bus.read i s).1 :: (k (bus.read i s).1).trace (bus.read i s).2
  | .write i b p, s => .write i b :: p.trace (bus.write i b s)

theorem trace_bind (p : BusProgram ι β α) (f : α → BusProgram ι β γ) (s : σ) :
    (p >>= f).trace bus s = p.trace bus s ++ (f (p.run bus s).1).trace bus (p.run bus s).2 := by
  induction p generalizing s with
  | ret a => rfl
  | read i k ih => exact congrArg (List.cons _) (ih _ _)
  | write i b p ih => exact congrArg (List.cons _) (ih _)

/-- Every access of the run satisfies `Ok` in the state it happens in. -/
def Accesses (Ok : BusAccess ι β → σ → Prop) : BusProgram ι β α → σ → Prop
  | .ret _, _ => True
  | .read i k, s => Ok (.read i) s ∧ (k (bus.read i s).1).Accesses Ok (bus.read i s).2
  | .write i b p, s => Ok (.write i b) s ∧ p.Accesses Ok (bus.write i b s)

instance decidableAccesses (Ok : BusAccess ι β → σ → Prop) [∀ a s, Decidable (Ok a s)] :
    (p : BusProgram ι β α) → (s : σ) → Decidable (p.Accesses bus Ok s)
  | .ret _, _ => inferInstanceAs (Decidable True)
  | .read i k, s =>
    @instDecidableAnd _ _ _ (decidableAccesses Ok (k (bus.read i s).1) (bus.read i s).2)
  | .write i b p, s => @instDecidableAnd _ _ _ (decidableAccesses Ok p (bus.write i b s))

variable {bus} {Ok Ok' : BusAccess ι β → σ → Prop}

theorem Always.run {P : α → Prop} {p : BusProgram ι β α} (always : p.Always P) (s : σ) :
    P (p.run bus s).1 := by
  induction p generalizing s with
  | ret a => exact always
  | read i k ih => exact ih _ (always _) _
  | write i b p ih => exact ih always _

theorem accesses_bind {p : BusProgram ι β α} {f : α → BusProgram ι β γ} {s : σ} :
    (p >>= f).Accesses bus Ok s ↔
      p.Accesses bus Ok s ∧ (f (p.run bus s).1).Accesses bus Ok (p.run bus s).2 := by
  induction p generalizing s with
  | ret a => simp [Accesses]
  | read i k ih => simp only [read_bind, Accesses, run_read, ih, and_assoc]
  | write i b p ih => simp only [write_bind, Accesses, run_write, ih, and_assoc]

/-- The simulation rule: if related states answer every access that `Ok` permits
alike, a permitted run gives the same result over both buses and ends related. -/
theorem run_simulates {bus' : Bus ι β τ} {R : τ → σ → Prop} {p : BusProgram ι β α} {t : τ} {s : σ}
    (read : ∀ i t s, R t s → Ok (.read i) s →
      (bus'.read i t).1 = (bus.read i s).1 ∧ R (bus'.read i t).2 (bus.read i s).2)
    (write : ∀ i b t s, R t s → Ok (.write i b) s → R (bus'.write i b t) (bus.write i b s))
    (permitted : p.Accesses bus Ok s) (related : R t s) :
    (p.run bus' t).1 = (p.run bus s).1 ∧ R (p.run bus' t).2 (p.run bus s).2 := by
  induction p generalizing t s with
  | ret a => exact ⟨rfl, related⟩
  | read i k ih =>
    obtain ⟨same, next⟩ := read i t s related permitted.1
    rw [run_read, run_read, same]
    exact ih _ permitted.2 next
  | write i b p ih => exact ih permitted.2 (write i b t s related permitted.1)

/-- A map of states under which the accesses correspond carries runs over. -/
theorem run_map {bus' : Bus ι β τ} {f : σ → τ} (p : BusProgram ι β α) (s : σ)
    (read : ∀ i s, bus'.read i (f s) = ((bus.read i s).1, f (bus.read i s).2))
    (write : ∀ i b s, bus'.write i b (f s) = f (bus.write i b s)) :
    p.run bus' (f s) = ((p.run bus s).1, f (p.run bus s).2) := by
  induction p generalizing s with
  | ret a => rfl
  | read i k ih =>
    rw [run_read, read]
    exact ih _ _
  | write i b p ih =>
    rw [run_write, write]
    exact ih _

/-- What every access keeps, the run keeps. -/
theorem run_keeps {I : σ → Prop} {p : BusProgram ι β α} {s : σ}
    (read : ∀ i s, I s → I (bus.read i s).2) (write : ∀ i b s, I s → I (bus.write i b s))
    (holds : I s) : I (p.run bus s).2 := by
  induction p generalizing s with
  | ret a => exact holds
  | read i k ih => exact ih _ (read i s holds)
  | write i b p ih => exact ih (write i b s holds)

end Run

section Memory

variable [DecidableEq ι]

/-- Plain memory: a read changes nothing, a write changes one cell. -/
def memory : Bus ι β (ι → β) where
  read i m := (m i, m)
  write i b m := Function.update m i b

@[simp] theorem memory_read (i : ι) (m : ι → β) : memory.read i m = (m i, m) := rfl

@[simp] theorem memory_write (i : ι) (b : β) (m : ι → β) :
    memory.write i b m = Function.update m i b := rfl

/-- Only cells that the program may write change. -/
theorem Stores.frame {W : ι → Prop} {p : BusProgram ι β α} (stores : p.Stores W) (m : ι → β)
    {j : ι} (outside : ¬ W j) : (p.run memory m).2 j = m j := by
  induction p generalizing m with
  | ret a => rfl
  | read i k ih => exact ih _ (stores _) m
  | write i b p ih =>
    have ne : j ≠ i := fun same => outside (same ▸ stores.1)
    rw [run_write, ih stores.2, memory_write, Function.update_of_ne ne]

/-- What the program returns, and what it leaves in the cells of `A`, depends on these cells
alone. It may read others as long as nothing comes of it. -/
def DependsOn (A : ι → Prop) (p : BusProgram ι β α) : Prop :=
  ∀ m m' : ι → β, (∀ i, A i → m i = m' i) → (p.run memory m).1 = (p.run memory m').1 ∧
    ∀ i, A i → (p.run memory m).2 i = (p.run memory m').2 i

section DependsOn

variable {A : ι → Prop} {p : BusProgram ι β α} {f : α → BusProgram ι β γ}

theorem dependsOn_pure (a : α) : (pure a : BusProgram ι β α).DependsOn A :=
  fun _ _ agree => ⟨rfl, agree⟩

/-- To change a cell in place, it need not be known. -/
theorem dependsOn_modify {β : Type u} (i : ι) (g : β → β) :
    (get i >>= fun b => put i (g b) : BusProgram ι β PUnit).DependsOn A := by
  intro m m' agree
  refine ⟨rfl, fun j inside => ?_⟩
  change Function.update m i (g (m i)) j = Function.update m' i (g (m' i)) j
  by_cases same : j = i
  · subst same
    rw [Function.update_self, Function.update_self, agree j inside]
  · rw [Function.update_of_ne same, Function.update_of_ne same, agree j inside]

theorem DependsOn.bind_of {P : α → Prop} (first : p.DependsOn A)
    (result : ∀ m, P (p.run memory m).1) (next : ∀ a, P a → (f a).DependsOn A) :
    (p >>= f).DependsOn A := by
  intro m m' agree
  rcases first m m' agree with ⟨same, agree'⟩
  rw [run_bind, run_bind, same]
  exact next _ (result m') _ _ agree'

theorem DependsOn.bind (first : p.DependsOn A) (next : ∀ a, (f a).DependsOn A) :
    (p >>= f).DependsOn A :=
  first.bind_of (P := fun _ => True) (fun _ => trivial) fun a _ => next a

/-- A program that gives the same over every memory, and leaves it alone. -/
theorem dependsOn_of_run {a : α} (run : ∀ m, p.run memory m = (a, m)) : p.DependsOn A := by
  intro m m' agree
  rw [run, run]
  exact ⟨rfl, agree⟩

end DependsOn

end Memory

end BusProgram

namespace Bus

variable {ι β : Type u} {σ τ : Type w}

def access (bus : Bus ι β σ) : BusAccess ι β → σ → σ
  | .read i, s => (bus.read i s).2
  | .write i b, s => bus.write i b s

/-- The state after a list of accesses -/
def after (bus : Bus ι β σ) (traffic : List (BusAccess ι β)) (s : σ) : σ :=
  traffic.foldl (fun s a => bus.access a s) s

/-- What the reads of cell `i` among the accesses obtain, in order -/
def reads [DecidableEq ι] (bus : Bus ι β σ) (i : ι) : List (BusAccess ι β) → σ → List β
  | [], _ => []
  | .read j :: rest, s =>
    if j = i then (bus.read j s).1 :: bus.reads i rest (bus.read j s).2
    else bus.reads i rest (bus.read j s).2
  | .write j b :: rest, s => bus.reads i rest (bus.write j b s)

variable {bus : Bus ι β σ} {bus' : Bus ι β τ}

@[simp] theorem after_nil (s : σ) : bus.after [] s = s := rfl

@[simp] theorem after_cons (a : BusAccess ι β) (rest : List (BusAccess ι β)) (s : σ) :
    bus.after (a :: rest) s = bus.after rest (bus.access a s) := rfl

section Project

variable {part : σ → τ} (step : ∀ a s, part (bus.access a s) = bus'.access a (part s))

include step

/-- A part of the state that goes its own way -/
theorem after_project (traffic : List (BusAccess ι β)) (s : σ) :
    part (bus.after traffic s) = bus'.after traffic (part s) := by
  induction traffic generalizing s with
  | nil => rfl
  | cons a rest ih => rw [after_cons, after_cons, ih, step]

theorem reads_project [DecidableEq ι] {i : ι}
    (read : ∀ s, (bus.read i s).1 = (bus'.read i (part s)).1) (traffic : List (BusAccess ι β))
    (s : σ) : bus.reads i traffic s = bus'.reads i traffic (part s) := by
  induction traffic generalizing s with
  | nil => rfl
  | cons a rest ih =>
    have next := step a s
    cases a with
    | read j =>
      have next : part (bus.read j s).2 = (bus'.read j (part s)).2 := next
      rw [reads, reads, ih, next]
      by_cases here : j = i
      · subst here
        rw [if_pos rfl, if_pos rfl, read]
      · rw [if_neg here, if_neg here]
    | write j b =>
      have next : part (bus.write j b s) = bus'.write j b (part s) := next
      rw [reads, reads, ih, next]

end Project

section Filter

variable {matters : BusAccess ι β → Bool}
  (idle : ∀ a, matters a = false → ∀ s, bus.access a s = s)

include idle

/-- Accesses that change nothing may be left out. -/
theorem after_filter (traffic : List (BusAccess ι β)) (s : σ) :
    bus.after traffic s = bus.after (traffic.filter matters) s := by
  induction traffic generalizing s with
  | nil => rfl
  | cons a rest ih =>
    cases matter : matters a with
    | false => rw [List.filter_cons_of_neg (by simp [matter]), after_cons, idle a matter, ih]
    | true => rw [List.filter_cons_of_pos matter, after_cons, after_cons, ih]

theorem reads_filter [DecidableEq ι] {i : ι} (kept : matters (.read i) = true)
    (traffic : List (BusAccess ι β)) (s : σ) :
    bus.reads i traffic s = bus.reads i (traffic.filter matters) s := by
  induction traffic generalizing s with
  | nil => rfl
  | cons a rest ih =>
    cases matter : matters a with
    | false =>
      have same := idle a matter s
      rw [List.filter_cons_of_neg (by simp [matter]), ← ih]
      cases a with
      | read j =>
        have same : (bus.read j s).2 = s := same
        have other : j ≠ i := by
          rintro rfl
          exact Bool.false_ne_true (matter.symm.trans kept)
        rw [reads, if_neg other, same]
      | write j b =>
        have same : bus.write j b s = s := same
        rw [reads, same]
    | true =>
      rw [List.filter_cons_of_pos matter]
      cases a with
      | read j => rw [reads, reads, ih]
      | write j b => rw [reads, reads, ih]

end Filter

end Bus
