import Mathlib.Logic.Basic

/-!
# Machines driven by commands

A machine answers every command with an output and moves to a next state. What
is known of one step is lifted to whole runs here: invariants, properties that
hold as long as every command is permitted, and refinement of one machine by
another.
-/

universe u v w

/-- A deterministic machine: one step per command, with an output. -/
structure CommandMachine (σ : Type u) (κ : Type v) (ω : Type w) where
  step : κ → σ → ω × σ

namespace CommandMachine

variable {σ τ : Type u} {κ : Type v} {ω : Type w}

def run (machine : CommandMachine σ κ ω) : List κ → σ → List ω × σ
  | [], s => ([], s)
  | c :: cs, s =>
    let (o, s') := machine.step c s
    let (os, s'') := machine.run cs s'
    (o :: os, s'')

/-- `P` holds in the first state and in every state the commands lead through. -/
def Always (machine : CommandMachine σ κ ω) (P : σ → Prop) : List κ → σ → Prop
  | [], s => P s
  | c :: cs, s => P s ∧ machine.Always P cs (machine.step c s).2

/-- Every command is permitted in the state in which it is given. -/
def Permitted (machine : CommandMachine σ κ ω) (Ok : κ → σ → Prop) : List κ → σ → Prop
  | [], _ => True
  | c :: cs, s => Ok c s ∧ machine.Permitted Ok cs (machine.step c s).2

variable {machine : CommandMachine σ κ ω}

@[simp] theorem run_nil (s : σ) : machine.run [] s = ([], s) := rfl

@[simp] theorem run_cons (c : κ) (cs : List κ) (s : σ) :
    machine.run (c :: cs) s =
      ((machine.step c s).1 :: (machine.run cs (machine.step c s).2).1,
        (machine.run cs (machine.step c s).2).2) := rfl

theorem Always.head {P : σ → Prop} {cs : List κ} {s : σ} (h : machine.Always P cs s) : P s := by
  cases cs with
  | nil => exact h
  | cons c cs => exact h.1

theorem Always.last {P : σ → Prop} {cs : List κ} {s : σ} (h : machine.Always P cs s) :
    P (machine.run cs s).2 := by
  induction cs generalizing s with
  | nil => exact h
  | cons c cs ih => exact ih h.2

theorem Always.mono {P Q : σ → Prop} (weaker : ∀ s, P s → Q s) {cs : List κ} {s : σ}
    (h : machine.Always P cs s) : machine.Always Q cs s := by
  induction cs generalizing s with
  | nil => exact weaker s h
  | cons c cs ih => exact ⟨weaker s h.1, ih h.2⟩

theorem permitted_true (cs : List κ) (s : σ) : machine.Permitted (fun _ _ => True) cs s := by
  induction cs generalizing s with
  | nil => trivial
  | cons c cs ih => exact ⟨trivial, ih _⟩

theorem Permitted.and {Ok Ok' : κ → σ → Prop} {cs : List κ} {s : σ}
    (h : machine.Permitted Ok cs s) (h' : machine.Permitted Ok' cs s) :
    machine.Permitted (fun c s => Ok c s ∧ Ok' c s) cs s := by
  induction cs generalizing s with
  | nil => trivial
  | cons c cs ih => exact ⟨⟨h.1, h'.1⟩, ih h.2 h'.2⟩

/-- Where a property always holds, every command leads to a state that has it. -/
theorem Always.permitted {P : σ → Prop} {cs : List κ} {s : σ} (h : machine.Always P cs s) :
    machine.Permitted (fun c s => P (machine.step c s).2) cs s := by
  induction cs generalizing s with
  | nil => trivial
  | cons c cs ih => exact ⟨h.2.head, ih h.2⟩

/-- A property that no step brings about held before a run at whose end it holds. -/
theorem always_of_last {P : σ → Prop} (step : ∀ c s, P (machine.step c s).2 → P s)
    {cs : List κ} {s : σ} (h : P (machine.run cs s).2) : machine.Always P cs s := by
  induction cs generalizing s with
  | nil => exact h
  | cons c cs ih =>
    have rest := ih h
    exact ⟨step c s rest.head, rest⟩

/-- The run rule: a property that every permitted step preserves holds throughout a
run of permitted commands. -/
theorem always_of_permitted {P : σ → Prop} {Ok : κ → σ → Prop}
    (step : ∀ c s, Ok c s → P s → P (machine.step c s).2) {cs : List κ} {s : σ}
    (permitted : machine.Permitted Ok cs s) (holds : P s) : machine.Always P cs s := by
  induction cs generalizing s with
  | nil => exact holds
  | cons c cs ih => exact ⟨holds, ih permitted.2 (step c s permitted.1 holds)⟩

theorem always_of_step {P : σ → Prop} (step : ∀ c s, P s → P (machine.step c s).2)
    (cs : List κ) {s : σ} (holds : P s) : machine.Always P cs s :=
  always_of_permitted (fun c s _ => step c s) (permitted_true cs s) holds

/-- Where, under an invariant, one step keeps the property and is sound exactly if it is
permitted, the property holds throughout a run of sound steps exactly if every command of the
run is permitted. -/
theorem always_and_permitted_iff {I P : σ → Prop} {Sound Ok : κ → σ → Prop}
    (invariant : ∀ c s, I s → I (machine.step c s).2)
    (step : ∀ c s, I s → P s → (P (machine.step c s).2 ∧ Sound c s ↔ Ok c s)) {cs : List κ}
    {s : σ} (initially : I s) (holds : P s) :
    machine.Always P cs s ∧ machine.Permitted Sound cs s ↔ machine.Permitted Ok cs s := by
  induction cs generalizing s with
  | nil => exact ⟨fun _ => trivial, fun _ => ⟨holds, trivial⟩⟩
  | cons c cs ih =>
    have next := invariant c s initially
    constructor
    · rintro ⟨always, sound⟩
      have kept := always.2.head
      exact ⟨(step c s initially holds).mp ⟨kept, sound.1⟩, (ih next kept).mp ⟨always.2, sound.2⟩⟩
    · intro permitted
      rcases (step c s initially holds).mpr permitted.1 with ⟨kept, sound⟩
      rcases (ih next kept).mpr permitted.2 with ⟨always, rest⟩
      exact ⟨⟨holds, always⟩, sound, rest⟩

/-- Where, under an invariant, one step keeps the property exactly if it is permitted,
the property holds throughout a run exactly if every command of the run is permitted. -/
theorem always_iff_permitted {I P : σ → Prop} {Ok : κ → σ → Prop}
    (invariant : ∀ c s, I s → I (machine.step c s).2)
    (step : ∀ c s, I s → P s → (P (machine.step c s).2 ↔ Ok c s)) {cs : List κ} {s : σ}
    (initially : I s) (holds : P s) : machine.Always P cs s ↔ machine.Permitted Ok cs s := by
  have sound (c : κ) (s : σ) (inv : I s) (holds : P s) :
      P (machine.step c s).2 ∧ True ↔ Ok c s := by
    rw [and_true]
    exact step c s inv holds
  rw [← always_and_permitted_iff invariant sound initially holds]
  exact (and_iff_left (permitted_true cs s)).symm

/-- Refinement: if related states answer every command alike and stay related, whole
runs produce the same outputs and end in related states. -/
theorem run_refines {abstract : CommandMachine τ κ ω} {R : σ → τ → Prop}
    (step : ∀ c s t, R s t → (machine.step c s).1 = (abstract.step c t).1 ∧
      R (machine.step c s).2 (abstract.step c t).2)
    (cs : List κ) {s : σ} {t : τ} (related : R s t) :
    (machine.run cs s).1 = (abstract.run cs t).1 ∧
      R (machine.run cs s).2 (abstract.run cs t).2 := by
  induction cs generalizing s t with
  | nil => exact ⟨rfl, related⟩
  | cons c cs ih =>
    obtain ⟨same, next⟩ := step c s t related
    obtain ⟨rest, final⟩ := ih next
    exact ⟨by simp only [run_cons, same, rest], final⟩

section Recorded

variable {ε : Type u} (machine : CommandMachine σ κ ω) (events : κ → σ → List ε)

/-- The machine with a history beside its state that it never reads, the latest event first -/
def recorded : CommandMachine (σ × List ε) κ ω where
  step c s := ((machine.step c s.1).1, (machine.step c s.1).2, (events c s.1).reverse ++ s.2)

end Recorded

end CommandMachine
