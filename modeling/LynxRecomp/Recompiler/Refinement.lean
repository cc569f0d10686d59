import Mathlib.Logic.Relation
import LynxRecomp.Recompiler.Lockstep
import LynxRecomp.Recompiler.Ticks
import LynxRecomp.Runtime.StackPage

/-!
# Recompiled code against the interpreter

What it means that the function emitted for a routine does what the interpreter does from
the start of the routine to the `RTS` that matches its entry. A `JSR` pushes a return
address in the interpreter and is a C call in the emitted code, so the two stacks differ.
-/

namespace LynxRecomp

open Relation

variable {η : Type}

/-- The interpreter at an instruction, with S at the entry of every routine that has not
returned, innermost first. -/
structure InterpState (η : Type) where
  cpu : InterpCpu
  hw : Hw η
  entries : List Byte

/-- A `JSR` enters a routine, with the S that it leaves; an `RTS` leaves the innermost one if
S is what it was at its entry. -/
def entriesAfter (m : Mnemonic) (s s' : Byte) (entries : List Byte) : List Byte :=
  match m with
  | .jsr => s' :: entries
  | .rts => if entries.head? = some s then entries.tail else entries
  | _ => entries

namespace InterpState

variable (hooks : Hooks η) (s : InterpState η)

def fetched : Insn × Hw η := (interpFetch s.cpu.pc).run (memBus hooks) s.hw

/-- The instruction at the PC. -/
def insn : Insn := (s.fetched hooks).1

/-- One `interp_step`. -/
def next : InterpState η :=
  let r := (interpStep s.cpu).run (memBus hooks) s.hw
  { cpu := r.1.1
    hw := r.2
    entries := entriesAfter (s.insn hooks).mnemonic s.cpu.s r.1.1.s s.entries }

/-- At an `RTS` with S as at the entry of the only routine left. -/
def AtReturn : Prop := (s.insn hooks).mnemonic = .rts ∧ s.entries = [s.cpu.s]

/-- The instruction does not wrap S, pulls bytes that its routine has pushed (or, with an
`RTS`, the return address), and accesses memory by address cleanly. -/
structure Proper (code : Addr → Prop) : Prop where
  push : (s.insn hooks).mnemonic.pushes = true → 0 < s.cpu.s
  call : (s.insn hooks).mnemonic = .jsr → 1 < s.cpu.s
  pull : (s.insn hooks).mnemonic.pulls = true → ∃ e ∈ s.entries.head?, s.cpu.s < e
  ret : (s.insn hooks).mnemonic = .rts →
    ∃ e ∈ s.entries.head?, s.cpu.s = e ∨ s.cpu.s.toNat + 2 ≤ e.toNat
  access : (s.insn hooks).mnemonic.usesStack = false →
    (interpExec (s.insn hooks) s.cpu).Accesses (memBus hooks) (Clean code) (s.fetched hooks).2

/-- At an `RTS`, the routine has pulled all that it had pushed. -/
def Balanced : Prop := (s.insn hooks).mnemonic = .rts → s.entries.head? = some s.cpu.s

/-- The interpreter goes on from `s`, which is `ok`. -/
def Step (ok : InterpState η → Prop) (s s' : InterpState η) : Prop :=
  ¬ s.AtReturn hooks ∧ ok s ∧ s' = s.next hooks

end InterpState

section Routines

variable (img : Image) (seeds : List Addr)

/-- The image lies within `$0200-$FBFF`. -/
structure Image.InRam : Prop where
  low : 0x0200 ≤ img.base
  high : img.base.toNat + img.rom.length ≤ 0xFC00

/-- The routine at `fs` calls the one at `gs`, or branches or jumps to it. -/
def HandsTo (fs gs : Addr) : Prop :=
  ∃ i ∈ body img fs, i.target = gs ∧
    (i.cflow = .call ∨ i.jumps = true ∧ gs ∉ boundaries img fs)

def Reached (fs gs : Addr) : Prop := ReflTransGen (HandsTo img) fs gs

/-- A byte decoded as part of an instruction of a routine reached from `fs`. -/
def CodeCell (fs a : Addr) : Prop :=
  ∃ gs, Reached img fs gs ∧ ∃ i ∈ body img gs, i.pc ≤ a ∧ a < i.next

/-- The routine at `fs` is one that the recompiler translates completely. -/
structure Translatable (fs : Addr) : Prop where
  ends : ∃ v ∈ (sweep img fs).getLast?, v.insn.terminator = true
  labels : (recordedTargets img fs).toFinset.card ≤ maxLabels
  jumps : ∀ i ∈ body img fs, i.jumps = true →
    i.target ∈ boundaries img fs ∨ isFunc (analyzeDiscover img seeds) i.target = true
  calls : ∀ i ∈ body img fs, i.cflow = .call →
    isFunc (analyzeDiscover img seeds) i.target = true
  direct : ∀ i ∈ body img fs,
    i.mnemonic ∉ [.brk, .wai, .stp, .rti, .tsx, .txs] ∧ i.mode ≠ .ind ∧ i.mode ≠ .iax

/-- Every routine reached from the table function `f` is translated completely. -/
structure Translated (f : Addr) : Prop where
  inRam : img.InRam
  known : isFunc (analyzeDiscover img seeds) f = true
  routines : ∀ g, Reached img f g → Translatable img seeds g

/-- Memory holds the image. -/
def HoldsImage (ram : Addr → Byte) : Prop :=
  ∀ a, inImage img a = true → ram a = img.byte (img.off a)

end Routines

/-- Memory once the return address `ret` has been pushed from `s` on. -/
def pushedReturn (ret : Addr) (s : Byte) (ram : Addr → Byte) : Addr → Byte :=
  Function.update (Function.update ram (stackAddr s) ((ret >>> 8).setWidth 8)) (stackAddr (s - 1))
    (ret.setWidth 8)

/-- The interpreter called at `f` by a machine that returns to `ret + 1`. -/
def interpCalled (f ret : Addr) (m : Machine η) : InterpState η where
  cpu := m.cpu.interp (m.cpu.s - 2) f
  hw := m.hw.withRam (pushedReturn ret m.cpu.s m.hw.ram)
  entries := [m.cpu.s - 2]

/-- The emitted code ends as the interpreter: the same registers, flags, S and machine,
except for the bytes of the stack page that were free at the start. -/
structure SameEnd (m : Machine η) (ret : Addr) (s : InterpState η) (m' : Machine η) : Prop where
  cpu : s.cpu = m'.cpu.interp m.cpu.s (ret + 1)
  sp : m'.cpu.s = m.cpu.s
  rest : m'.hw = s.hw.withRam m'.hw.ram
  ram : ∀ a, ¬ (0x0100 ≤ a ∧ a ≤ stackAddr m.cpu.s) → m'.hw.ram a = s.hw.ram a

/-- Whenever the interpreter gets from `f` to the matching `RTS` through instructions that
are `ok`, the function emitted for `f` returns and ends alike. `lynx_tick` does nothing. -/
def Simulates (hooks : Hooks η) (calls : Transfers η) (img : Image) (seeds : List Addr) (f : Addr)
    (ok : InterpState η → Prop) : Prop :=
  ∀ (m : Machine η) (ret : Addr) (s : InterpState η), m.cpu.FlagsOk → 2 ≤ m.cpu.s →
    HoldsImage img m.hw.ram →
    ReflTransGen (InterpState.Step hooks ok) (interpCalled f ret m) s → s.AtReturn hooks →
    ∃ m', Returns hooks { calls with tick := id } (emittedFile img seeds) f m m' ∧
      SameEnd m ret (s.next hooks) m'

end LynxRecomp
