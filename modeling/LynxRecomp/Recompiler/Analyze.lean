import Mathlib.Data.List.Sort
import Mathlib.Logic.Function.Basic
import LynxRecomp.Recompiler.Decode

/-!
# Function discovery

`analyze.c`. Discovery takes entry points off a worklist and sweeps each routine
linearly, recording what its calls, branches and jumps lead to. Bytes past the end
of the image read as 0.
-/

namespace LynxRecomp

def maxFuncs : Nat := 1024
def maxLabels : Nat := 256

/-- The code image: `rom` mapped at `base`. -/
structure Image where
  base : Addr
  rom : List Byte
  deriving DecidableEq, Repr

def inImage (img : Image) (a : Addr) : Bool :=
  decide (img.base ≤ a) && decide ((a - img.base).toNat < img.rom.length)

/-- `a - base`, as an index into the image. -/
def Image.off (img : Image) (a : Addr) : Nat := (a - img.base).toNat

theorem Image.off_succ {img : Image} {a : Addr} (inside : inImage img a = true)
    (below : a ≠ 0xFFFF) : img.off (a + 1) = img.off a + 1 := by
  simp only [inImage, Bool.and_eq_true, decide_eq_true_eq] at inside
  have above := inside.1
  unfold Image.off
  bv_omega

def Image.byte (img : Image) (off : Nat) : Byte := img.rom.getD off 0

/-- The bytes from `a` to the end of the image. -/
def Image.avail (img : Image) (a : Addr) : Nat := img.rom.length - img.off a

def Image.decode (img : Image) (a : Addr) : Insn :=
  m65c02Decode (img.byte (img.off a)) (img.byte (img.off a + 1)) (img.byte (img.off a + 2)) a

@[simp] theorem Image.decode_pc (img : Image) (a : Addr) : (img.decode a).pc = a := rfl

theorem Image.decode_next (img : Image) (a : Addr) :
    (img.decode a).next = a + BitVec.ofNat 16 (img.decode a).len := rfl

theorem Image.decode_len (img : Image) (a : Addr) :
    1 ≤ (img.decode a).len ∧ (img.decode a).len ≤ 3 := m65c02Decode_len _ _ _ _

def imgRd16 (img : Image) (a : Addr) : Addr :=
  if !inImage img a || !inImage img (a + 1) then 0
  else word16 (img.byte (img.off a)) (img.byte (img.off a + 1))

/-- `func_t` -/
structure Func where
  start : Addr
  end_ : Addr
  labels : List Addr
  reachesRet : Bool
  deriving DecidableEq, Repr

/-- `func_table_t` -/
structure FuncTable where
  funcs : List Func
  ext : List Addr
  deriving DecidableEq, Repr

/-- `disc_t`; the worklist has the entry pushed last in front. -/
structure Disc where
  work : List Addr
  seen : Addr → Bool

/-- What one sweep changes. -/
structure DiscState where
  d : Disc
  t : FuncTable
  f : Func

def pushFunc (img : Image) (s : DiscState) (a : Addr) : DiscState :=
  if !inImage img a || s.d.seen a then s
  else if maxFuncs ≤ s.d.work.length ∨ maxFuncs ≤ s.t.funcs.length then s
  else { s with d := { work := a :: s.d.work, seen := Function.update s.d.seen a true } }

def addExt (s : DiscState) (a : Addr) : DiscState :=
  if a ∈ s.t.ext then s
  else if s.t.ext.length < maxFuncs then { s with t := { s.t with ext := s.t.ext ++ [a] } } else s

def addLabel (s : DiscState) (a : Addr) : DiscState :=
  if a ∈ s.f.labels then s
  else if s.f.labels.length < maxLabels then
    { s with f := { s.f with labels := s.f.labels ++ [a] } } else s

/-- The entries of a jump table from `a` on, while they look like code targets. -/
def jumpTable (img : Image) : Nat → Addr → List Addr
  | 0, _ => []
  | n + 1, a =>
    let tgt := imgRd16 img a
    if tgt = 0 ∨ inImage img tgt = false then [] else tgt :: jumpTable img n (a + 2)

/-- What the `switch` of `discover_one` records of an instruction; `end_` is the extent of
the routine with this instruction. -/
def recordInsn (img : Image) (i : Insn) (end_ : Addr) (s : DiscState) : DiscState :=
  match i.cflow with
  | .call => if inImage img i.target then pushFunc img s i.target else addExt s i.target
  | .branch => if inImage img i.target then addLabel s i.target else s
  | .jmp =>
    let s :=
      if i.target ≠ 0 ∧ inImage img i.target then
        let s := addLabel s i.target
        if i.target ≤ end_ then s else pushFunc img s i.target
      else if i.target ≠ 0 then addExt s i.target
      else s
    match i.mode with
    | .ind =>
      let tgt := imgRd16 img i.operand
      if inImage img tgt then pushFunc img s tgt else s
    | .iax => (jumpTable img 64 i.operand).foldl (pushFunc img) s
    | _ => s
  | .ret => { s with f := { s.f with reachesRet := true } }
  | _ => s

/-- `end` after an instruction -/
def raiseEnd (end_ next : Addr) : Addr := if end_ < next then next else end_

/-- `maxt` after an instruction: the highest target that must be included. -/
def raiseMaxt (img : Image) (i : Insn) (end_ maxt : Addr) : Addr :=
  match i.cflow with
  | .branch => if inImage img i.target ∧ maxt < i.target then i.target else maxt
  | .jmp =>
    if i.target ≠ 0 ∧ inImage img i.target ∧ i.target ≤ end_ ∧ maxt < i.target then i.target
    else maxt
  | _ => maxt

def Insn.terminator (i : Insn) : Bool :=
  match i.cflow with
  | .jmp | .ret | .brk | .stop => true
  | _ => false

/-- The loop of `discover_one`, which turns at most 0x1000 times, and its final `end`. -/
def discoverLoop (img : Image) (fs : Addr) :
    Nat → Addr → Addr → Addr → DiscState → Addr × DiscState
  | 0, _, _, end_, s => (end_, s)
  | n + 1, addr, maxt, end_, s =>
    if inImage img addr = true ∧ (addr - fs).toNat < 0x1000 then
      let i := img.decode addr
      if img.avail addr < i.len then (end_, s)
      else
        let end_ := raiseEnd end_ i.next
        let s := recordInsn img i end_ s
        let maxt := raiseMaxt img i end_ maxt
        if i.terminator ∧ maxt < i.next then (end_, s)
        else discoverLoop img fs n i.next maxt end_ s
    else (end_, s)

def discoverOne (img : Image) (fs : Addr) (d : Disc) (t : FuncTable) : Disc × FuncTable :=
  if maxFuncs ≤ t.funcs.length then (d, t)
  else
    let f : Func := { start := fs, end_ := fs, labels := [], reachesRet := false }
    let r := discoverLoop img fs 0x1000 fs fs fs { d := d, t := t, f := f }
    (r.2.d, { r.2.t with funcs := r.2.t.funcs ++ [{ r.2.f with end_ := r.1 }] })

/-- The main loop of `analyze_discover`. No more than `MAX_FUNCS` routines are done and no
more than `MAX_FUNCS` entries wait, so twice as many turns are enough. -/
def discoverAll (img : Image) : Nat → Disc → FuncTable → FuncTable
  | 0, _, t => t
  | n + 1, d, t =>
    match d.work with
    | [] => t
    | fs :: rest =>
      let r := discoverOne img fs { d with work := rest } t
      discoverAll img n r.1 r.2

def sortLabels (f : Func) : Func := { f with labels := f.labels.insertionSort (· ≤ ·) }

def analyzeDiscover (img : Image) (seeds : List Addr) : FuncTable :=
  let blank : DiscState :=
    { d := { work := [], seen := fun _ => false }, t := { funcs := [], ext := [] },
      f := { start := 0, end_ := 0, labels := [], reachesRet := false } }
  let t := discoverAll img (2 * maxFuncs) (seeds.foldl (pushFunc img) blank).d blank.t
  { t with funcs := t.funcs.map sortLabels }

def funcTableFind (t : FuncTable) (a : Addr) : Option Func := t.funcs.find? fun f => f.start == a

end LynxRecomp
