import LynxRecomp.Lib.Guarded
import LynxRecomp.Recompiler.Routine

/-!
# Array accesses of the recompiler

Discovery and emission once more, with every index into `rom` and into the tables checked
against the size of the array. The checked run fails exactly where the code would leave
one of its arrays; otherwise it computes what the unchecked one does.
-/

namespace LynxRecomp

namespace Checked

/-- Cell `i` of an array of `cap` cells. -/
def cell (cap i : Nat) : Option Unit := if i < cap then some () else none

/-- The first `n` cells of an array of `cap` cells. -/
def cells (cap n : Nat) : Option Unit := if n ≤ cap then some () else none

section Image

variable (img : Image)

/-- Byte `k` behind `a`, which is not read if it is past the end of the image. -/
def operandByte (a : Addr) (k : Nat) : Option Byte :=
  if k < img.avail a then img.rom[img.off a + k]? else some 0

def decode (a : Addr) : Option Insn := do
  let m0 ← img.rom[img.off a]?
  let m1 ← operandByte img a 1
  let m2 ← operandByte img a 2
  some (m65c02Decode m0 m1 m2 a)

def imgRd16 (a : Addr) : Option Addr :=
  if !inImage img a || !inImage img (a + 1) then some 0
  else do
    let lo ← img.rom[img.off a]?
    let hi ← img.rom[img.off a + 1]?
    some (word16 lo hi)

def jumpTable : Nat → Addr → Option (List Addr)
  | 0, _ => some []
  | n + 1, a => do
    let tgt ← imgRd16 img a
    if tgt = 0 ∨ inImage img tgt = false then some []
    else do
      let tgts ← jumpTable n (a + 2)
      some (tgt :: tgts)

end Image

section Discovery

variable (img : Image)

def pushFunc (s : DiscState) (a : Addr) : Option DiscState :=
  if !inImage img a || s.d.seen a then some s
  else if maxFuncs ≤ s.d.work.length ∨ maxFuncs ≤ s.t.funcs.length then some s
  else do
    cell maxFuncs s.d.work.length
    some { s with d := { work := a :: s.d.work, seen := Function.update s.d.seen a true } }

def addExt (s : DiscState) (a : Addr) : Option DiscState := do
  cells maxFuncs s.t.ext.length
  if a ∈ s.t.ext then some s
  else if s.t.ext.length < maxFuncs then do
    cell maxFuncs s.t.ext.length
    some { s with t := { s.t with ext := s.t.ext ++ [a] } }
  else some s

def addLabel (s : DiscState) (a : Addr) : Option DiscState := do
  cells maxLabels s.f.labels.length
  if a ∈ s.f.labels then some s
  else if s.f.labels.length < maxLabels then do
    cell maxLabels s.f.labels.length
    some { s with f := { s.f with labels := s.f.labels ++ [a] } }
  else some s

/-- The direct target of a jump. -/
def recordJump (i : Insn) (end_ : Addr) (s : DiscState) : Option DiscState :=
  if i.target ≠ 0 ∧ inImage img i.target then do
    let s ← addLabel s i.target
    if i.target ≤ end_ then some s else pushFunc img s i.target
  else if i.target ≠ 0 then addExt s i.target
  else some s

/-- The pointers of a computed jump. -/
def recordPointers (i : Insn) (s : DiscState) : Option DiscState :=
  match i.mode with
  | .ind => do
    let tgt ← imgRd16 img i.operand
    if inImage img tgt then pushFunc img s tgt else some s
  | .iax => do
    let tgts ← jumpTable img 64 i.operand
    tgts.foldlM (pushFunc img) s
  | _ => some s

def recordInsn (i : Insn) (end_ : Addr) (s : DiscState) : Option DiscState :=
  match i.cflow with
  | .call => if inImage img i.target then pushFunc img s i.target else addExt s i.target
  | .branch => if inImage img i.target then addLabel s i.target else some s
  | .jmp => do
    let s ← recordJump img i end_ s
    recordPointers img i s
  | .ret => some { s with f := { s.f with reachesRet := true } }
  | _ => some s

def discoverLoop (fs : Addr) : Nat → Addr → Addr → Addr → DiscState → Option (Addr × DiscState)
  | 0, _, _, end_, s => some (end_, s)
  | n + 1, addr, maxt, end_, s =>
    if inImage img addr = true ∧ (addr - fs).toNat < 0x1000 then do
      let i ← decode img addr
      if img.avail addr < i.len then some (end_, s)
      else do
        let s ← recordInsn img i (raiseEnd end_ i.next) s
        let end_ := raiseEnd end_ i.next
        let maxt := raiseMaxt img i end_ maxt
        if i.terminator ∧ maxt < i.next then some (end_, s)
        else discoverLoop fs n i.next maxt end_ s
    else some (end_, s)

def discoverOne (fs : Addr) (d : Disc) (t : FuncTable) : Option (Disc × FuncTable) :=
  if maxFuncs ≤ t.funcs.length then some (d, t)
  else do
    cell maxFuncs t.funcs.length
    let f : Func := { start := fs, end_ := fs, labels := [], reachesRet := false }
    let r ← discoverLoop img fs 0x1000 fs fs fs { d := d, t := t, f := f }
    some (r.2.d, { r.2.t with funcs := r.2.t.funcs ++ [{ r.2.f with end_ := r.1 }] })

def discoverAll : Nat → Disc → FuncTable → Option FuncTable
  | 0, _, t => some t
  | n + 1, d, t =>
    match d.work with
    | [] => some t
    | fs :: rest => do
      cell maxFuncs rest.length
      let r ← discoverOne img fs { d with work := rest } t
      discoverAll n r.1 r.2

def sortLabels (f : Func) : Option Func := do
  cells maxLabels f.labels.length
  some (LynxRecomp.sortLabels f)

def analyzeDiscover (seeds : List Addr) : Option FuncTable := do
  let blank : DiscState :=
    { d := { work := [], seen := fun _ => false }, t := { funcs := [], ext := [] },
      f := { start := 0, end_ := 0, labels := [], reachesRet := false } }
  let s ← seeds.foldlM (pushFunc img) blank
  let t ← discoverAll img (2 * maxFuncs) s.d blank.t
  cells maxFuncs t.funcs.length
  let funcs ← t.funcs.mapM sortLabels
  some { t with funcs := funcs }

end Discovery

section Emission

variable (img : Image)

def markBoundary (f : Func) : Nat → Addr → Boundary → Option Boundary
  | 0, _, g => some g
  | n + 1, a, g =>
    if a < f.end_ then do
      let di ← decode img a
      let g := Function.update g a true
      if di.len = 0 ∨ f.end_.toNat - f.start.toNat < (a - f.start).toNat + di.len then some g
      else markBoundary f n di.next g
    else some g

/-- The lines of a function; its labels and the table are searched for each of them. -/
def emitLines (g : Boundary) (t : FuncTable) (f : Func) : Nat → Addr → Option (List CLine)
  | 0, _ => some []
  | n + 1, addr =>
    if addr < f.end_ then do
      let i ← decode img addr
      if img.avail addr < i.len then some []
      else do
        cells maxLabels f.labels.length
        cells maxFuncs t.funcs.length
        let lines ← emitLines g t f n i.next
        some ({ pc := addr, labelled := isBranchTarget f addr,
                stmt := emitInsn (inFuncRange g f) (isFunc t) i } :: lines)
    else some []

def emitBodies (t : FuncTable) : List Func → Boundary → Option (List CFunction)
  | [], _ => some []
  | f :: fs, g => do
    let g ← markBoundary img f 0x10000 f.start (clearBoundary f g)
    let lines ← emitLines img g t f 0x10000 f.start
    let rest ← emitBodies t fs g
    some ({ start := f.start, lines := lines } :: rest)

def emitFunctions (t : FuncTable) : Option CFile := do
  cells maxFuncs t.funcs.length
  let functions ← emitBodies img t t.funcs fun _ => false
  some { functions := functions, registers := t.funcs.map Func.start }

/-- Discovery and then emission, as `recompbin` runs them. -/
def recompile (seeds : List Addr) : Option CFile := do
  let t ← analyzeDiscover img seeds
  emitFunctions img t

end Emission

theorem cell_eq_some {cap i : Nat} (inside : i < cap) : cell cap i = some () := if_pos inside

theorem cells_eq_some {cap n : Nat} (inside : n ≤ cap) : cells cap n = some () := if_pos inside

end Checked

section Pointers

/-- The addresses at which the walk over a jump table reads pointers. -/
def tableReads (img : Image) : Nat → Addr → List Addr
  | 0, _ => []
  | n + 1, a =>
    a :: if imgRd16 img a = 0 ∨ inImage img (imgRd16 img a) = false then []
      else tableReads img n (a + 2)

/-- The addresses at which discovery reads pointers for an instruction. -/
def Insn.pointerReads (img : Image) (i : Insn) : List Addr :=
  match i.cflow, i.mode with
  | .jmp, .ind => [i.operand]
  | .jmp, .iax => tableReads img 64 i.operand
  | _, _ => []

/-- The high byte of the pointer at `p` is looked up behind the end of a 64 KiB image. -/
def PastEnd (img : Image) (p : Addr) : Prop :=
  p = 0xFFFF ∧ img.base = 0 ∧ img.rom.length = 0x10000

/-- No pointer read for the instruction leaves the image. -/
def Insn.ReadsInside (img : Image) (i : Insn) : Prop := ∀ p ∈ i.pointerReads img, ¬ PastEnd img p

variable {img : Image} {a : Addr}

theorem off_lt (inside : inImage img a = true) : img.off a < img.rom.length := by
  simp only [inImage, Bool.and_eq_true, decide_eq_true_eq] at inside
  exact inside.2

theorem rom_eq_some {i : Nat} (inside : i < img.rom.length) : img.rom[i]? = some (img.byte i) := by
  rw [Image.byte, List.getD, List.getElem?_eq_getElem inside]
  rfl

theorem byte_past_end {i : Nat} (past : img.rom.length ≤ i) : img.byte i = 0 := by
  rw [Image.byte, List.getD, List.getElem?_eq_none past]
  rfl

theorem operandByte_eq_some (a : Addr) (k : Nat) :
    Checked.operandByte img a k = some (img.byte (img.off a + k)) := by
  unfold Checked.operandByte
  by_cases inside : k < img.avail a
  · rw [if_pos inside, rom_eq_some (by unfold Image.avail at inside; omega)]
  · rw [if_neg inside, byte_past_end (by unfold Image.avail at inside; omega)]

theorem decode_eq_some (inside : inImage img a = true) :
    Checked.decode img a = some (img.decode a) := by
  rw [Checked.decode, rom_eq_some (off_lt inside), operandByte_eq_some, operandByte_eq_some]
  rfl

/-- If both cells of a pointer are in the image, so is the byte behind the first one, unless the
second cell is at the other end of memory. -/
theorem off_succ_lt_iff (low : inImage img a = true) (high : inImage img (a + 1) = true) :
    img.off a + 1 < img.rom.length ↔ ¬ PastEnd img a := by
  unfold PastEnd
  by_cases top : a = 0xFFFF
  · have last := off_lt low
    have zero : img.base = 0 := by
      simp only [inImage, Bool.and_eq_true, decide_eq_true_eq, top] at high
      exact BitVec.le_zero_iff.mp high.1
    unfold Image.off at last ⊢
    rw [top, zero] at last ⊢
    simp only [true_and]
    change 0xFFFF < _ at last
    change 0xFFFF + 1 < _ ↔ _
    omega
  · rw [← Image.off_succ low top]
    exact iff_of_true (off_lt high) fun past => top past.1

theorem imgRd16_yields (img : Image) (a : Addr) :
    Yields (Checked.imgRd16 img a) (¬ PastEnd img a) (imgRd16 img a) := by
  unfold Checked.imgRd16 imgRd16
  by_cases both : inImage img a = true ∧ inImage img (a + 1) = true
  · rcases both with ⟨low, high⟩
    have within := off_succ_lt_iff low high
    rw [low, high, rom_eq_some (off_lt low)]
    by_cases inside : img.off a + 1 < img.rom.length
    · rw [rom_eq_some inside]
      exact (Yields.of_eq rfl).congr (iff_of_true trivial (within.mp inside))
    · rw [List.getElem?_eq_none (Nat.le_of_not_lt inside)]
      exact ⟨fun reads => absurd (within.mpr reads) inside, fun _ => rfl⟩
  · have outside : (!inImage img a || !inImage img (a + 1)) = true := by
      cases low : inImage img a <;> cases high : inImage img (a + 1) <;> simp_all
    rw [if_pos outside, if_pos outside]
    refine (Yields.of_eq rfl).congr (iff_of_true trivial ?_)
    rintro ⟨rfl, base, length⟩
    apply both
    simp [inImage, base, length]

theorem jumpTable_yields (n : Nat) (a : Addr) :
    Yields (Checked.jumpTable img n a) (∀ p ∈ tableReads img n a, ¬ PastEnd img p)
      (jumpTable img n a) := by
  induction n generalizing a with
  | zero => exact (Yields.of_eq rfl).congr (by simp [tableReads])
  | succ n ih =>
    rw [Checked.jumpTable, tableReads, jumpTable]
    by_cases stops : imgRd16 img a = 0 ∨ inImage img (imgRd16 img a) = false
    · simp only [if_pos stops]
      refine ((imgRd16_yields img a).bind (Q := True) fun _ => ?_).congr (by simp)
      rw [if_pos stops]
      exact .of_eq rfl
    · simp only [if_neg stops]
      refine ((imgRd16_yields img a).bind (Q := ∀ p ∈ tableReads img n (a + 2), ¬ PastEnd img p)
        fun _ => ?_).congr (by simp)
      rw [if_neg stops]
      exact (ih (a + 2)).map fun tgts => imgRd16 img a :: tgts

end Pointers

section Discovery

variable {img : Image}

/-- The tables and the worklist have no more entries than cells. -/
structure TablesFit (d : Disc) (t : FuncTable) : Prop where
  work : d.work.length ≤ maxFuncs
  funcs : t.funcs.length ≤ maxFuncs
  ext : t.ext.length ≤ maxFuncs

structure DiscState.Fits (s : DiscState) : Prop where
  tables : TablesFit s.d s.t
  labels : s.f.labels.length ≤ maxLabels

theorem pushFunc_eq_some (s : DiscState) (a : Addr) :
    Checked.pushFunc img s a = some (pushFunc img s a) := by
  unfold Checked.pushFunc pushFunc
  split
  · rfl
  · split
    · rfl
    · rename_i room
      rw [Checked.cell_eq_some (by omega)]
      rfl

theorem pushFuncs_eq_some (as : List Addr) (s : DiscState) :
    as.foldlM (Checked.pushFunc img) s = some (as.foldl (pushFunc img) s) :=
  foldlM_eq_some (I := fun _ => True) (fun s a _ => pushFunc_eq_some s a) (fun _ _ _ => trivial) as
    trivial

theorem addExt_eq_some {s : DiscState} (fits : s.Fits) (a : Addr) :
    Checked.addExt s a = some (addExt s a) := by
  unfold Checked.addExt addExt
  rw [Checked.cells_eq_some fits.tables.ext, Option.bind_eq_bind, Option.bind_some]
  split
  · rfl
  · split
    · rename_i room
      rw [Checked.cell_eq_some room]
      rfl
    · rfl

theorem addLabel_eq_some {s : DiscState} (fits : s.Fits) (a : Addr) :
    Checked.addLabel s a = some (addLabel s a) := by
  unfold Checked.addLabel addLabel
  rw [Checked.cells_eq_some fits.labels, Option.bind_eq_bind, Option.bind_some]
  split
  · rfl
  · split
    · rename_i room
      rw [Checked.cell_eq_some room]
      rfl
    · rfl

theorem pushFunc_fits {s : DiscState} (a : Addr) (fits : s.Fits) : (pushFunc img s a).Fits := by
  unfold pushFunc
  split
  · exact fits
  · split
    · exact fits
    · rename_i room
      rcases fits with ⟨⟨work, funcs, ext⟩, labels⟩
      refine ⟨⟨?_, funcs, ext⟩, labels⟩
      simp only [List.length_cons]
      omega

theorem add_fits {cap : Nat} (l : List Addr) (a : Addr) (fits : l.length ≤ cap) :
    (Capped.add cap l a).length ≤ cap := by
  unfold Capped.add
  split
  · exact fits
  · split
    · rw [List.length_append]
      exact ‹l.length < cap›
    · exact fits

theorem recordInsn_fits {s : DiscState} (v : Visit) (fits : s.Fits) :
    (recordInsn img v.insn v.extent s).Fits := by
  rw [recordInsn_eq]
  apply foldl_keeps fun _ a kept => pushFunc_fits a kept
  rcases fits with ⟨⟨work, funcs, ext⟩, labels⟩
  exact ⟨⟨work, funcs, foldl_keeps add_fits _ ext⟩, foldl_keeps add_fits _ labels⟩

theorem recordInsn_funcs {s : DiscState} (v : Visit) :
    (recordInsn img v.insn v.extent s).t.funcs = s.t.funcs := by
  rw [recordInsn_eq]
  exact foldl_keeps (I := fun r : DiscState => r.t.funcs = s.t.funcs)
    (fun r a kept => (congrArg FuncTable.funcs (pushFunc_t r a)).trans kept) _ rfl

theorem recordJump_eq_some {s : DiscState} (img : Image) (i : Insn) (end_ : Addr)
    (fits : s.Fits) :
    Checked.recordJump img i end_ s = some
      (if i.target ≠ 0 ∧ inImage img i.target then
        if i.target ≤ end_ then addLabel s i.target
        else pushFunc img (addLabel s i.target) i.target
      else if i.target ≠ 0 then addExt s i.target
      else s) := by
  unfold Checked.recordJump
  rw [addLabel_eq_some fits, addExt_eq_some fits]
  split
  · simp only [Option.bind_eq_bind, Option.bind_some, pushFunc_eq_some]
    split <;> rfl
  · split <;> rfl

theorem recordPointers_yields (img : Image) (i : Insn) (s : DiscState) :
    Yields (Checked.recordPointers img i s)
      (∀ p ∈ match i.mode with
        | .ind => [i.operand]
        | .iax => tableReads img 64 i.operand
        | _ => [], ¬ PastEnd img p)
      (match i.mode with
        | .ind =>
          if inImage img (imgRd16 img i.operand) then pushFunc img s (imgRd16 img i.operand) else s
        | .iax => (jumpTable img 64 i.operand).foldl (pushFunc img) s
        | _ => s) := by
  unfold Checked.recordPointers
  cases i.mode with
  | ind =>
    refine ((imgRd16_yields img i.operand).bind (Q := True) fun _ => .of_eq ?_).congr (by simp)
    rw [pushFunc_eq_some]
    split <;> rfl
  | iax =>
    refine ((jumpTable_yields 64 i.operand).bind (Q := True) fun _ => .of_eq ?_).congr (by simp)
    exact pushFuncs_eq_some _ s
  | _ => exact (Yields.of_eq rfl).congr (by simp)

/-- Recording an instruction fails exactly where it reads a pointer past the end. -/
theorem recordInsn_yields {s : DiscState} (i : Insn) (end_ : Addr) (fits : s.Fits) :
    Yields (Checked.recordInsn img i end_ s) (i.ReadsInside img) (recordInsn img i end_ s) := by
  unfold Checked.recordInsn recordInsn Insn.ReadsInside Insn.pointerReads
  cases i.cflow with
  | normal | ret | brk | stop =>
    exact (Yields.of_eq rfl).congr (by simp)
  | call =>
    refine (Yields.of_eq ?_).congr (by simp)
    dsimp only
    rw [pushFunc_eq_some, addExt_eq_some fits]
    exact (apply_ite some _ _ _).symm
  | branch =>
    refine (Yields.of_eq ?_).congr (by simp)
    dsimp only
    rw [addLabel_eq_some fits]
    exact (apply_ite some _ _ _).symm
  | jmp =>
    have pointers := Yields.after (recordJump_eq_some img i end_ fits)
      (recordPointers_yields img i _)
    cases mode : i.mode <;> rw [mode] at pointers <;> exact pointers

theorem discoverLoop_yields (fs : Addr) (n : Nat) (addr maxt end_ : Addr) {s : DiscState}
    (fits : s.Fits) :
    Yields (Checked.discoverLoop img fs n addr maxt end_ s)
      (∀ v ∈ sweepFrom img fs n addr maxt end_, v.insn.ReadsInside img)
      (discoverLoop img fs n addr maxt end_ s) := by
  induction n generalizing addr maxt end_ s with
  | zero => exact (Yields.of_eq rfl).congr (by simp [sweepFrom])
  | succ n ih =>
    rw [Checked.discoverLoop, sweepFrom, discoverLoop]
    by_cases inside : inImage img addr = true ∧ (addr - fs).toNat < 0x1000
    · rw [if_pos inside, if_pos inside, if_pos inside]
      refine .after (decode_eq_some inside.1) ?_
      simp only
      by_cases truncated : img.avail addr < (img.decode addr).len
      · rw [if_pos truncated, if_pos truncated, if_pos truncated]
        exact (Yields.of_eq rfl).congr (by simp)
      · rw [if_neg truncated, if_neg truncated, if_neg truncated]
        have recorded := @recordInsn_yields img s (img.decode addr)
          (raiseEnd end_ (img.decode addr).next) fits
        have kept := @recordInsn_fits img s
          ⟨img.decode addr, raiseEnd end_ (img.decode addr).next⟩ fits
        by_cases complete : (img.decode addr).terminator = true ∧
            raiseMaxt img (img.decode addr) (raiseEnd end_ (img.decode addr).next) maxt <
              (img.decode addr).next
        · simp only [if_pos complete]
          exact (recorded.map fun s => _).congr (by simp)
        · simp only [if_neg complete]
          exact (recorded.bind fun _ => ih _ _ _ kept).congr (by simp)
    · rw [if_neg inside, if_neg inside, if_neg inside]
      exact (Yields.of_eq rfl).congr (by simp)

/-- No pointer read for the routine at `fs` leaves the image. -/
def RoutineInside (img : Image) (fs : Addr) : Prop := ∀ v ∈ sweep img fs, v.insn.ReadsInside img

theorem discoverOne_fits {d : Disc} {t : FuncTable} (fs : Addr) (fits : TablesFit d t) :
    TablesFit (discoverOne img fs d t).1 (discoverOne img fs d t).2 := by
  by_cases full : maxFuncs ≤ t.funcs.length
  · rw [discoverOne, if_pos full]
    exact fits
  · rw [discoverOne_eq fs full]
    have kept : DiscState.Fits _ ∧ _ = t.funcs := foldl_keeps
      (g := fun (s : DiscState) (v : Visit) => recordInsn img v.insn v.extent s)
      (I := fun s => s.Fits ∧ s.t.funcs = t.funcs)
      (fun s v kept => ⟨recordInsn_fits v kept.1, (recordInsn_funcs v).trans kept.2⟩)
      (sweep img fs)
      (b := ⟨d, t, { start := fs, end_ := fs, labels := [], reachesRet := false }⟩)
      ⟨⟨fits, Nat.zero_le _⟩, rfl⟩
    rcases kept with ⟨⟨⟨work, _, ext⟩, _⟩, same⟩
    refine ⟨work, ?_, ext⟩
    simp only [same, List.length_append, List.length_singleton]
    omega

theorem discoverOne_yields {d : Disc} {t : FuncTable} (fs : Addr) (fits : TablesFit d t) :
    Yields (Checked.discoverOne img fs d t) (maxFuncs ≤ t.funcs.length ∨ RoutineInside img fs)
      (discoverOne img fs d t) := by
  unfold Checked.discoverOne discoverOne
  by_cases full : maxFuncs ≤ t.funcs.length
  · rw [if_pos full, if_pos full]
    exact (Yields.of_eq rfl).congr (by simp [full])
  · rw [if_neg full, if_neg full]
    refine .after (Checked.cell_eq_some (Nat.lt_of_not_le full)) ?_
    have swept := @discoverLoop_yields img fs 0x1000 fs fs fs
      ⟨d, t, { start := fs, end_ := fs, labels := [], reachesRet := false }⟩
      ⟨fits, Nat.zero_le _⟩
    exact (swept.map _).congr (by simp [full, RoutineInside, sweep])

theorem discoverOne_funcs (img : Image) (d : Disc) {t : FuncTable} (fs : Addr)
    (room : ¬ maxFuncs ≤ t.funcs.length) :
    (discoverOne img fs d t).2.funcs = t.funcs ++ [sweptRoutine img fs] := by
  rcases @recordVisits_eq img (sweep img fs)
    ⟨d, t, { start := fs, end_ := fs, labels := [], reachesRet := false }⟩ with ⟨table, func, _⟩
  rw [discoverOne_eq fs room]
  simp only [table, func, Capped.foldl_add_nil, Bool.false_or]
  rfl

/-- Routines in the table stay there. -/
theorem discoverAll_mem {n : Nat} {d : Disc} {t : FuncTable} {f : Func} (member : f ∈ t.funcs) :
    f ∈ (discoverAll img n d t).funcs := by
  induction n generalizing d t with
  | zero => exact member
  | succ n ih =>
    rw [discoverAll]
    cases d.work with
    | nil => exact member
    | cons fs rest =>
      apply ih
      by_cases full : maxFuncs ≤ t.funcs.length
      · rw [discoverOne, if_pos full]
        exact member
      · rw [discoverOne_funcs img { d with work := rest } fs full]
        exact List.mem_append_left _ member

/-- Discovery fails exactly if one of the routines it does reads a pointer past the end. -/
theorem discoverAll_yields (n : Nat) {d : Disc} {t : FuncTable} (fits : TablesFit d t)
    (inside : ∀ f ∈ t.funcs, RoutineInside img f.start) :
    Yields (Checked.discoverAll img n d t)
      (∀ f ∈ (discoverAll img n d t).funcs, RoutineInside img f.start)
      (discoverAll img n d t) := by
  induction n generalizing d t with
  | zero => exact (Yields.of_eq rfl).congr (iff_of_true trivial inside)
  | succ n ih =>
    rw [Checked.discoverAll, discoverAll]
    cases work : d.work with
    | nil => exact (Yields.of_eq rfl).congr (iff_of_true trivial inside)
    | cons fs rest =>
      have short := fits.work
      rw [work, List.length_cons] at short
      have popped : TablesFit { d with work := rest } t :=
        ⟨Nat.le_of_succ_le short, fits.funcs, fits.ext⟩
      have one := @discoverOne_yields img _ _ fs popped
      refine .after (Checked.cell_eq_some (by omega)) ?_
      by_cases full : maxFuncs ≤ t.funcs.length
      · refine .after (one.holds (.inl full)) (ih (discoverOne_fits fs popped) ?_)
        rw [discoverOne, if_pos full]
        exact inside
      · have funcs := discoverOne_funcs img { d with work := rest } fs full
        by_cases good : RoutineInside img fs
        · refine .after (one.holds (.inr good)) (ih (discoverOne_fits fs popped) ?_)
          rw [funcs, List.forall_mem_append, List.forall_mem_singleton]
          exact ⟨inside, good⟩
        · constructor
          · intro all
            have new : sweptRoutine img fs ∈
                (discoverOne img fs { d with work := rest } t).2.funcs := by
              rw [funcs]
              simp
            exact absurd (all _ (discoverAll_mem new)) good
          · intro _
            rw [one.fails (not_or.mpr ⟨full, good⟩)]
            rfl

theorem seeded_fits (img : Image) (seeds : List Addr) :
    TablesFit (seeded img seeds).d { funcs := [], ext := [] } := by
  have kept : (seeded img seeds).Fits := foldl_keeps (fun _ a kept => pushFunc_fits a kept) seeds
    ⟨⟨Nat.zero_le _, Nat.zero_le _, Nat.zero_le _⟩, Nat.zero_le _⟩
  exact ⟨kept.tables.work, Nat.zero_le _, Nat.zero_le _⟩

theorem sweptRoutine_labels_le (img : Image) (fs : Addr) :
    (sweptRoutine img fs).labels.length ≤ maxLabels := List.length_take_le _ _

theorem sortLabels_eq_some {fs : List Func} (short : ∀ f ∈ fs, f.labels.length ≤ maxLabels) :
    fs.mapM Checked.sortLabels = some (fs.map sortLabels) := by
  induction fs with
  | nil => rfl
  | cons f fs ih =>
    rcases List.forall_mem_cons.mp short with ⟨first, rest⟩
    rw [List.mapM_cons, ih rest, Checked.sortLabels, Checked.cells_eq_some first]
    rfl

theorem analyzeDiscover_yields (img : Image) (seeds : List Addr) :
    Yields (Checked.analyzeDiscover img seeds) (∀ fs ∈ starts img seeds, RoutineInside img fs)
      (analyzeDiscover img seeds) := by
  have done := discoverAll_funcs img seeds
  have count : (discoverAll img (2 * maxFuncs) (seeded img seeds).d ⟨[], []⟩).funcs.length ≤
      maxFuncs := by
    rw [done, List.length_map]
    exact starts_length img seeds
  have labels : ∀ f ∈ (discoverAll img (2 * maxFuncs) (seeded img seeds).d ⟨[], []⟩).funcs,
      f.labels.length ≤ maxLabels := by
    rw [done, List.forall_mem_map]
    exact fun fs _ => sweptRoutine_labels_le img fs
  have all := @discoverAll_yields img (2 * maxFuncs) _ _ (seeded_fits img seeds)
    fun f member => absurd member List.not_mem_nil
  refine .after (pushFuncs_eq_some seeds _) ((all.bind (Q := True) fun _ => .of_eq ?_).congr ?_)
  · rw [Checked.cells_eq_some count, Option.bind_eq_bind, Option.bind_some,
      sortLabels_eq_some labels]
    rfl
  · rw [done, List.forall_mem_map, and_true]
    rfl

end Discovery

section Emission

variable {img : Image}

theorem markBoundary_eq_some {f : Func} {a e : Addr} {vs : List Visit} (chain : Chain img a vs e)
    (until_ : f.end_ = e) (n : Nat) (g : Boundary) :
    Checked.markBoundary img f n a g = some (markBoundary img f n a g) := by
  induction chain generalizing n g with
  | nil a =>
    cases n with
    | zero => rfl
    | succ n =>
      have beyond : ¬ a < f.end_ := by
        rw [until_]
        exact BitVec.lt_irrefl a
      rw [Checked.markBoundary, markBoundary, if_neg beyond, if_neg beyond]
  | @cons a e vs inside _ ascends rest ih =>
    cases n with
    | zero => rfl
    | succ n =>
      have below : a < f.end_ := by
        rw [until_]
        exact addr_lt_of_lt_of_le ascends rest.le
      rw [Checked.markBoundary, markBoundary, if_pos below, if_pos below, decode_eq_some inside,
        Option.bind_eq_bind, Option.bind_some]
      dsimp only
      rw [ih until_, apply_ite some]

theorem emitLines_eq_some {t : FuncTable} {f : Func} (funcs : t.funcs.length ≤ maxFuncs)
    (labels : f.labels.length ≤ maxLabels) {a e : Addr} {vs : List Visit} (chain : Chain img a vs e)
    (until_ : f.end_ = e) (n : Nat) (g : Boundary) :
    Checked.emitLines img g t f n a = some (emitLines img g t f n a) := by
  induction chain generalizing n with
  | nil a =>
    cases n with
    | zero => rfl
    | succ n =>
      have beyond : ¬ a < f.end_ := by
        rw [until_]
        exact BitVec.lt_irrefl a
      rw [Checked.emitLines, emitLines, if_neg beyond, if_neg beyond]
  | @cons a e vs inside whole ascends rest ih =>
    cases n with
    | zero => rfl
    | succ n =>
      have below : a < f.end_ := by
        rw [until_]
        exact addr_lt_of_lt_of_le ascends rest.le
      rw [Checked.emitLines, emitLines, if_pos below, if_pos below, decode_eq_some inside,
        Option.bind_eq_bind, Option.bind_some]
      dsimp only
      rw [if_neg whole, if_neg whole, Checked.cells_eq_some labels, Checked.cells_eq_some funcs,
        ih until_]
      rfl

theorem routine_labels_le (img : Image) (fs : Addr) :
    (routine img fs).labels.length ≤ maxLabels := by
  rw [routine, sortLabels, List.length_insertionSort]
  exact sweptRoutine_labels_le img fs

/-- Emission stays within its arrays, whatever discovery found. -/
theorem emitBodies_eq_some {t : FuncTable} (funcs : t.funcs.length ≤ maxFuncs) (ss : List Addr)
    (g : Boundary) :
    Checked.emitBodies img t (ss.map (routine img)) g =
      some (emitBodies img t (ss.map (routine img)) g) := by
  induction ss generalizing g with
  | nil => rfl
  | cons fs ss ih =>
    have chain := bodyVisits_chain img fs
    have begins : (routine img fs).start = fs := rfl
    rw [List.map_cons, Checked.emitBodies, emitBodies, begins, markBoundary_eq_some chain rfl,
      Option.bind_eq_bind, Option.bind_some,
      emitLines_eq_some funcs (routine_labels_le img fs) chain rfl, Option.bind_eq_bind,
      Option.bind_some, ih]
    rfl

theorem emitFunctions_eq_some (img : Image) (seeds : List Addr) :
    Checked.emitFunctions img (analyzeDiscover img seeds) =
      some (emitFunctions img (analyzeDiscover img seeds)) := by
  have funcs := analyzeDiscover_funcs img seeds
  have count : (analyzeDiscover img seeds).funcs.length ≤ maxFuncs := by
    rw [funcs, List.length_map]
    exact starts_length img seeds
  have bodies : Checked.emitBodies img (analyzeDiscover img seeds) (analyzeDiscover img seeds).funcs
      (fun _ => false) = some (emitBodies img (analyzeDiscover img seeds)
        (analyzeDiscover img seeds).funcs fun _ => false) := by
    have each := @emitBodies_eq_some img _ count (starts img seeds) fun _ => false
    rwa [← funcs] at each
  rw [Checked.emitFunctions, Checked.cells_eq_some count, bodies]
  rfl

end Emission

/-- The checked run fails exactly if a routine that discovery does reads past the end. -/
theorem recompile_yields (img : Image) (seeds : List Addr) :
    Yields (Checked.recompile img seeds) (∀ fs ∈ starts img seeds, RoutineInside img fs)
      (emitFunctions img (analyzeDiscover img seeds)) :=
  ((analyzeDiscover_yields img seeds).bind (Q := True) fun _ =>
    .of_eq (emitFunctions_eq_some img seeds)).congr (iff_of_eq (and_true _))

/-- Discovery and emission stay within their arrays exactly if no routine that discovery does
reads a pointer across the end of a 64 KiB image, and then the checks change nothing. -/
theorem recompile_inBounds_iff (img : Image) (seeds : List Addr) :
    ((Checked.recompile img seeds).isSome = true ↔
      ∀ fs ∈ starts img seeds, ∀ v ∈ sweep img fs, ∀ p ∈ v.insn.pointerReads img,
        ¬ PastEnd img p) ∧
    ∀ file, Checked.recompile img seeds = some file →
      file = emitFunctions img (analyzeDiscover img seeds) := by
  have run := recompile_yields img seeds
  exact ⟨run.isSome_iff, fun file ran => run.eq_of_some ran⟩

section Images

variable {img : Image} {seeds : List Addr}

/-- The entry on top of the worklist gets done. -/
theorem top_mem_starts {fs : Addr} {rest : List Addr}
    (work : (seeded img seeds).d.work = fs :: rest) : fs ∈ starts img seeds := by
  have room : ¬ maxFuncs ≤ (FuncTable.mk [] []).funcs.length := by decide
  have funcs := discoverOne_funcs img { (seeded img seeds).d with work := rest } fs room
  have first : sweptRoutine img fs ∈
      (discoverAll img (2 * maxFuncs) (seeded img seeds).d ⟨[], []⟩).funcs := by
    change sweptRoutine img fs ∈ (discoverAll img (2047 + 1) _ _).funcs
    rw [discoverAll, work]
    apply discoverAll_mem
    rw [funcs]
    exact List.mem_singleton_self _
  rw [discoverAll_funcs] at first
  rcases List.mem_map.mp first with ⟨fs', member, same⟩
  have start : fs' = fs := congrArg Func.start same
  exact start ▸ member

/-- The first instruction of a routine is met by its sweep. -/
theorem sweep_first {fs : Addr} (inside : inImage img fs = true)
    (whole : ¬ img.avail fs < (img.decode fs).len) :
    ∃ v ∈ sweep img fs, v.insn = img.decode fs := by
  have near : (fs - fs).toNat < 0x1000 := by simp
  refine ⟨⟨img.decode fs, raiseEnd fs (img.decode fs).next⟩, ?_, rfl⟩
  change _ ∈ sweepFrom img fs (0xFFF + 1) fs fs fs
  rw [sweepFrom, if_pos ⟨inside, near⟩]
  dsimp only
  rw [if_neg whole]
  split <;> simp

/-- A 64 KiB image that starts with `JMP ($FFFF)`. -/
def topImage : Image := ⟨0, 0x6C :: 0xFF :: 0xFF :: List.replicate 0xFFFD 0⟩

theorem topImage_length : topImage.rom.length = 0x10000 := by
  rw [topImage, List.length_cons, List.length_cons, List.length_cons, List.length_replicate]

/-- Discovery reads a byte behind the end of the image. -/
theorem topPointer_readsPastEnd : (Checked.recompile topImage [0]).isSome = false := by
  have base : topImage.base = 0 := rfl
  have insn : (topImage.decode 0).pointerReads topImage = [0xFFFF] ∧
      (topImage.decode 0).len = 3 := by
    decide +kernel
  have inside : inImage topImage 0 = true := by
    simp [inImage, base, topImage_length]
  have whole : ¬ topImage.avail 0 < (topImage.decode 0).len := by
    rw [Image.avail, topImage_length, insn.2]
    decide
  have start : 0 ∈ starts topImage [0] := by
    refine @top_mem_starts topImage [0] 0 [] ?_
    rw [seeded, List.foldl_cons, pushFunc, inside]
    rfl
  rcases sweep_first inside whole with ⟨v, visited, first⟩
  apply Bool.eq_false_iff.mpr
  intro ran
  have reads := (recompile_yields topImage [0]).isSome_iff.mp ran 0 start v visited 0xFFFF
    (by rw [first, insn.1]; exact List.mem_singleton_self _)
  exact reads ⟨rfl, base, topImage_length⟩

end Images

end LynxRecomp
