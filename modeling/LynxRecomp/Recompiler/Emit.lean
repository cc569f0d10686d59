import LynxRecomp.Recompiler.Analyze
import LynxRecomp.Runtime.Cpu

/-!
# The emitter

`emit.c`. The C text that `emit_insn` prints for an instruction is one of a few
statement forms; they are the constructors of `CStmt`. Comments and the layout of
the file are left out.
-/

namespace LynxRecomp

/-- The effective-address expressions of `addr_expr`; `none` is its `0 /*?*/`. -/
inductive AddrExpr where
  | zp (n : Addr) | zpx (n : Addr) | zpy (n : Addr) | abs (n : Addr) | abx (n : Addr)
  | aby (n : Addr) | izx (n : Addr) | izy (n : Addr) | izp (n : Addr) | none
  deriving DecidableEq, Repr

/-- The value expressions of `rd_expr`: a literal or a memory read. -/
inductive ValExpr where
  | imm (n : Addr)
  | mem (a : AddrExpr)
  deriving DecidableEq, Repr

/-- What a store writes. -/
inductive StoreVal where
  | a | x | y | zero
  deriving DecidableEq, Repr

inductive CondFlag where
  | n | v | c | z
  deriving DecidableEq, Repr

/-- The condition of a branch: a flag, or a bit of a zero-page cell, set or clear. -/
inductive Cond where
  | flag (f : CondFlag) (set : Bool)
  | bit (zp : Addr) (n : Fin 8) (set : Bool)
  deriving DecidableEq, Repr

/-- Where control goes: `[lynx_tick();] goto L_TTTT;`, `lynx_func_TTTT(); return;` or
`lynx_ext_jmp(0xTTTT); return;` -/
inductive Xfer where
  | goto (tick : Bool) (target : Addr)
  | tail (target : Addr)
  | ext (target : Addr)
  deriving DecidableEq, Repr

inductive CStmt where
  | nop
  | assign (f : Flag) (b : Bool)
  | reg (h : RegHelper)
  | stack (h : StackHelper)
  | value (h : ValueHelper) (v : ValExpr)
  | store (a : AddrExpr) (v : StoreVal)
  | accAlu (h : AluHelper)
  | rmw (h : AluHelper) (a : AddrExpr)
  | bitOp (zp : Addr) (n : Fin 8) (set : Bool)
  | branch (c : Cond) (x : Xfer)
  | jump (x : Xfer)
  | jmpIndirect (a : AddrExpr)
  | call (target : Addr)
  | bootCall (target : Addr)
  | ret
  | rti
  | brk
  | stop
  deriving DecidableEq, Repr

def addrExpr (i : Insn) : AddrExpr :=
  match i.mode with
  | .zp => .zp i.operand
  | .zpx => .zpx i.operand
  | .zpy => .zpy i.operand
  | .abs => .abs i.operand
  | .abx => .abx i.operand
  | .aby => .aby i.operand
  | .izx => .izx i.operand
  | .izy => .izy i.operand
  | .izp => .izp i.operand
  | _ => .none

def rdExpr (i : Insn) : ValExpr := if i.mode = .imm then .imm i.operand else .mem (addrExpr i)

def branchCond : Mnemonic → Option Cond
  | .bpl => some (.flag .n false)
  | .bmi => some (.flag .n true)
  | .bvc => some (.flag .v false)
  | .bvs => some (.flag .v true)
  | .bcc => some (.flag .c false)
  | .bcs => some (.flag .c true)
  | .bne => some (.flag .z false)
  | .beq => some (.flag .z true)
  | _ => none

/-- A backward goto is a loop back-edge. -/
def tickIfBack (i : Insn) : Bool := decide (i.target ≤ i.pc)

/-- The choice made for every static transfer but a call. -/
def emitXfer (inFuncRange isFunc : Addr → Bool) (i : Insn) : Xfer :=
  if inFuncRange i.target then .goto (tickIfBack i) i.target
  else if isFunc i.target then .tail i.target
  else .ext i.target

/-- The read-modify-write and shift operations, on the accumulator or on memory. -/
def emitRmw (h : AluHelper) (i : Insn) : CStmt :=
  if i.mode = .acc then
    match h with
    | .inc => .reg .incA
    | .dec => .reg .decA
    | h => .accAlu h
  else .rmw h (addrExpr i)

/-- The statement for one instruction. Every mnemonic has one, so the fallback at the end
of `emit_insn` is never reached. -/
def emitInsn (inFuncRange isFunc : Addr → Bool) (i : Insn) : CStmt :=
  match i.mnemonic with
  | .nop => .nop
  | .clc => .assign .c false
  | .sec => .assign .c true
  | .cli => .assign .i false
  | .sei => .assign .i true
  | .cld => .assign .d false
  | .sed => .assign .d true
  | .clv => .assign .v false
  | .inx => .reg .inx
  | .iny => .reg .iny
  | .dex => .reg .dex
  | .dey => .reg .dey
  | .tax => .reg .tax
  | .tay => .reg .tay
  | .txa => .reg .txa
  | .tya => .reg .tya
  | .tsx => .reg .tsx
  | .txs => .reg .txs
  | .pha => .stack .pha
  | .phx => .stack .phx
  | .phy => .stack .phy
  | .php => .stack .php
  | .pla => .stack .pla
  | .plx => .stack .plx
  | .ply => .stack .ply
  | .plp => .stack .plp
  | .lda => .value .lda (rdExpr i)
  | .ldx => .value .ldx (rdExpr i)
  | .ldy => .value .ldy (rdExpr i)
  | .ora => .value .ora (rdExpr i)
  | .and => .value .and (rdExpr i)
  | .eor => .value .eor (rdExpr i)
  | .adc => .value .adc (rdExpr i)
  | .sbc => .value .sbc (rdExpr i)
  | .cmp => .value .cmp (rdExpr i)
  | .cpx => .value .cpx (rdExpr i)
  | .cpy => .value .cpy (rdExpr i)
  | .bit => .value (if i.mode = .imm then .bitImm else .bit) (rdExpr i)
  | .sta => .store (addrExpr i) .a
  | .stx => .store (addrExpr i) .x
  | .sty => .store (addrExpr i) .y
  | .stz => .store (addrExpr i) .zero
  | .inc => emitRmw .inc i
  | .dec => emitRmw .dec i
  | .asl => emitRmw .asl i
  | .lsr => emitRmw .lsr i
  | .rol => emitRmw .rol i
  | .ror => emitRmw .ror i
  | .tsb => emitRmw .tsb i
  | .trb => emitRmw .trb i
  | .rmb n => .bitOp i.operand n false
  | .smb n => .bitOp i.operand n true
  | .bbr n => .branch (.bit i.operand n false) (emitXfer inFuncRange isFunc i)
  | .bbs n => .branch (.bit i.operand n true) (emitXfer inFuncRange isFunc i)
  | .bra | .jmp =>
    if i.mode = .ind then .jmpIndirect (.abs i.operand)
    else if i.mode = .iax then .jmpIndirect (.abx i.operand)
    else .jump (emitXfer inFuncRange isFunc i)
  | .jsr => if isFunc i.target then .call i.target else .bootCall i.target
  | .rts => .ret
  | .rti => .rti
  | .brk => .brk
  | .wai | .stp => .stop
  | m =>
    match branchCond m with
    | some c => .branch c (emitXfer inFuncRange isFunc i)
    | none => .nop

/-- One translated line: the label `L_AAAA:`, if there is one, and the statement. -/
structure CLine where
  pc : Addr
  labelled : Bool
  stmt : CStmt
  deriving DecidableEq, Repr

/-- `void lynx_func_AAAA(void) { ... }` -/
structure CFunction where
  start : Addr
  lines : List CLine
  deriving DecidableEq, Repr

/-- `recomp_funcs.c`: the functions and the addresses that `lynx_recomp_register` registers. -/
structure CFile where
  functions : List CFunction
  registers : List Addr
  deriving DecidableEq, Repr

def isBranchTarget (f : Func) (a : Addr) : Bool := decide (a ∈ f.labels)

/-- `g_boundary` -/
abbrev Boundary := Addr → Bool

def inFuncRange (g : Boundary) (f : Func) (a : Addr) : Bool :=
  decide (f.start ≤ a) && decide (a < f.end_) && g a

def isFunc (t : FuncTable) (a : Addr) : Bool := (funcTableFind t a).isSome

/-- The first loop of the pre-pass. -/
def clearBoundary (f : Func) (g : Boundary) : Boundary := fun a =>
  if f.start ≤ a ∧ a < f.end_ then false else g a

/-- The second loop of the pre-pass; it advances below `end`, so it ends in time. -/
def markBoundary (img : Image) (f : Func) : Nat → Addr → Boundary → Boundary
  | 0, _, g => g
  | n + 1, a, g =>
    if a < f.end_ then
      let di := img.decode a
      let g := Function.update g a true
      if di.len = 0 ∨ f.end_.toNat - f.start.toNat < (a - f.start).toNat + di.len then g
      else markBoundary img f n di.next g
    else g

/-- The lines of a function from `addr` on. -/
def emitLines (img : Image) (g : Boundary) (t : FuncTable) (f : Func) : Nat → Addr → List CLine
  | 0, _ => []
  | n + 1, addr =>
    if addr < f.end_ then
      let i := img.decode addr
      if img.avail addr < i.len then []
      else
        { pc := addr, labelled := isBranchTarget f addr,
          stmt := emitInsn (inFuncRange g f) (isFunc t) i } :: emitLines img g t f n i.next
    else []

/-- The functions one after the other; the boundary bitmap is left over from one to the next. -/
def emitBodies (img : Image) (t : FuncTable) : List Func → Boundary → List CFunction
  | [], _ => []
  | f :: fs, g =>
    let g := markBoundary img f 0x10000 f.start (clearBoundary f g)
    { start := f.start, lines := emitLines img g t f 0x10000 f.start } :: emitBodies img t fs g

def emitFunctions (img : Image) (t : FuncTable) : CFile where
  functions := emitBodies img t t.funcs fun _ => false
  registers := t.funcs.map Func.start

end LynxRecomp
