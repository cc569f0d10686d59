import LynxRecomp.Recompiler.Emit
import LynxRecomp.Runtime.Exec

/-!
# Running the emitted code

The meaning of the statements that the emitter prints. The C call stack is a list of
frames, each with the lines its function has still to execute.
-/

namespace LynxRecomp

variable {η : Type}

section Statements

variable (c : Cpu)

def AddrExpr.code : AddrExpr → Code Addr
  | zp n => pure n
  | zpx n => pure ((n.setWidth 8 + c.x).setWidth 16)
  | zpy n => pure ((n.setWidth 8 + c.y).setWidth 16)
  | abs n => pure n
  | abx n => pure (n + c.x.setWidth 16)
  | aby n => pure (n + c.y.setWidth 16)
  | izx n => lynxZpPtr (n.setWidth 8 + c.x)
  | izy n => do pure ((← lynxZpPtr (n.setWidth 8)) + c.y.setWidth 16)
  | izp n => lynxZpPtr (n.setWidth 8)
  | none => pure 0

/-- A value passed to a helper, whose parameter is a byte. -/
def ValExpr.code : ValExpr → Code Byte
  | imm n => pure (n.setWidth 8)
  | mem a => do BusProgram.get (← a.code c)

def StoreVal.value : StoreVal → Byte
  | a => c.a
  | x => c.x
  | y => c.y
  | zero => 0

def CondFlag.value : CondFlag → Byte
  | .n => c.n
  | .v => c.v
  | .c => c.c
  | .z => c.z

def Cond.code : Cond → Code Bool
  | flag f set => pure ((f.value c != 0) == set)
  | bit zp n set => do
    let v ← BusProgram.get zp
    pure ((v &&& bitMask n != 0) == set)

/-- A statement that goes on with the next line and leaves the frames alone. -/
def CStmt.code : CStmt → Code Cpu
  | assign f b => pure (f.assign b c)
  | reg h => pure (h.run c)
  | stack h => h.run c
  | value h v => do pure (h.run (← v.code c) c)
  | store a v => do
    BusProgram.put (← a.code c) (v.value c)
    pure c
  | accAlu h => pure { (h.run c.a c).2 with a := (h.run c.a c).1 }
  | rmw h a => do
    let ea ← a.code c
    let v ← BusProgram.get ea
    BusProgram.put ea (h.run v c).1
    pure (h.run v c).2
  | bitOp zp n set => do
    let z : Addr := (zp.setWidth 8).setWidth 16
    let v ← BusProgram.get z
    BusProgram.put z (if set then v ||| bitMask n else v &&& ~~~bitMask n)
    pure c
  | _ => pure c

end Statements

/-- The functions that emitted code calls by name besides its own: `lynx_tick` and the
transfer hooks of the host. -/
structure Transfers (η : Type) where
  tick : Machine η → Machine η
  extJmp : Addr → Machine η → Machine η
  bootCall : Addr → Machine η → Machine η
  jmpIndirect : Addr → Machine η → Machine η
  unimpl : Byte → Machine η → Machine η

structure Frame where
  fn : CFunction
  rest : List CLine

/-- The machine and the C call stack. -/
structure CState (η : Type) where
  m : Machine η
  frames : List Frame

/-- The function named `lynx_func_AAAA`. -/
def CFile.find (file : CFile) (a : Addr) : Option CFunction :=
  file.functions.find? fun f => f.start == a

def CFunction.enter (f : CFunction) : Frame := { fn := f, rest := f.lines }

/-- The lines from label `L_AAAA` on; none if there is no such label. -/
def CFunction.linesFrom (f : CFunction) (a : Addr) : List CLine :=
  f.lines.dropWhile fun l => !(l.labelled && l.pc == a)

section Step

variable (hooks : Hooks η) (calls : Transfers η) (file : CFile)

/-- A transfer out of the function `fn`; `below` are the frames under its own. A tail call is
an ordinary call with nothing left to do after it. -/
def Xfer.take (fn : CFunction) (m : Machine η) (below : List Frame) : Xfer → Option (CState η)
  | goto tick a =>
    match fn.linesFrom a with
    | [] => Option.none
    | lines => some ⟨if tick then calls.tick m else m, ⟨fn, lines⟩ :: below⟩
  | tail a => (file.find a).map fun g => ⟨m, g.enter :: ⟨fn, []⟩ :: below⟩
  | ext a => some ⟨calls.extJmp a m, below⟩

/-- One line, or the return of a function that ran off its end. There is no step without a
frame, to a label that is not declared, or to a function that is not defined. -/
def CState.step (s : CState η) : Option (CState η) :=
  match s.frames with
  | [] => none
  | ⟨_, []⟩ :: below => some ⟨s.m, below⟩
  | ⟨fn, line :: rest⟩ :: below =>
    match line.stmt with
    | .branch c x =>
      let r := (c.code s.m.cpu).run (memBus hooks) s.m.hw
      let m : Machine η := { s.m with hw := r.2 }
      if r.1 then x.take calls file fn m below else some ⟨m, ⟨fn, rest⟩ :: below⟩
    | .jump x => x.take calls file fn s.m below
    | .jmpIndirect a =>
      let r := (a.code s.m.cpu >>= lynxMemRead16).run (memBus hooks) s.m.hw
      some ⟨calls.jmpIndirect r.1 { s.m with hw := r.2 }, below⟩
    | .call a => (file.find a).map fun g => ⟨s.m, g.enter :: ⟨fn, rest⟩ :: below⟩
    | .bootCall a => some ⟨calls.bootCall a s.m, ⟨fn, rest⟩ :: below⟩
    | .ret => some ⟨s.m, below⟩
    | .rti => some ⟨s.m.exec hooks lynxRti, below⟩
    | .brk => some ⟨calls.unimpl 0x00 s.m, below⟩
    | .stop => some ⟨s.m, below⟩
    | stmt => some ⟨s.m.exec hooks fun c => stmt.code c, ⟨fn, rest⟩ :: below⟩

def CState.steps : Nat → CState η → Option (CState η)
  | 0, s => some s
  | n + 1, s => (s.step hooks calls file).bind (steps n)

/-- Called in state `m`, the function at `f` returns in state `m'`. -/
def Returns (f : Addr) (m m' : Machine η) : Prop :=
  ∃ g n, file.find f = some g ∧
    CState.steps hooks calls file n ⟨m, [g.enter]⟩ = some ⟨m', []⟩

end Step

section Steps

variable {hooks : Hooks η} {calls : Transfers η} {file : CFile} {s s' s'' : CState η}

theorem steps_trans {n k : Nat} (first : CState.steps hooks calls file n s = some s')
    (then_ : CState.steps hooks calls file k s' = some s'') :
    CState.steps hooks calls file (n + k) s = some s'' := by
  induction n generalizing s with
  | zero =>
    obtain rfl := Option.some.inj first
    rwa [Nat.zero_add]
  | succ n ih =>
    rw [CState.steps, Option.bind_eq_some_iff] at first
    obtain ⟨t, step, rest⟩ := first
    rw [Nat.succ_add, CState.steps, step]
    exact ih rest

theorem steps_of_step (step : s.step hooks calls file = some s') :
    CState.steps hooks calls file 1 s = some s' := by
  rw [CState.steps, step]
  rfl

/-- Once all frames are gone, there are no more steps. -/
theorem steps_done {n : Nat} {m : Machine η}
    (run : CState.steps hooks calls file n ⟨m, []⟩ = some s') : s' = ⟨m, []⟩ := by
  cases n with
  | zero => exact (Option.some.inj run).symm
  | succ n => exact absurd run (by simp [CState.steps, CState.step])

theorem steps_unique {n k : Nat} {m m' : Machine η}
    (one : CState.steps hooks calls file n s = some ⟨m, []⟩)
    (other : CState.steps hooks calls file k s = some ⟨m', []⟩) : m = m' := by
  induction n generalizing s k with
  | zero =>
    obtain rfl := Option.some.inj one
    exact (congrArg CState.m (steps_done other)).symm
  | succ n ih =>
    cases k with
    | zero =>
      obtain rfl := Option.some.inj other
      exact congrArg CState.m (steps_done one)
    | succ k =>
      rw [CState.steps, Option.bind_eq_some_iff] at one other
      obtain ⟨t, step, rest⟩ := one
      obtain ⟨t', step', rest'⟩ := other
      obtain rfl := Option.some.inj (step.symm.trans step')
      exact ih rest rest'

/-- A function returns in one state only. -/
theorem Returns.unique {f : Addr} {m m' m'' : Machine η} (one : Returns hooks calls file f m m')
    (other : Returns hooks calls file f m m'') : m' = m'' := by
  obtain ⟨g, n, found, run⟩ := one
  obtain ⟨g', k, found', run'⟩ := other
  obtain rfl := Option.some.inj (found.symm.trans found')
  exact steps_unique run run'

end Steps

end LynxRecomp
