import LynxRecomp.Runtime.Elapse

/-!
# Interrupts

`lynx_tick` delivers an interrupt by a call of the routine at the vector, with the flags on
the stack page; the routine may tick itself, and be interrupted again.
-/

namespace LynxRecomp

open BusProgram

variable {η : Type}

section Stack

/-- Memory with `v` at stack slot `s`. -/
def storeSlot (s v : Byte) (hw : Hw η) : Hw η :=
  { hw with ram := Function.update hw.ram (stackAddr s) v }

/-- The byte at stack slot `s` -/
def slot (s : Byte) (hw : Hw η) : Byte := hw.ram (stackAddr s)

@[simp] theorem slot_storeSlot (s t v : Byte) (hw : Hw η) :
    slot t (storeSlot s v hw) = if t = s then v else slot t hw := by
  change Function.update hw.ram (stackAddr s) v (stackAddr t) = _
  by_cases same : t = s
  · rw [same, if_pos rfl, Function.update_self]
  · rw [if_neg same, Function.update_of_ne (fun h => same (stackAddr_inj.mp h))]
    rfl

variable (hooks : Hooks η)

theorem lynxPush_run (v : Byte) (c : Cpu) (hw : Hw η) :
    (lynxPush v c).run (memBus hooks) hw = ({ c with s := c.s - 1 }, storeSlot c.s v hw) :=
  congrArg (Prod.mk { c with s := c.s - 1 }) (lynxMemWrite_ram hooks (stackAddr_lt c.s) v hw)

theorem lynxPull_run (c : Cpu) (hw : Hw η) :
    (lynxPull c).run (memBus hooks) hw = ((slot (c.s + 1) hw, { c with s := c.s + 1 }), hw) := by
  have read := lynxMemRead_ram (stackAddr_lt (c.s + 1)) hw
  change (((lynxMemRead (stackAddr (c.s + 1)) hw).1, { c with s := c.s + 1 }),
    (lynxMemRead (stackAddr (c.s + 1)) hw).2) = _
  rw [read]
  rfl

/-- The return from an interrupt takes the flags off the stack and drops two bytes. -/
theorem exec_rti (m : Machine η) :
    Machine.exec hooks lynxRti m =
      { m with cpu := { lynxPUnpack (slot (m.cpu.s + 1) m.hw) m.cpu with s := m.cpu.s + 3 } } := by
  have three : m.cpu.s + 1 + 1 + 1 = m.cpu.s + 3 := by
    rw [BitVec.add_assoc, BitVec.add_assoc]
    rfl
  unfold Machine.exec lynxRti
  rw [run_bind, lynxPull_run]
  simp only
  rw [run_bind, lynxPull_run]
  simp only
  rw [run_bind, lynxPull_run, ← three]
  rfl

/-- The flags as the entry of an interrupt saves them, with B clear. -/
def savedFlags (c : Cpu) : Byte := lynxPPack c &&& ~~~0x10

theorem exec_irqEntry (m : Machine η) :
    Machine.exec hooks irqEntry m =
      { cpu := { m.cpu with s := m.cpu.s - 3, i := 1, d := 0 }
        hw := storeSlot (m.cpu.s - 2) (savedFlags m.cpu)
          (storeSlot (m.cpu.s - 1) 0 (storeSlot m.cpu.s 0 m.hw)) } := by
  have two : m.cpu.s - 1 - 1 = m.cpu.s - 2 := BitVec.sub_sub ..
  have three : m.cpu.s - 2 - 1 = m.cpu.s - 3 := BitVec.sub_sub ..
  unfold Machine.exec irqEntry
  rw [run_bind, lynxPush_run]
  simp only
  rw [run_bind, lynxPush_run]
  simp only
  rw [run_bind, lynxPush_run, two, three]
  rfl

end Stack

/-- The address at `$FFFE`. -/
def irqVector (hw : Hw η) : Addr := word16 (hw.ram vecIrq) (hw.ram (vecIrq + 1))

/-- The machine when the routine of an interrupt that a tick delivers is called. -/
def entered (hooks : Hooks η) (m : Machine η) : Machine η :=
  Machine.exec hooks irqEntry { m with hw := tickedHw lynxTickUs m.hw }

section Deliver

variable (hooks : Hooks η) (d : Dispatch η)

theorem lynxTick_delivers {m : Machine η} (delivers : TickDelivers m) :
    lynxTick hooks d m = lynxCallAddr d (irqVector m.hw) (entered hooks m) := by
  have vector : (lynxMemRead16 vecIrq).run (memBus hooks) (tickedHw lynxTickUs m.hw) =
      (irqVector m.hw, tickedHw lynxTickUs m.hw) := rfl
  have tick : lynxTick hooks d m =
      lynxIrqDeliver hooks d { m with hw := tickedHw lynxTickUs m.hw } := if_pos delivers
  rw [tick, lynxIrqDeliver, vector]
  rfl

theorem entered_cpu (m : Machine η) :
    (entered hooks m).cpu = { m.cpu with s := m.cpu.s - 3, i := 1, d := 0 } := by
  rw [entered, exec_irqEntry]

theorem slot_entered (m : Machine η) (t : Byte) :
    slot t (entered hooks m).hw =
      if t = m.cpu.s - 2 then savedFlags m.cpu
      else if t = m.cpu.s - 1 then 0 else if t = m.cpu.s then 0 else slot t m.hw := by
  rw [entered, exec_irqEntry]
  simp only [slot_storeSlot]
  rfl

end Deliver

/-- While code runs with `own` bytes of its own on the stack, below `above` bytes of others, it
leaves the stack pointer where it is and those others as they are. -/
structure Keeps (above own : Nat) (m m' : Machine η) : Prop where
  s : m'.cpu.s = m.cpu.s
  slots : ∀ j, own < j → j ≤ own + above →
    slot (m.cpu.s + BitVec.ofNat 8 j) m'.hw = slot (m.cpu.s + BitVec.ofNat 8 j) m.hw

/-- `Serves hooks d Room above own m r`: with `above` bytes of others and `own` bytes of its own
on the stack, a routine gets from `m` to `r`, where it has pulled what it pushed. It never
touches the bytes above its own, and may tick and be interrupted. `Room n` allows `n` bytes
on the stack at a time. -/
inductive Serves (hooks : Hooks η) (d : Dispatch η) (Room : Nat → Prop) :
    Nat → Nat → Machine η → Machine η → Prop where
  | done {above : Nat} {m : Machine η} : Serves hooks d Room above 0 m m
  | act {above own : Nat} {m m' r : Machine η} (keeps : Keeps above own m m')
      (rest : Serves hooks d Room above own m' r) : Serves hooks d Room above own m r
  | push {above own : Nat} {m r : Machine η} (v : Byte) (room : Room (above + own + 1))
      (rest : Serves hooks d Room above (own + 1) (Machine.exec hooks (lynxPush v) m) r) :
      Serves hooks d Room above own m r
  | pull {above own : Nat} {m r : Machine η}
      (rest : Serves hooks d Room above own { m with cpu := { m.cpu with s := m.cpu.s + 1 } } r) :
      Serves hooks d Room above (own + 1) m r
  | tick {above own : Nat} {m r : Machine η} (quiet : ¬ TickDelivers m)
      (rest : Serves hooks d Room above own (lynxTick hooks d m) r) :
      Serves hooks d Room above own m r
  | interrupted {above own : Nat} {m b r : Machine η} {fn : Machine η → Machine η}
      (delivers : TickDelivers m) (registered : d.table (irqVector m.hw) = some fn)
      (room : Room (above + own + 3))
      (served : Serves hooks d Room (above + own + 3) 0 (entered hooks m) b)
      (returns : fn (entered hooks m) = Machine.exec hooks lynxRti b)
      (rest : Serves hooks d Room above own (lynxTick hooks d m) r) :
      Serves hooks d Room above own m r

/-- Code that started at `m` has pulled its `own` bytes at `r`, with those `above` as they were. -/
structure Unwinds (above own : Nat) (m r : Machine η) : Prop where
  s : r.cpu.s = m.cpu.s + BitVec.ofNat 8 own
  slots : ∀ j, own < j → j ≤ own + above →
    slot (m.cpu.s + BitVec.ofNat 8 j) r.hw = slot (m.cpu.s + BitVec.ofNat 8 j) m.hw

section Unwind

variable {hooks : Hooks η} {d : Dispatch η} {above own : Nat} {m m' r : Machine η}

theorem Keeps.unwinds (first : Keeps above own m m') (rest : Unwinds above own m' r) :
    Unwinds above own m r where
  s := by rw [rest.s, first.s]
  slots j beyond inside := by
    have later := rest.slots j beyond inside
    rw [first.s] at later
    exact later.trans (first.slots j beyond inside)

theorem Unwinds.push (v : Byte) (room : above + own + 1 ≤ 256)
    (rest : Unwinds above (own + 1) (Machine.exec hooks (lynxPush v) m) r) :
    Unwinds above own m r := by
  have pushed : Machine.exec hooks (lynxPush v) m =
      { cpu := { m.cpu with s := m.cpu.s - 1 }, hw := storeSlot m.cpu.s v m.hw } :=
    congrArg (fun r => (⟨r.1, r.2⟩ : Machine η)) (lynxPush_run hooks v m.cpu m.hw)
  rw [pushed] at rest
  constructor
  · rw [rest.s, BitVec.ofNat_add]
    bv_omega
  · intro j beyond inside
    have place : m.cpu.s - 1 + BitVec.ofNat 8 (j + 1) = m.cpu.s + BitVec.ofNat 8 j := by
      rw [BitVec.ofNat_add]
      bv_omega
    have kept := rest.slots (j + 1) (Nat.succ_lt_succ beyond) (by omega)
    dsimp only at kept
    rw [place, slot_storeSlot, if_neg (by bv_omega)] at kept
    exact kept

theorem Unwinds.pull
    (rest : Unwinds above own { m with cpu := { m.cpu with s := m.cpu.s + 1 } } r) :
    Unwinds above (own + 1) m r := by
  constructor
  · rw [rest.s, BitVec.ofNat_add]
    bv_omega
  · intro j beyond inside
    have place : m.cpu.s + 1 + BitVec.ofNat 8 (j - 1) = m.cpu.s + BitVec.ofNat 8 j := by
      obtain ⟨k, rfl⟩ : ∃ k, j = k + 1 := ⟨j - 1, by omega⟩
      rw [Nat.add_sub_cancel, BitVec.ofNat_add]
      bv_omega
    have kept := rest.slots (j - 1) (by omega) (by omega)
    dsimp only at kept
    rwa [place] at kept

theorem keeps_quiet (quiet : ¬ TickDelivers m) : Keeps above own m (lynxTick hooks d m) := by
  rw [lynxTick_quiet hooks d quiet]
  exact ⟨rfl, fun _ _ _ => rfl⟩

/-- The tick, when the routine that it calls returns from `b`. -/
theorem lynxTick_served {b : Machine η} {fn : Machine η → Machine η} (delivers : TickDelivers m)
    (registered : d.table (irqVector m.hw) = some fn)
    (returns : fn (entered hooks m) = Machine.exec hooks lynxRti b) :
    lynxTick hooks d m =
      { b with cpu := { lynxPUnpack (slot (b.cpu.s + 1) b.hw) b.cpu with s := b.cpu.s + 3 } } := by
  rw [lynxTick_delivers hooks d delivers, lynxCallAddr, registered]
  dsimp only
  rw [returns, exec_rti]

/-- An interrupt that is served leaves the stack as it was. -/
theorem keeps_interrupted {b : Machine η} {fn : Machine η → Machine η}
    (delivers : TickDelivers m) (registered : d.table (irqVector m.hw) = some fn)
    (room : above + own + 3 ≤ 256) (served : Unwinds (above + own + 3) 0 (entered hooks m) b)
    (returns : fn (entered hooks m) = Machine.exec hooks lynxRti b) :
    Keeps above own m (lynxTick hooks d m) := by
  have s : b.cpu.s = m.cpu.s - 3 := by
    rw [served.s, entered_cpu]
    exact BitVec.add_zero _
  rw [lynxTick_served delivers registered returns]
  constructor
  · dsimp only
    rw [s, BitVec.sub_add_cancel]
  · intro j beyond inside
    have place : m.cpu.s - 3 + BitVec.ofNat 8 (j + 3) = m.cpu.s + BitVec.ofNat 8 j := by
      rw [BitVec.ofNat_add]
      bv_omega
    have kept := served.slots (j + 3) (by omega) (by omega)
    rw [entered_cpu] at kept
    dsimp only at kept ⊢
    rw [place, slot_entered, if_neg (by bv_omega), if_neg (by bv_omega), if_neg (by bv_omega)]
      at kept
    exact kept

/-- Whatever a routine does, it leaves what is above its own bytes, as long as no more is on the
stack than the page holds. -/
theorem Serves.unwinds (serves : Serves hooks d (· ≤ 256) above own m r) :
    Unwinds above own m r := by
  induction serves with
  | done => exact ⟨(BitVec.add_zero _).symm, fun _ _ _ => rfl⟩
  | act keeps rest ih => exact keeps.unwinds ih
  | push v room rest ih => exact ih.push v room
  | pull rest ih => exact ih.pull
  | tick quiet rest ih => exact (keeps_quiet quiet).unwinds ih
  | interrupted delivers registered room served returns rest served_ih ih =>
    exact (keeps_interrupted delivers registered room served_ih returns).unwinds ih

end Unwind

section Flags

/-- The bits of the saved flags, with B clear -/
theorem saved_bits : ∀ n v d i z c : Bool,
    let p : Byte := ((if n then 0x80 else 0) ||| (if v then 0x40 else 0) ||| 0x20 ||| 0x10 |||
      (if d then 0x08 else 0) ||| (if i then 0x04 else 0) ||| (if z then 0x02 else 0) |||
      (if c then 0x01 else 0)) &&& ~~~0x10
    (p &&& 0x80 != 0) = n ∧ (p &&& 0x40 != 0) = v ∧ (p &&& 0x08 != 0) = d ∧
      (p &&& 0x04 != 0) = i ∧ (p &&& 0x02 != 0) = z ∧ (p &&& 0x01 != 0) = c := by decide

theorem truth_of_le_one : ∀ f : Byte, f ≤ 1 → truth (decide (f ≠ 0)) = f := by decide

/-- The return restores the flags that the entry saved. -/
theorem unpack_savedFlags {c : Cpu} (ok : c.FlagsOk) (c' : Cpu) :
    lynxPUnpack (savedFlags c) c' =
      { c' with n := c.n, v := c.v, d := c.d, i := c.i, z := c.z, c := c.c } := by
  have saved : savedFlags c =
      ((if decide (c.n ≠ 0) then 0x80 else 0) ||| (if decide (c.v ≠ 0) then 0x40 else 0) |||
        0x20 ||| 0x10 ||| (if decide (c.d ≠ 0) then 0x08 else 0) |||
        (if decide (c.i ≠ 0) then 0x04 else 0) ||| (if decide (c.z ≠ 0) then 0x02 else 0) |||
        (if decide (c.c ≠ 0) then 0x01 else 0)) &&& ~~~0x10 := by
    simp only [savedFlags, lynxPPack, decide_eq_true_eq]
  rcases saved_bits (decide (c.n ≠ 0)) (decide (c.v ≠ 0)) (decide (c.d ≠ 0)) (decide (c.i ≠ 0))
    (decide (c.z ≠ 0)) (decide (c.c ≠ 0)) with ⟨n, v, d, i, z, carry⟩
  rw [← saved] at n v d i z carry
  rw [lynxPUnpack, n, v, d, i, z, carry, truth_of_le_one _ ok.n, truth_of_le_one _ ok.v,
    truth_of_le_one _ ok.d, truth_of_le_one _ ok.i, truth_of_le_one _ ok.z,
    truth_of_le_one _ ok.c]

end Flags

/-- A tick leaves the stack pointer and the flags as they are, and all registers if it delivers
nothing. -/
def TickRestores (hooks : Hooks η) (d : Dispatch η) (m : Machine η) : Prop :=
  let c := (lynxTick hooks d m).cpu
  c.s = m.cpu.s ∧ (c.n = m.cpu.n ∧ c.v = m.cpu.v ∧ c.d = m.cpu.d ∧ c.i = m.cpu.i ∧
    c.z = m.cpu.z ∧ c.c = m.cpu.c) ∧ (¬ TickDelivers m → c = m.cpu)

/-- The routine that a tick calls keeps to its part of the stack page and leaves by `lynx_rti`. -/
def TickServed (hooks : Hooks η) (d : Dispatch η) (Room : Nat → Prop) (m : Machine η) : Prop :=
  TickDelivers m → ∃ fn b, d.table (irqVector m.hw) = some fn ∧
    Serves hooks d Room 3 0 (entered hooks m) b ∧
    fn (entered hooks m) = Machine.exec hooks lynxRti b

/-- Interrupts are transparent, however deeply they nest, as long as the page is large enough for
all that is on it. -/
theorem lynxTick_transparent (hooks : Hooks η) (d : Dispatch η) {m : Machine η}
    (flags : m.cpu.FlagsOk) (served : TickServed hooks d (· ≤ 256) m) :
    TickRestores hooks d m := by
  unfold TickRestores
  by_cases delivers : TickDelivers m
  · rcases served delivers with ⟨fn, b, registered, serves, returns⟩
    have unwinds := serves.unwinds
    have s : b.cpu.s = m.cpu.s - 3 := by
      rw [unwinds.s, entered_cpu]
      exact BitVec.add_zero _
    have saved : slot (b.cpu.s + 1) b.hw = savedFlags m.cpu := by
      have kept := unwinds.slots 1 Nat.one_pos (by decide)
      rw [entered_cpu] at kept
      rw [s]
      refine kept.trans ?_
      rw [slot_entered, if_pos (by dsimp only; bv_omega)]
    simp only
    rw [lynxTick_served delivers registered returns, saved, unpack_savedFlags flags, s]
    exact ⟨BitVec.sub_add_cancel _ _, ⟨rfl, rfl, rfl, rfl, rfl, rfl⟩,
      fun quiet => absurd delivers quiet⟩
  · simp only
    rw [lynxTick_quiet hooks d delivers]
    exact ⟨rfl, ⟨rfl, rfl, rfl, rfl, rfl, rfl⟩, fun _ => rfl⟩

section Nesting

theorem lynxIrqPending_ne_zero {hw : Hw η} :
    lynxIrqPending hw ≠ 0 ↔ ∃ k, hw.timer.irqLatch.getLsbD k = true := by
  unfold lynxIrqPending
  constructor
  · intro pending
    by_contra clear
    push Not at clear
    have zero : hw.timer.irqLatch = 0 := BitVec.eq_of_getLsbD_eq fun k _ => by simp [clear k]
    rw [zero] at pending
    exact pending rfl
  · rintro ⟨k, bit⟩ zero
    have latch : hw.timer.irqLatch ≠ 0 := by
      intro h
      simp [h] at bit
    rw [bne_iff_ne.mpr latch] at zero
    exact absurd zero (by decide)

/-- An interrupt stays pending while time passes. -/
theorem lynxIrqPending_tickedHw {us : Word} {hw : Hw η} (pending : lynxIrqPending hw ≠ 0) :
    lynxIrqPending (tickedHw us hw) ≠ 0 := by
  rcases lynxIrqPending_ne_zero.mp pending with ⟨k, bit⟩
  exact lynxIrqPending_ne_zero.mpr ⟨k, lynxTimerStep_latch k us hw bit⟩

/-- Another round of interrupts may be delivered, and X counts down. -/
def unmasked (m : Machine η) : Machine η :=
  { m with cpu := { m.cpu with i := 0, x := m.cpu.x - 1 } }

variable (hooks : Hooks η)

/-- A routine that clears I and ticks; the interrupt it is in for is served by the next in line. -/
def nested : Nat → Machine η → Machine η
  | 0, m => Machine.exec hooks lynxRti m
  | n + 1, m =>
    Machine.exec hooks lynxRti
      (lynxTick hooks { table := fun _ => some (nested n), fallback := none } (unmasked m))

/-- The routine at every vector lets as many interrupts in as X says. -/
def nesting : Dispatch η :=
  { table := fun _ => some fun m => nested hooks m.cpu.x.toNat m, fallback := none }

theorem entered_pending {m : Machine η} (pending : lynxIrqPending m.hw ≠ 0) :
    lynxIrqPending (entered hooks m).hw ≠ 0 := by
  have kept : lynxIrqPending (entered hooks m).hw = lynxIrqPending (tickedHw lynxTickUs m.hw) := by
    rw [entered, exec_irqEntry]
    rfl
  rw [kept]
  exact lynxIrqPending_tickedHw pending

theorem unmasked_delivers {m : Machine η} (pending : lynxIrqPending m.hw ≠ 0) :
    TickDelivers (unmasked m) :=
  ⟨lynxIrqPending_tickedHw pending, rfl⟩

theorem unmasked_x {n : Nat} {m : Machine η} (x : m.cpu.x.toNat = n + 1) :
    (entered hooks (unmasked m)).cpu.x.toNat = n := by
  rw [entered_cpu]
  change (m.cpu.x - 1).toNat = n
  bv_omega

theorem lynxTick_nested {d : Dispatch η} {n : Nat} {m : Machine η}
    (pending : lynxIrqPending m.hw ≠ 0) (registered : ∃ fn, d.table (irqVector m.hw) = some fn ∧
      fn (entered hooks (unmasked m)) = nested hooks n (entered hooks (unmasked m))) :
    lynxTick hooks d (unmasked m) = nested hooks n (entered hooks (unmasked m)) := by
  rcases registered with ⟨fn, found, same⟩
  have vector : irqVector (unmasked m).hw = irqVector m.hw := rfl
  rw [lynxTick_delivers hooks d (unmasked_delivers pending), lynxCallAddr, vector, found]
  exact same

/-- Each round is served by the routine itself. -/
theorem nested_serves (Room : Nat → Prop) (n above : Nat) {m : Machine η}
    (pending : lynxIrqPending m.hw ≠ 0) (x : m.cpu.x.toNat = n)
    (room : ∀ k ≤ n, Room (above + 3 * k)) :
    ∃ b, Serves hooks (nesting hooks) Room above 0 m b ∧
      nested hooks n m = Machine.exec hooks lynxRti b := by
  induction n generalizing above m with
  | zero => exact ⟨m, .done, rfl⟩
  | succ n ih =>
    have next := unmasked_x hooks x
    have inner : ∀ k ≤ n, Room (above + 0 + 3 + 3 * k) := by
      intro k below
      have fits := room (k + 1) (Nat.succ_le_succ below)
      rwa [Nat.mul_add_one, Nat.add_comm (3 * k), ← Nat.add_assoc] at fits
    rcases ih _ (entered_pending hooks (m := unmasked m) pending) next inner
      with ⟨b, serves, returns⟩
    have returns' : (fun m => nested hooks m.cpu.x.toNat m) (entered hooks (unmasked m)) =
        Machine.exec hooks lynxRti b := by
      simp only [next]
      exact returns
    have run : nested hooks (n + 1) m =
        Machine.exec hooks lynxRti (lynxTick hooks (nesting hooks) (unmasked m)) := by
      have same : lynxTick hooks (nesting hooks) (unmasked m) =
          nested hooks n (entered hooks (unmasked m)) :=
        lynxTick_nested hooks pending ⟨_, rfl, by simp only [next]⟩
      rw [nested, same, lynxTick_nested hooks pending ⟨_, rfl, rfl⟩]
    have keeps : Keeps above 0 m (unmasked m) := ⟨rfl, fun _ _ _ => rfl⟩
    have fits : Room (above + 0 + 3) := inner 0 (Nat.zero_le n)
    exact ⟨_, .act keeps (.interrupted (unmasked_delivers pending) rfl fits serves returns' .done),
      run⟩

theorem nested_s (n : Nat) {m : Machine η} (pending : lynxIrqPending m.hw ≠ 0) :
    (nested hooks n m).cpu.s = m.cpu.s + 3 := by
  induction n generalizing m with
  | zero => rw [nested, exec_rti]
  | succ n ih =>
    rw [nested, exec_rti, lynxTick_nested hooks pending ⟨_, rfl, rfl⟩]
    dsimp only
    rw [ih (entered_pending hooks (m := unmasked m) pending), entered_cpu]
    exact congrArg (· + 3) (BitVec.sub_add_cancel _ _)

/-- The last round pushes its first byte as far down as the rounds before it have gone. -/
theorem slot_nested (n : Nat) {m : Machine η} (pending : lynxIrqPending m.hw ≠ 0) :
    slot (m.cpu.s - BitVec.ofNat 8 (3 * n)) (nested hooks (n + 1) m).hw = 0 := by
  induction n generalizing m with
  | zero =>
    rw [nested, exec_rti, lynxTick_nested hooks pending ⟨_, rfl, rfl⟩, nested, exec_rti]
    dsimp only
    have top : m.cpu.s - BitVec.ofNat 8 (3 * 0) = m.cpu.s := BitVec.sub_zero _
    have s : (unmasked m).cpu.s = m.cpu.s := rfl
    rw [top, slot_entered, s, if_neg (by bv_omega), if_neg (by bv_omega), if_pos rfl]
  | succ n ih =>
    have inner := ih (entered_pending hooks (m := unmasked m) pending)
    have s : (entered hooks (unmasked m)).cpu.s = m.cpu.s - 3 := by
      rw [entered_cpu]
      rfl
    have place : m.cpu.s - BitVec.ofNat 8 (3 * (n + 1)) =
        m.cpu.s - 3 - BitVec.ofNat 8 (3 * n) := by
      rw [Nat.mul_add_one, BitVec.ofNat_add]
      bv_omega
    rw [nested, exec_rti, lynxTick_nested hooks pending ⟨_, rfl, rfl⟩, place, ← s]
    dsimp only
    exact inner

/-- An interrupt is pending, and `x` more are let in while it is served. -/
def interruptedAt (x : Byte) : Machine Unit where
  cpu := { (Machine.zeroed ()).cpu with s := 0xFF, z := 1, x := x }
  hw := { Hw.zeroed () with timer := { phase := fun _ => 0, irqLatch := 1 } }

theorem interruptedAt_pending (x : Byte) : lynxIrqPending (interruptedAt x).hw ≠ 0 := by
  have bit : (1 : Byte).getLsbD 0 = true := by decide
  exact lynxIrqPending_ne_zero.mpr ⟨0, bit⟩

theorem interruptedAt_flags (x : Byte) : (interruptedAt x).cpu.FlagsOk := by
  constructor <;> exact of_decide_eq_true rfl

theorem interruptedAt_served {Room : Nat → Prop} {x : Byte}
    (room : ∀ k ≤ x.toNat, Room (3 + 3 * k)) :
    TickServed Hooks.none (nesting Hooks.none) Room (interruptedAt x) := by
  intro _
  have pending := interruptedAt_pending x
  rcases nested_serves Hooks.none Room x.toNat 3 (m := entered Hooks.none (interruptedAt x))
    (entered_pending _ pending) rfl room with ⟨b, serves, returns⟩
  exact ⟨_, b, rfl, serves, returns⟩

theorem interruptedAt_restored :
    (interruptedAt 2).cpu.FlagsOk ∧
      TickServed Hooks.none (nesting Hooks.none) (· ≤ 256) (interruptedAt 2) ∧
      TickRestores Hooks.none (nesting Hooks.none) (interruptedAt 2) := by
  have flags := interruptedAt_flags 2
  have served : TickServed Hooks.none (nesting Hooks.none) (· ≤ 256) (interruptedAt 2) := by
    apply interruptedAt_served
    intro k below
    have small : k ≤ 2 := below
    omega
  exact ⟨flags, served, lynxTick_transparent _ _ flags served⟩

/-- The 87th interrupt inside one another pushes its first byte over the flags that the first one
saved. -/
theorem interruptedAt_notRestored :
    (interruptedAt 86).cpu.FlagsOk ∧
      TickServed Hooks.none (nesting Hooks.none) (fun _ => True) (interruptedAt 86) ∧
      ¬ TickRestores Hooks.none (nesting Hooks.none) (interruptedAt 86) := by
  have pending := interruptedAt_pending 86
  have delivers : TickDelivers (interruptedAt 86) := ⟨lynxIrqPending_tickedHw pending, rfl⟩
  refine ⟨interruptedAt_flags 86, interruptedAt_served fun _ _ => trivial, ?_⟩
  have inside := entered_pending Hooks.none pending
  rcases nested_serves Hooks.none (fun _ => True) 86 3 inside rfl fun _ _ => trivial
    with ⟨b, serves, returns⟩
  have s : b.cpu.s = 0xFC := by
    have left := nested_s Hooks.none 86 inside
    rw [returns, exec_rti, entered_cpu] at left
    change b.cpu.s + 3 = 0xFF - 3 + 3 at left
    bv_omega
  have lost : slot (b.cpu.s + 1) b.hw = 0 := by
    have dirty := slot_nested Hooks.none 85 inside
    rw [returns, exec_rti, entered_cpu] at dirty
    rw [s]
    exact dirty
  have registered : (nesting Hooks.none).table (irqVector (interruptedAt 86).hw) =
      some fun m : Machine Unit => nested Hooks.none m.cpu.x.toNat m := rfl
  intro restores
  have z : (lynxTick Hooks.none (nesting Hooks.none) (interruptedAt 86)).cpu.z = 1 :=
    restores.2.1.2.2.2.2.1
  rw [lynxTick_served delivers registered returns, lost] at z
  change truth ((0 : Byte) &&& 0x02 != 0) = (1 : Byte) at z
  exact absurd z (by decide)

end Nesting

section Unresolved

/-- The registers and the flags of `c'` are those of `c`. -/
def Intact (c c' : Cpu) : Prop :=
  (c'.a = c.a ∧ c'.x = c.x ∧ c'.y = c.y ∧ c'.s = c.s) ∧
    c'.n = c.n ∧ c'.v = c.v ∧ c'.d = c.d ∧ c'.i = c.i ∧ c'.z = c.z ∧ c'.c = c.c

theorem Intact.refl (c : Cpu) : Intact c c :=
  ⟨⟨rfl, rfl, rfl, rfl⟩, rfl, rfl, rfl, rfl, rfl, rfl⟩

variable (hooks : Hooks η) {d : Dispatch η}

/-- Ticks with interrupts masked leave the CPU alone. -/
theorem lynxTick_masked {m : Machine η} (masked : m.cpu.i ≠ 0) (n : Nat) :
    ((lynxTick hooks d)^[n] m).cpu = m.cpu := by
  induction n generalizing m with
  | zero => rfl
  | succ n ih =>
    have quiet : lynxTick hooks d m = { m with hw := tickedHw lynxTickUs m.hw } :=
      lynxTick_quiet hooks d fun delivers => masked delivers.2
    rw [Function.iterate_succ_apply, quiet]
    exact ih masked

theorem pending_iterate {hw : Hw η} (pending : lynxIrqPending hw ≠ 0) (n : Nat) :
    lynxIrqPending ((tickedHw lynxTickUs)^[n] hw) ≠ 0 := by
  induction n generalizing hw with
  | zero => exact pending
  | succ n ih => exact ih (lynxIrqPending_tickedHw pending)

/-- A delivery that finds no routine has pushed three bytes and set I. -/
theorem lynxTick_unresolved_cpu {m : Machine η} (unresolved : d.table (irqVector m.hw) = none)
    (noFallback : d.fallback = none) (delivers : TickDelivers m) :
    (lynxTick hooks d m).cpu = { m.cpu with s := m.cpu.s - 3, i := 1, d := 0 } := by
  rw [lynxTick_delivers hooks d delivers, lynxCallAddr, unresolved, noFallback]
  exact entered_cpu hooks m

/-- With no routine for the interrupt, ticks leave the CPU intact exactly when none of them
delivers. -/
theorem lynxTick_unresolved (d : Dispatch η) (m : Machine η)
    (unresolved : d.table (irqVector m.hw) = none) (noFallback : d.fallback = none) (n : Nat) :
    Intact m.cpu ((lynxTick hooks d)^[n] m).cpu ↔
      n = 0 ∨ m.cpu.i ≠ 0 ∨ lynxIrqPending ((tickedHw lynxTickUs)^[n] m.hw) = 0 := by
  induction n generalizing m with
  | zero => exact iff_of_true (Intact.refl _) (.inl rfl)
  | succ n ih =>
    rw [Function.iterate_succ_apply, Function.iterate_succ_apply]
    by_cases delivers : TickDelivers m
    · have cpu := lynxTick_unresolved_cpu hooks unresolved noFallback delivers
      have masked : (lynxTick hooks d m).cpu.i ≠ 0 := by
        rw [cpu]
        exact (by decide : (1 : Byte) ≠ 0)
      rw [lynxTick_masked hooks masked, cpu]
      apply iff_of_false
      · rintro ⟨⟨_, _, _, s⟩, _⟩
        dsimp only at s
        bv_omega
      · rintro (none | masked | clear)
        · exact Nat.succ_ne_zero n none
        · exact masked delivers.2
        · exact pending_iterate delivers.1 n clear
    · rw [lynxTick_quiet hooks d delivers, ih { m with hw := tickedHw lynxTickUs m.hw } unresolved]
      have first : m.cpu.i ≠ 0 ∨ lynxIrqPending (tickedHw lynxTickUs m.hw) = 0 := by
        by_contra neither
        push Not at neither
        exact delivers ⟨neither.2, neither.1⟩
      constructor
      · rintro (rfl | later)
        · exact .inr first
        · exact .inr later
      · rintro (none | later)
        · exact absurd none (Nat.succ_ne_zero n)
        · exact .inr later

/-- Timer 0 counts down from 200 with its interrupt enabled. -/
def countingMachine : Machine Unit where
  cpu := { (Machine.zeroed ()).cpu with a := 0x12, s := 0xFF, c := 1 }
  hw :=
    { Hw.zeroed () with
      mikey := fun r => if r = 0x00 then 0x20 else if r = 0x01 then 0x98 else if r = 0x02 then 200
        else 0 }

/-- As long as the timer has not run out, its ticks leave the CPU intact. -/
theorem countingMachine_intact :
    (Dispatch.empty : Dispatch Unit).table (irqVector countingMachine.hw) = none ∧
      (Dispatch.empty : Dispatch Unit).fallback = none ∧
      ((tickedHw lynxTickUs)^[3] countingMachine.hw).mikey 0x02 = 188 ∧
      Intact countingMachine.cpu
        ((lynxTick Hooks.none Dispatch.empty)^[3] countingMachine).cpu := by
  have clear : lynxIrqPending ((tickedHw lynxTickUs)^[3] countingMachine.hw) = 0 := by
    decide +kernel
  refine ⟨rfl, rfl, by decide +kernel, ?_⟩
  exact (lynxTick_unresolved Hooks.none Dispatch.empty countingMachine rfl rfl 3).mpr
    (.inr (.inr clear))

/-- One tick with an interrupt pending moves the stack pointer and sets I. -/
theorem interruptedAt_notIntact :
    (Dispatch.empty : Dispatch Unit).table (irqVector (interruptedAt 0).hw) = none ∧
      (Dispatch.empty : Dispatch Unit).fallback = none ∧
      (lynxTick Hooks.none Dispatch.empty (interruptedAt 0)).cpu.s = 0xFC ∧
      (lynxTick Hooks.none Dispatch.empty (interruptedAt 0)).cpu.i = 1 ∧
      ¬ Intact (interruptedAt 0).cpu
        ((lynxTick Hooks.none Dispatch.empty)^[1] (interruptedAt 0)).cpu := by
  have delivers : TickDelivers (interruptedAt 0) :=
    ⟨lynxIrqPending_tickedHw (interruptedAt_pending 0), rfl⟩
  have cpu := lynxTick_unresolved_cpu Hooks.none (d := Dispatch.empty) rfl rfl delivers
  refine ⟨rfl, rfl, ?_, ?_, ?_⟩
  · rw [cpu]
    exact of_decide_eq_true rfl
  · rw [cpu]
  · rw [Function.iterate_one, cpu]
    rintro ⟨⟨_, _, _, s⟩, _⟩
    exact absurd s (by decide)

end Unresolved

end LynxRecomp
