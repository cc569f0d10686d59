import LynxRecomp.Lib.BitStream
import LynxRecomp.Runtime.Mem

/-!
# The cartridge behind the bus

`lynxexec.c` and `lynxrun.c` each put a model of the cartridge behind their bus: a shift
register for the block number, clocked by SYSCTL1 with IODAT as its data line, and a position
that every read of RCART0 moves on. Everything else on the bus is left to registers and
memory in the one, and to the runtime in the other.
-/

namespace LynxRecomp

variable {η : Type}

def rcart0 : Addr := 0xFCB2
def sysctl1 : Addr := 0xFD87
def iodatAddr : Addr := 0xFD8B
def mapctlAddr : Addr := 0xFFF9

/-- What is loaded before the reset: the boot ROM, the cartridge and its page size -/
structure Loaded where
  bootrom : Fin 512 → Byte
  cart : List Byte
  pagesize : Word

/-- The variables of the cartridge, of the same names in both programs -/
structure CartPort where
  cartBlock : Word
  cartPos : Word
  iodat : Byte
  strobePrev : Word
  deriving DecidableEq, Repr

/-- `cart_read`; a `size_t` is taken to hold the address. -/
def cartRead (l : Loaded) (p : CartPort) : Byte × CartPort :=
  let addr := p.cartBlock.toNat * l.pagesize.toNat + p.cartPos.toNat
  (l.cart.getD addr 0xFF, { p with cartPos := p.cartPos + 1 })

/-- What a write to SYSCTL1 does to the cartridge -/
def CartPort.strobe (v : Byte) (p : CartPort) : CartPort :=
  let strobe : Word := (v &&& 1).setWidth 32
  let p := if strobe ≠ 0 ∧ p.strobePrev = 0 then
    { p with cartBlock := (p.cartBlock <<< 1 ||| ((p.iodat >>> 1) &&& 1).setWidth 32) &&& 0xFF
             cartPos := 0 } else p
  { p with strobePrev := strobe }

/-- `cart_block = cart_pos = 0; strobe_prev = 0` -/
def CartPort.reset (p : CartPort) : CartPort :=
  { p with cartBlock := 0, cartPos := 0, strobePrev := 0 }

/-- Whether a read from `$FE00` on goes to the boot ROM -/
def overlaid (mapctl : Byte) (addr : Addr) : Bool :=
  let asRam := if 0xFFFA ≤ addr then mapctl &&& 0x08 else mapctl &&& 0x04
  decide (0xFE00 ≤ addr) && asRam == 0 && addr != 0xFFF8

def Loaded.rom (l : Loaded) (addr : Addr) : Byte := l.bootrom (Fin.ofNat 512 (addr - 0xFE00).toNat)

namespace Lynxexec

structure State where
  ram : Addr → Byte
  mapctl : Byte
  hwreg : Fin 0x200 → Byte
  port : CartPort

/-- Static storage when the program starts -/
def zeroed : State where
  ram _ := 0
  mapctl := 0
  hwreg _ := 0
  port := { cartBlock := 0, cartPos := 0, iodat := 0, strobePrev := 0 }

def hwregIndex (addr : Addr) : Fin 0x200 := Fin.ofNat 0x200 (addr - 0xFC00).toNat

/-- What `main` sets up before it starts at the reset vector -/
def reset (s : State) : State where
  ram _ := 0
  mapctl := 0
  hwreg := Function.update (fun _ => 0) 0x88 0x01
  port := s.port.reset

def busRead (l : Loaded) (addr : Addr) (s : State) : Byte × State :=
  if 0xFC00 ≤ addr ∧ addr ≤ 0xFDFF then
    if addr = rcart0 then
      let r := cartRead l s.port
      (r.1, { s with port := r.2 })
    else (s.hwreg (hwregIndex addr), s)
  else if addr = mapctlAddr then (s.mapctl, s)
  else if overlaid s.mapctl addr then (l.rom addr, s)
  else (s.ram addr, s)

def busWrite (addr : Addr) (v : Byte) (s : State) : State :=
  if 0xFC00 ≤ addr ∧ addr ≤ 0xFDFF then
    let s := { s with hwreg := Function.update s.hwreg (hwregIndex addr) v }
    if addr = iodatAddr then { s with port := { s.port with iodat := v } }
    else if addr = sysctl1 then { s with port := s.port.strobe v }
    else s
  else if addr = mapctlAddr then { s with mapctl := v }
  else { s with ram := Function.update s.ram addr v }

def bus (l : Loaded) : Bus Addr Byte State where
  read := busRead l
  write := busWrite

end Lynxexec

namespace Lynxrun

structure State (η : Type) where
  hw : Hw η
  mapctl : Byte
  port : CartPort
  flip : Bool

/-- What `setup` resets: the runtime, and the variables of the program itself -/
def setup (s : State η) : State η where
  hw :=
    let hw := lynxTimerInit (lynxMikeyInit (lynxSuzyInit { s.hw with ram := fun _ => 0 }))
    { hw with host := { hw.host with joystick := 0, switches := 0 } }
  mapctl := 0
  port := s.port.reset
  flip := false

def busRead (l : Loaded) (addr : Addr) (s : State η) : Byte × State η :=
  if addr = rcart0 then
    let r := cartRead l s.port
    (r.1, { s with port := r.2 })
  else if addr = mapctlAddr then (s.mapctl, s)
  else if overlaid s.mapctl addr then (l.rom addr, s)
  else
    let r := lynxMemRead addr s.hw
    (r.1, { s with hw := r.2 })

def busWrite (hooks : Hooks η) (addr : Addr) (v : Byte) (s : State η) : State η :=
  if 0xFC00 ≤ addr ∧ addr ≤ 0xFDFF then
    let s :=
      if addr = iodatAddr then { s with port := { s.port with iodat := v } }
      else if addr = sysctl1 then { s with port := s.port.strobe v }
      else if addr = 0xFD94 ∨ addr = 0xFD95 then { s with flip := true }
      else s
    { s with hw := lynxMemWrite hooks addr v s.hw }
  else if addr = mapctlAddr then { s with mapctl := v, hw := lynxMemWrite hooks addr v s.hw }
  else { s with hw := lynxMemWrite hooks addr v s.hw }

def bus (hooks : Hooks η) (l : Loaded) : Bus Addr Byte (State η) where
  read := busRead l
  write := busWrite hooks

end Lynxrun

section Port

/-- The cartridge alone, as a bus with nothing else on it -/
def cartBus (l : Loaded) : Bus Addr Byte CartPort where
  read addr p := if addr = rcart0 then cartRead l p else (0xFF, p)
  write addr v p :=
    if addr = iodatAddr then { p with iodat := v }
    else if addr = sysctl1 then p.strobe v
    else p

theorem cartBus_rcart0 (l : Loaded) (p : CartPort) :
    (cartBus l).read rcart0 p = cartRead l p := by
  simp only [cartBus, if_true]

theorem cartBus_read (l : Loaded) (addr : Addr) (p : CartPort) :
    (cartBus l).access (.read addr) p = if addr = rcart0 then (cartRead l p).2 else p :=
  apply_ite Prod.snd ..

theorem cartBus_write (l : Loaded) (addr : Addr) (v : Byte) (p : CartPort) :
    (cartBus l).access (.write addr v) p =
      if addr = iodatAddr then { p with iodat := v }
      else if addr = sysctl1 then p.strobe v
      else p := rfl

/-- A bus that has the cartridge on it, and keeps its variables in `port`. -/
structure HasCart {σ : Type} (l : Loaded) (bus : Bus Addr Byte σ) (port : σ → CartPort) : Prop where
  access : ∀ a s, port (bus.access a s) = (cartBus l).access a (port s)
  read : ∀ s, (bus.read rcart0 s).1 = (cartRead l (port s)).1

theorem lynxexec_hasCart (l : Loaded) : HasCart l (Lynxexec.bus l) Lynxexec.State.port where
  access a s := by
    cases a with
    | read addr =>
      change (Lynxexec.busRead l addr s).2.port = _
      rw [cartBus_read]
      unfold Lynxexec.busRead
      by_cases cart : addr = rcart0
      · rw [if_pos cart, if_pos cart, if_pos (cart ▸ by decide)]
      · rw [if_neg cart, if_neg cart]
        split
        · rfl
        · split
          · rfl
          · split
            · rfl
            · rfl
    | write addr v =>
      change (Lynxexec.busWrite addr v s).port = _
      rw [cartBus_write]
      unfold Lynxexec.busWrite
      by_cases iodat : addr = iodatAddr
      · rw [if_pos iodat, if_pos iodat, if_pos (iodat ▸ by decide)]
      · rw [if_neg iodat, if_neg iodat]
        by_cases sysctl : addr = sysctl1
        · rw [if_pos sysctl, if_pos sysctl, if_pos (sysctl ▸ by decide)]
        · rw [if_neg sysctl, if_neg sysctl]
          split
          · rfl
          · split
            · rfl
            · rfl
  read s := by
    change (Lynxexec.busRead l rcart0 s).1 = _
    unfold Lynxexec.busRead
    rw [if_pos (by decide), if_pos rfl]

theorem lynxrun_hasCart (hooks : Hooks η) (l : Loaded) :
    HasCart l (Lynxrun.bus hooks l) Lynxrun.State.port where
  access a s := by
    cases a with
    | read addr =>
      change (Lynxrun.busRead l addr s).2.port = _
      rw [cartBus_read]
      unfold Lynxrun.busRead
      by_cases cart : addr = rcart0
      · rw [if_pos cart, if_pos cart]
      · rw [if_neg cart, if_neg cart]
        split
        · rfl
        · split
          · rfl
          · rfl
    | write addr v =>
      change (Lynxrun.busWrite hooks addr v s).port = _
      rw [cartBus_write]
      unfold Lynxrun.busWrite
      by_cases iodat : addr = iodatAddr
      · rw [if_pos iodat, if_pos iodat, if_pos (iodat ▸ by decide)]
      · rw [if_neg iodat, if_neg iodat]
        by_cases sysctl : addr = sysctl1
        · rw [if_pos sysctl, if_pos sysctl, if_pos (sysctl ▸ by decide)]
        · rw [if_neg sysctl, if_neg sysctl]
          split
          · split
            · rfl
            · rfl
          · split
            · rfl
            · rfl
  read s := by
    change (Lynxrun.busRead l rcart0 s).1 = _
    unfold Lynxrun.busRead
    rw [if_pos rfl]

/-- The bytes read from RCART0 depend on the cartridge's variables alone. -/
theorem HasCart.reads {σ : Type} {l : Loaded} {bus : Bus Addr Byte σ} {port : σ → CartPort}
    (cart : HasCart l bus port) (traffic : List (BusAccess Addr Byte)) (s : σ) :
    bus.reads rcart0 traffic s = (cartBus l).reads rcart0 traffic (port s) := by
  apply Bus.reads_project cart.access
  intro s
  rw [cart.read, cartBus_rcart0]

end Port

section Strobe

variable {p : CartPort} {v : Byte}

theorem strobe_told (v : Byte) : (v &&& 1).setWidth 32 = (truth (v.getLsbD 0) : Word) := by
  revert v
  decide

theorem sample_told (iodat : Byte) (block : Word) :
    block <<< 1 ||| ((iodat >>> 1) &&& 1).setWidth 32 = BitStream.push block (iodat.getLsbD 1) := by
  have bit : ((iodat >>> 1) &&& 1).setWidth 32 =
      (BitVec.ofBool (iodat.getLsbD 1)).setWidth 32 := by
    revert iodat
    decide
  rw [bit]
  rfl

/-- A rising edge shifts a sample in and starts the position over. -/
theorem CartPort.strobe_edge (rising : v.getLsbD 0 = true) (low : p.strobePrev = 0) :
    p.strobe v =
      { p with cartBlock := BitStream.push p.cartBlock (p.iodat.getLsbD 1) &&& 0xFF
               cartPos := 0
               strobePrev := 1 } := by
  have high : (v &&& 1).setWidth 32 = (1 : Word) := by
    rw [strobe_told, rising]
    rfl
  unfold CartPort.strobe
  simp only [high, sample_told]
  rw [if_pos ⟨by decide, low⟩]

theorem CartPort.strobe_quiet (quiet : v.getLsbD 0 = false ∨ p.strobePrev ≠ 0) :
    p.strobe v = { p with strobePrev := truth (v.getLsbD 0) } := by
  have flat : ¬ ((truth (v.getLsbD 0) : Word) ≠ 0 ∧ p.strobePrev = 0) := by
    rintro ⟨high, low⟩
    rcases quiet with down | up
    · rw [down] at high
      exact high rfl
    · exact up low
  unfold CartPort.strobe
  simp only [strobe_told]
  rw [if_neg flat]

end Strobe

section Traffic

/-- IODAT after the accesses, the latest first, if it held `held` before -/
def iodatAfter (held : Byte) : List (BusAccess Addr Byte) → Byte
  | [] => held
  | .read _ :: past => iodatAfter held past
  | .write addr v :: past => if addr = iodatAddr then v else iodatAfter held past

/-- Bit 0 of SYSCTL1 after the accesses, if it was low before -/
def strobeAfter : List (BusAccess Addr Byte) → Bool
  | [] => false
  | .read _ :: past => strobeAfter past
  | .write addr v :: past => if addr = sysctl1 then v.getLsbD 0 else strobeAfter past

/-- The access is a rising edge of SYSCTL1 bit 0. -/
def rises (past : List (BusAccess Addr Byte)) : BusAccess Addr Byte → Bool
  | .read _ => false
  | .write addr v => addr == sysctl1 && v.getLsbD 0 && !strobeAfter past

/-- The values of IODAT bit 1 at the rising edges, the latest first -/
def samples (held : Byte) : List (BusAccess Addr Byte) → List Bool
  | [] => []
  | a :: past =>
    if rises past a then (iodatAfter held past).getLsbD 1 :: samples held past
    else samples held past

/-- The reads of RCART0 since the last rising edge -/
def readsSinceEdge : List (BusAccess Addr Byte) → Nat
  | [] => 0
  | .read addr :: past =>
    if addr = rcart0 then readsSinceEdge past + 1 else readsSinceEdge past
  | .write addr v :: past => if rises past (.write addr v) then 0 else readsSinceEdge past

/-- The block register after the samples, the latest first -/
def blockAfter (block : Word) (bits : List Bool) : Word :=
  bits.foldr (fun bit block => BitStream.push block bit &&& 0xFF) block

/-- What the variables of the cartridge are after the accesses `past` from a low strobe -/
structure CartTold (start : CartPort) (past : List (BusAccess Addr Byte)) (p : CartPort) :
    Prop where
  iodat : p.iodat = iodatAfter start.iodat past
  strobe : p.strobePrev = truth (strobeAfter past)
  block : p.cartBlock = blockAfter start.cartBlock (samples start.iodat past)
  pos : samples start.iodat past ≠ [] ∨ start.cartPos = 0 →
    p.cartPos = BitVec.ofNat 32 (readsSinceEdge past)

section Step

variable {l : Loaded} {start p : CartPort} {past : List (BusAccess Addr Byte)}

/-- Without a rising edge, the samples stay as they are. -/
theorem samples_quiet {held : Byte} {a : BusAccess Addr Byte} (quiet : rises past a = false) :
    samples held (a :: past) = samples held past := by
  rw [samples, if_neg (by simp [quiet])]

theorem rises_other {addr : Addr} (other : addr ≠ sysctl1) (v : Byte) :
    rises past (.write addr v) = false := by
  simp [rises, other]

/-- After a write without a rising edge, the block and the position are as they were. -/
theorem CartTold.quiet (told : CartTold start past p) {addr : Addr} {v iodat : Byte}
    {strobe : Word} (quiet : rises past (.write addr v) = false)
    (latched : iodatAfter start.iodat (.write addr v :: past) = iodat)
    (level : truth (strobeAfter (.write addr v :: past)) = strobe) :
    CartTold start (.write addr v :: past) { p with iodat := iodat, strobePrev := strobe } := by
  have kept : readsSinceEdge (.write addr v :: past) = readsSinceEdge past :=
    if_neg (by simp [quiet])
  constructor
  case iodat => exact latched.symm
  case strobe => exact level.symm
  case block =>
    rw [samples_quiet quiet]
    exact told.block
  case pos =>
    rw [samples_quiet quiet, kept]
    exact told.pos

theorem cartTold_read (told : CartTold start past p) (addr : Addr) :
    CartTold start (.read addr :: past) ((cartBus l).read addr p).2 := by
  have same : samples start.iodat (.read addr :: past) = samples start.iodat past :=
    samples_quiet rfl
  by_cases cart : addr = rcart0
  · subst cart
    rw [cartBus_rcart0]
    refine ⟨told.iodat, told.strobe, ?_, ?_⟩
    · rw [same]
      exact told.block
    · rw [same]
      intro counted
      have next : readsSinceEdge (.read rcart0 :: past) = readsSinceEdge past + 1 := if_pos rfl
      rw [next, BitVec.ofNat_add]
      exact congrArg (· + 1) (told.pos counted)
  · have idle : (cartBus l).read addr p = (0xFF, p) := by simp only [cartBus, if_neg cart]
    have next : readsSinceEdge (.read addr :: past) = readsSinceEdge past := if_neg cart
    rw [idle]
    refine ⟨told.iodat, told.strobe, ?_, ?_⟩
    · rw [same]
      exact told.block
    · rw [same, next]
      exact told.pos

theorem cartTold_strobe (told : CartTold start past p) (v : Byte) :
    CartTold start (.write sysctl1 v :: past) (p.strobe v) := by
  have iodat : iodatAfter start.iodat (.write sysctl1 v :: past) = iodatAfter start.iodat past :=
    if_neg (by decide)
  have after : strobeAfter (.write sysctl1 v :: past) = v.getLsbD 0 := if_pos rfl
  have edge : rises past (.write sysctl1 v) = (v.getLsbD 0 && !strobeAfter past) := by
    simp [rises]
  cases rise : rises past (.write sysctl1 v) with
  | true =>
    rcases Bool.and_eq_true_iff.mp (edge.symm.trans rise) with ⟨rising, low⟩
    have before : strobeAfter past = false := by simpa using low
    have sampled : samples start.iodat (.write sysctl1 v :: past) =
        (iodatAfter start.iodat past).getLsbD 1 :: samples start.iodat past := if_pos rise
    have none : readsSinceEdge (.write sysctl1 v :: past) = 0 := if_pos rise
    rw [CartPort.strobe_edge rising (told.strobe.trans (congrArg truth before))]
    refine ⟨iodat ▸ told.iodat, ?_, ?_, ?_⟩
    · rw [after, rising]
      rfl
    · rw [sampled, told.iodat, told.block]
      rfl
    · intro _
      rw [none]
      rfl
  | false =>
    have quiet : v.getLsbD 0 = false ∨ p.strobePrev ≠ 0 := by
      rcases Bool.and_eq_false_iff.mp (edge.symm.trans rise) with falling | high
      · exact .inl falling
      · have before : strobeAfter past = true := by simpa using high
        right
        rw [told.strobe, before]
        decide
    rw [CartPort.strobe_quiet quiet]
    exact told.quiet rise (iodat.trans told.iodat.symm) (congrArg truth after)

theorem cartTold_write (told : CartTold start past p) (addr : Addr) (v : Byte) :
    CartTold start (.write addr v :: past) ((cartBus l).write addr v p) := by
  by_cases sysctl : addr = sysctl1
  · subst sysctl
    have step : (cartBus l).write sysctl1 v p = p.strobe v := by simp [cartBus, sysctl1, iodatAddr]
    rw [step]
    exact cartTold_strobe told v
  · have quiet : rises past (.write addr v) = false := rises_other sysctl v
    have level : strobeAfter (.write addr v :: past) = strobeAfter past := if_neg sysctl
    have strobe : truth (strobeAfter (.write addr v :: past)) = p.strobePrev :=
      (congrArg truth level).trans told.strobe.symm
    by_cases iodat : addr = iodatAddr
    · have step : (cartBus l).write addr v p = { p with iodat := v } := by
        simp only [cartBus, if_pos iodat]
      rw [step]
      exact told.quiet quiet (if_pos iodat) strobe
    · have step : (cartBus l).write addr v p = p := by
        simp only [cartBus, if_neg iodat, if_neg sysctl]
      rw [step]
      exact told.quiet quiet ((if_neg iodat).trans told.iodat.symm) strobe

/-- One access -/
theorem cartTold_access (told : CartTold start past p) (a : BusAccess Addr Byte) :
    CartTold start (a :: past) ((cartBus l).access a p) := by
  cases a with
  | read addr => exact cartTold_read told addr
  | write addr v => exact cartTold_write told addr v

/-- Any traffic -/
theorem cartTold_after (told : CartTold start past p) (traffic : List (BusAccess Addr Byte)) :
    CartTold start (traffic.reverse ++ past) ((cartBus l).after traffic p) := by
  induction traffic generalizing past p with
  | nil => exact told
  | cons a rest ih =>
    rw [List.reverse_cons, List.append_assoc]
    exact ih (cartTold_access told a)

end Step

section Block

variable {block : Word} {bits : List Bool}

theorem getLsbD_mask (i : Nat) : (0xFF : Word).getLsbD i = decide (i < 8) := by
  by_cases inside : i < 32
  · revert i
    decide
  · rw [BitVec.getLsbD_of_ge _ i (Nat.le_of_not_lt inside), decide_eq_false (by omega)]

theorem getLsbD_blockAfter_cons (bit : Bool) (i : Nat) :
    (blockAfter block (bit :: bits)).getLsbD i =
      (decide (i < 8) && (if i = 0 then bit else (blockAfter block bits).getLsbD (i - 1))) := by
  have shifted : blockAfter block (bit :: bits) =
      BitStream.push (blockAfter block bits) bit &&& 0xFF := rfl
  rw [shifted, BitVec.getLsbD_and, BitStream.getLsbD_push, getLsbD_mask]
  by_cases inside : i < 8
  · have wide : i < 32 := by omega
    simp [inside, wide]
  · simp [inside]

/-- Where a sample has come, or nothing was before, the register holds the samples. -/
theorem getLsbD_blockAfter {i : Nat} (sampled : i < bits.length ∨ block = 0) :
    (blockAfter block bits).getLsbD i = (decide (i < 8) && bits.getD i false) := by
  induction bits generalizing i with
  | nil =>
    rcases sampled with outside | zero
    · exact absurd outside (Nat.not_lt_zero i)
    · rw [zero]
      simp [blockAfter]
  | cons bit bits ih =>
    rw [getLsbD_blockAfter_cons]
    cases i with
    | zero => rfl
    | succ i =>
      have earlier : i < bits.length ∨ block = 0 := sampled.imp Nat.lt_of_succ_lt_succ id
      rw [if_neg i.succ_ne_zero, Nat.add_sub_cancel, ih earlier, List.getD_cons_succ,
        ← Bool.and_assoc]
      congr 1
      rw [← Bool.decide_and]
      congr 1
      rw [eq_iff_iff]
      omega

/-- The last eight samples, the most significant first -/
theorem blockAfter_value (full : 8 ≤ bits.length ∨ block = 0) :
    blockAfter block bits = BitStream.value 0 (bits.take 8).reverse := by
  apply BitVec.eq_of_getLsbD_eq
  intro i inside
  rw [BitStream.getLsbD_value_reverse, decide_eq_true inside, Bool.true_and,
    List.getD_eq_getElem?_getD, List.getElem?_take]
  by_cases low : i < 8
  · have sampled : i < bits.length ∨ block = 0 := full.imp (Nat.lt_of_lt_of_le low) id
    rw [getLsbD_blockAfter sampled, decide_eq_true low, if_pos low, Bool.true_and,
      List.getD_eq_getElem?_getD]
  · rw [if_neg low]
    cases bits with
    | nil =>
      rcases full with eight | zero
      · exact absurd eight (by decide)
      · rw [zero]
        exact BitVec.getLsbD_zero
    | cons bit bits =>
      rw [getLsbD_blockAfter_cons, decide_eq_false low]
      rfl

end Block

end Traffic

section Clocking

variable {l : Loaded} {p : CartPort}

/-- The accesses that reach the cartridge -/
def cartAccess : BusAccess Addr Byte → Bool
  | .read addr => addr == rcart0
  | .write addr _ => addr == iodatAddr || addr == sysctl1

/-- Bits clocked in: each on IODAT before SYSCTL1 bit 0 goes up and down again. -/
inductive Clocks : List Bool → List (BusAccess Addr Byte) → Prop where
  | nil : Clocks [] []
  | bit {bits : List Bool} {rest : List (BusAccess Addr Byte)} (data up down : Byte) :
    up.getLsbD 0 = true → down.getLsbD 0 = false → Clocks bits rest →
      Clocks (data.getLsbD 1 :: bits)
        (.write iodatAddr data :: .write sysctl1 up :: .write sysctl1 down :: rest)

theorem cartBus_idle (a : BusAccess Addr Byte) (elsewhere : cartAccess a = false)
    (p : CartPort) : (cartBus l).access a p = p := by
  cases a with
  | read addr =>
    have other : addr ≠ rcart0 := beq_eq_false_iff_ne.mp elsewhere
    rw [cartBus_read, if_neg other]
  | write addr v =>
    rcases Bool.or_eq_false_iff.mp elsewhere with ⟨iodat, sysctl⟩
    rw [cartBus_write, if_neg (beq_eq_false_iff_ne.mp iodat),
      if_neg (beq_eq_false_iff_ne.mp sysctl)]

/-- Clocking in bits from a low strobe -/
theorem cartBus_clocks {bits : List Bool} {traffic : List (BusAccess Addr Byte)}
    (clocks : Clocks bits traffic) (low : p.strobePrev = 0) :
    ((cartBus l).after traffic p).cartBlock = blockAfter p.cartBlock bits.reverse ∧
      (bits ≠ [] ∨ p.cartPos = 0 → ((cartBus l).after traffic p).cartPos = 0) := by
  induction clocks generalizing p with
  | nil => exact ⟨rfl, fun start => start.resolve_left fun some_ => some_ rfl⟩
  | @bit bits rest data up down rising falling clocks ih =>
    let q : CartPort :=
      { cartBlock := BitStream.push p.cartBlock (data.getLsbD 1) &&& 0xFF
        cartPos := 0
        iodat := data
        strobePrev := 0 }
    have clocked : ((({ p with iodat := data } : CartPort).strobe up).strobe down) = q := by
      rw [@CartPort.strobe_edge { p with iodat := data } up rising low,
        CartPort.strobe_quiet (.inl falling), falling]
      rfl
    have step : (cartBus l).after (.write iodatAddr data :: .write sysctl1 up ::
        .write sysctl1 down :: rest) p = (cartBus l).after rest q := by
      rw [← clocked]
      rfl
    rcases @ih q rfl with ⟨block, pos⟩
    rw [step]
    refine ⟨?_, fun _ => pos (.inr rfl)⟩
    rw [block, List.reverse_cons]
    unfold blockAfter
    rw [List.foldr_append]
    rfl

/-- Reading on from a position -/
theorem cartBus_reads (n : Nat) (p : CartPort) (fits : p.cartPos.toNat + n ≤ 2 ^ 32) :
    (cartBus l).reads rcart0 (List.replicate n (.read rcart0)) p =
      (List.range n).map fun k =>
        l.cart.getD (p.cartBlock.toNat * l.pagesize.toNat + (p.cartPos.toNat + k)) 0xFF := by
  induction n generalizing p with
  | zero => rfl
  | succ n ih =>
    have moved : (p.cartPos + 1).toNat = p.cartPos.toNat + 1 ∨ n = 0 := by
      by_cases last : n = 0
      · exact .inr last
      · left
        rw [BitVec.toNat_add]
        exact Nat.mod_eq_of_lt (by simp; omega)
    have first : (cartBus l).reads rcart0 (List.replicate (n + 1) (.read rcart0)) p =
        (cartRead l p).1 :: (cartBus l).reads rcart0 (List.replicate n (.read rcart0))
          (cartRead l p).2 := by
      rw [List.replicate_succ, Bus.reads, if_pos rfl, cartBus_rcart0]
    rw [first, List.range_succ_eq_map, List.map_cons, List.map_map]
    rcases moved with next | none
    · have fits' : (cartRead l p).2.cartPos.toNat + n ≤ 2 ^ 32 := by
        change (p.cartPos + 1).toNat + n ≤ 2 ^ 32
        omega
      have position (k : Nat) : (p.cartPos + 1).toNat + k = p.cartPos.toNat + k.succ := by omega
      rw [ih _ fits']
      apply congrArg (List.cons _)
      apply List.map_congr_left
      intro k _
      exact congrArg (fun i => l.cart.getD (p.cartBlock.toNat * l.pagesize.toNat + i) 0xFF)
        (position k)
    · subst none
      rfl

/-- Eight bits clocked in and some bytes read, with other accesses in between -/
theorem cartBus_clocked {b : Byte} {clock reading : List (BusAccess Addr Byte)} {n : Nat}
    (low : p.strobePrev = 0) (clocks : Clocks (BitStream.msbFirst b) (clock.filter cartAccess))
    (reads : reading.filter cartAccess = List.replicate n (.read rcart0)) (fits : n ≤ 2 ^ 32) :
    (cartBus l).reads rcart0 reading ((cartBus l).after clock p) =
      (List.range n).map fun k => l.cart.getD (b.toNat * l.pagesize.toNat + k) 0xFF := by
  have eight : (BitStream.msbFirst b).reverse.length = 8 := by simp
  have bits : BitStream.msbFirst b ≠ [] := List.ne_nil_of_length_pos (by simp)
  rcases cartBus_clocks (l := l) clocks low with ⟨block, pos⟩
  have shifted : blockAfter p.cartBlock (BitStream.msbFirst b).reverse = b.setWidth 32 := by
    rw [blockAfter_value (.inl (Nat.le_of_eq eight.symm)),
      List.take_of_length_le (Nat.le_of_eq eight), List.reverse_reverse]
    exact BitStream.value_msbFirst b
  rw [Bus.reads_filter cartBus_idle rfl, Bus.after_filter cartBus_idle clock, reads]
  have position := pos (.inl bits)
  have value : ((cartBus l).after (clock.filter cartAccess) p).cartBlock.toNat = b.toNat := by
    rw [block, shifted]
    exact BitVec.toNat_setWidth_of_le (by decide)
  have zero : ((cartBus l).after (clock.filter cartAccess) p).cartPos.toNat = 0 :=
    congrArg BitVec.toNat position
  rw [cartBus_reads n _ (by omega), value, zero]
  simp only [Nat.zero_add]

end Clocking

section Addressed

/-- The cartridge is addressed as its interface says, over any traffic on the bus. -/
structure CartAddressed {σ : Type} (l : Loaded) (bus : Bus Addr Byte σ) (port : σ → CartPort)
    (reset : σ → σ) : Prop where
  block : ∀ s traffic,
    (port (bus.after traffic (reset s))).cartBlock =
      BitStream.value 0 ((samples (port s).iodat traffic.reverse).take 8).reverse
  byte : ∀ s traffic, readsSinceEdge traffic.reverse < 2 ^ 32 →
    (bus.read rcart0 (bus.after traffic (reset s))).1 =
      l.cart.getD ((port (bus.after traffic (reset s))).cartBlock.toNat * l.pagesize.toNat +
        readsSinceEdge traffic.reverse) 0xFF
  clocked : ∀ s (b : Byte) clock reading n, (port s).strobePrev = 0 →
    Clocks (BitStream.msbFirst b) (clock.filter cartAccess) →
      reading.filter cartAccess = List.replicate n (.read rcart0) → n ≤ 2 ^ 32 →
        bus.reads rcart0 reading (bus.after clock s) =
          (List.range n).map fun k => l.cart.getD (b.toNat * l.pagesize.toNat + k) 0xFF

theorem HasCart.addressed {σ : Type} {l : Loaded} {bus : Bus Addr Byte σ} {port : σ → CartPort}
    {reset : σ → σ} (cart : HasCart l bus port) (resets : ∀ s, port (reset s) = (port s).reset) :
    CartAddressed l bus port reset := by
  have told (s : σ) (traffic : List (BusAccess Addr Byte)) :
      CartTold (port s).reset traffic.reverse (port (bus.after traffic (reset s))) := by
    have initially : CartTold (port s).reset [] (port s).reset :=
      ⟨rfl, rfl, rfl, fun _ => rfl⟩
    have finally_ := cartTold_after (l := l) initially traffic
    rw [List.append_nil] at finally_
    rw [Bus.after_project cart.access, resets]
    exact finally_
  constructor
  case block =>
    intro s traffic
    exact (told s traffic).block.trans (blockAfter_value (.inr rfl))
  case byte =>
    intro s traffic few
    have position : (port (bus.after traffic (reset s))).cartPos.toNat =
        readsSinceEdge traffic.reverse := by
      rw [(told s traffic).pos (.inr rfl)]
      exact Nat.mod_eq_of_lt few
    rw [cart.read, cartRead, position]
  case clocked =>
    intro s b clock reading n low clocks reads fits
    rw [cart.reads, Bus.after_project cart.access]
    exact cartBus_clocked low clocks reads fits

/-- Both programs address the cartridge so, and with the same variables they read the same from
it and keep the same variables. -/
theorem cart_addressed (hooks : Hooks η) (l : Loaded) :
    CartAddressed l (Lynxexec.bus l) Lynxexec.State.port Lynxexec.reset ∧
      CartAddressed l (Lynxrun.bus hooks l) Lynxrun.State.port Lynxrun.setup ∧
      ∀ (s : Lynxexec.State) (t : Lynxrun.State η) traffic, s.port = t.port →
        (Lynxexec.bus l).reads rcart0 traffic s = (Lynxrun.bus hooks l).reads rcart0 traffic t ∧
          ((Lynxexec.bus l).after traffic s).port =
            ((Lynxrun.bus hooks l).after traffic t).port := by
  have exec := lynxexec_hasCart l
  have run := lynxrun_hasCart hooks l
  refine ⟨exec.addressed fun _ => rfl, run.addressed fun _ => rfl, ?_⟩
  intro s t traffic same
  rw [exec.reads, run.reads, Bus.after_project exec.access, Bus.after_project run.access, same]
  exact ⟨rfl, rfl⟩

/-- The plainest way to clock bits in -/
def clockIn (bits : List Bool) : List (BusAccess Addr Byte) :=
  bits.flatMap fun bit =>
    [.write iodatAddr (truth bit <<< 1), .write sysctl1 1, .write sysctl1 0]

theorem clocks_clockIn (bits : List Bool) : Clocks bits (clockIn bits) := by
  induction bits with
  | nil => exact .nil
  | cons bit bits ih =>
    have data : (truth bit <<< 1 : Byte).getLsbD 1 = bit := by cases bit <;> rfl
    have first : Clocks ((truth bit <<< 1 : Byte).getLsbD 1 :: bits) (clockIn (bit :: bits)) :=
      .bit _ 1 0 rfl rfl ih
    rw [data] at first
    exact first

/-- Block 1 of a cartridge with pages of two bytes, read with a write to memory in between -/
theorem cart_addressed_small :
    let l : Loaded := { bootrom := fun _ => 0, cart := [10, 11, 12, 13], pagesize := 2 }
    (Lynxexec.bus l).reads rcart0 [.read rcart0, .write 0x1234 7, .read rcart0]
      ((Lynxexec.bus l).after (clockIn (BitStream.msbFirst (1 : Byte)))
        (Lynxexec.reset Lynxexec.zeroed)) = [12, 13] := by
  intro l
  have own : (clockIn (BitStream.msbFirst (1 : Byte))).filter cartAccess =
      clockIn (BitStream.msbFirst (1 : Byte)) := rfl
  exact (@cart_addressed Unit Hooks.none l).1.clocked (Lynxexec.reset Lynxexec.zeroed) 1 _ _ 2
    rfl (own.symm ▸ clocks_clockIn _) rfl (by decide)

end Addressed

end LynxRecomp
