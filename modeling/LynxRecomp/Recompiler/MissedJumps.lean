import LynxRecomp.Recompiler.JumpTables

/-!
# Computed jumps that are missed

No pointer that discovery does not walk up to is safe: for each there is an image in which the
jump through it leads to no routine of the table. The image is all of memory, with the jump, the
run of pointers and nothing else; all pointers but the one in question lead back to the jump.
-/

namespace LynxRecomp

variable {η : Type}

section Missed

/-- An image of the whole address space -/
def Image.ofMemory (g : Addr → Byte) : Image :=
  ⟨0, (List.range 0x10000).map fun n => g (BitVec.ofNat 16 n)⟩

variable {g : Addr → Byte}

theorem off_ofMemory (b : Addr) : (Image.ofMemory g).off b = b.toNat := by
  exact congrArg BitVec.toNat (BitVec.sub_zero b)

theorem length_ofMemory : (Image.ofMemory g).rom.length = 0x10000 := by
  rw [Image.ofMemory, List.length_map, List.length_range]

theorem inImage_ofMemory (b : Addr) : inImage (Image.ofMemory g) b = true := by
  have small := b.isLt
  have offset := @off_ofMemory g b
  rw [Image.off] at offset
  rw [inImage, Bool.and_eq_true, decide_eq_true_iff, decide_eq_true_iff, length_ofMemory, offset]
  exact ⟨Nat.zero_le _, small⟩

theorem byte_ofMemory (b : Addr) :
    (Image.ofMemory g).byte ((Image.ofMemory g).off b) = g b := by
  have small := b.isLt
  rw [off_ofMemory, Image.byte, Image.ofMemory, List.getD_eq_getElem?_getD, List.getElem?_map,
    List.getElem?_range small]
  exact congrArg g (by rw [BitVec.ofNat_toNat, BitVec.setWidth_eq])

theorem pointer_ofMemory (b : Addr) :
    (Image.ofMemory g).pointer b = word16 (g b) (g (b + 1)) := by
  rw [Image.pointer, byte_ofMemory, byte_ofMemory]

theorem imgRd16_ofMemory {b : Addr} (below : b ≠ 0xFFFF) :
    imgRd16 (Image.ofMemory g) b = word16 (g b) (g (b + 1)) := by
  rw [imgRd16_eq_pointer (inImage_ofMemory b) (inImage_ofMemory _) below, pointer_ofMemory]

/-- At `$FFFF`, discovery looks for the high byte behind the image. -/
theorem imgRd16_ofMemory_top : imgRd16 (Image.ofMemory g) 0xFFFF = word16 (g 0xFFFF) 0 := by
  have behind : (Image.ofMemory g).byte ((Image.ofMemory g).off 0xFFFF + 1) = 0 := by
    rw [off_ofMemory, Image.byte]
    have none : (Image.ofMemory g).rom[(0xFFFF : Addr).toNat + 1]? = none :=
      List.getElem?_eq_none (Nat.le_of_eq length_ofMemory)
    rw [List.getD_eq_getElem?_getD, none]
    rfl
  rw [imgRd16, inImage_ofMemory, inImage_ofMemory, behind, byte_ofMemory]
  rfl

theorem decode_ofMemory {b : Addr} (room : b.toNat + 2 < 0x10000) :
    (Image.ofMemory g).decode b = m65c02Decode (g b) (g (b + 1)) (g (b + 2)) b := by
  have first : (Image.ofMemory g).off b + 1 = (Image.ofMemory g).off (b + 1) := by
    rw [off_ofMemory, off_ofMemory]
    bv_omega
  have second : (Image.ofMemory g).off b + 2 = (Image.ofMemory g).off (b + 2) := by
    rw [off_ofMemory, off_ofMemory]
    bv_omega
  rw [Image.decode, first, second, byte_ofMemory, byte_ofMemory, byte_ofMemory]

/-- A machine in which no register reads as 0, nor RAM but at `$FFFF`. -/
def filledHw (own : η) : Hw η :=
  { Hw.zeroed own with
    ram := fun b => if b = 0xFFFF then 0 else 0x60
    suzy := { reg := fun _ => 0x60, busy := 1 }
    mikey := fun _ => 0x60
    timer := { phase := fun _ => 0, irqLatch := 0x60 }
    serial := { ctrl := 0, statusErr := 0, rxFifo := fun _ => 0x60, rxHead := 0, rxTail := 1 }
    host := { (Hw.zeroed own).host with joystick := 0x60, switches := 0x60 } }

theorem filledHw_suzy (own : η) (off : Byte) : lynxSuzyRead off (filledHw own) ≠ 0 := by
  have busy : (truth ((filledHw own).suzy.busy != 0) : Byte) = 1 := rfl
  have full : (filledHw own).suzy.reg off = 0x60 := rfl
  have buttons : (filledHw own).host.joystick = 0x60 ∧ (filledHw own).host.switches = 0x60 :=
    ⟨rfl, rfl⟩
  unfold lynxSuzyRead
  rw [busy, full, buttons.1, buttons.2]
  split_ifs <;> decide

theorem filledHw_mikey (own : η) (off : Byte) : (lynxMikeyRead off (filledHw own)).1 ≠ 0 := by
  have serial : (lynxSerialRead 0x8D (filledHw own)).1 = 0x60 := rfl
  have control : (lynxSerialRead 0x8C (filledHw own)).1 =
      (serctlTxrdy ||| serctlTxempty ||| serctlRxrdy ||| 0 &&&
        (serctlOverrun ||| serctlParerr ||| serctlFramerr ||| serctlRxbrk)) := rfl
  unfold lynxMikeyRead
  split_ifs with irq port
  · change (0x60 : Byte) ≠ 0
    decide
  · rcases port with rfl | rfl
    · rw [mikeySerctl, control]
      decide
    · rw [mikeySerdat, serial]
      decide
  · change (0x60 : Byte) ≠ 0
    decide

theorem filledHw_read (own : η) {b : Addr} (below : b ≠ 0xFFFF) :
    (lynxMemRead b (filledHw own)).1 ≠ 0 := by
  unfold lynxMemRead
  split_ifs
  · exact filledHw_suzy own _
  · exact filledHw_mikey own _
  · change (if b = 0xFFFF then (0 : Byte) else 0x60) ≠ 0
    rw [if_neg below]
    decide

/-- A place for the jump, away from 128 pointers at `a`; its low byte is 0. -/
def jumpPlace (a : Addr) : Addr := if a < 0x8000 then 0xC000 else 0x4000

theorem jumpPlace_apart (a : Addr) {k : Nat} (short : k < 128) :
    3 ≤ (entryAt a k - jumpPlace a).toNat ∧ 3 ≤ (entryAt a k + 1 - jumpPlace a).toNat := by
  unfold entryAt jumpPlace
  split_ifs <;> constructor <;> bv_omega

/-- A jump through `a` at its place, and pointers to it at `a` and all around. Only pointer
number `e` is made of `lo` and `hi`. -/
def missedMemory (op : Byte) (a : Addr) (e : Nat) (lo hi : Byte) : Addr → Byte := fun b =>
  if b = jumpPlace a then op
  else if b = jumpPlace a + 1 then a.setWidth 8
  else if b = jumpPlace a + 2 then (a >>> 8).setWidth 8
  else if b = entryAt a e then lo
  else if b = entryAt a e + 1 then hi
  else if (b - a).toNat % 2 = 0 then 0
  else (jumpPlace a >>> 8).setWidth 8

theorem missedMemory_away (op : Byte) {a : Addr} {e : Nat} (lo hi : Byte) {b : Addr}
    (apart : 3 ≤ (b - jumpPlace a).toNat) :
    missedMemory op a e lo hi b =
      if b = entryAt a e then lo
      else if b = entryAt a e + 1 then hi
      else if (b - a).toNat % 2 = 0 then 0
      else (jumpPlace a >>> 8).setWidth 8 := by
  unfold missedMemory
  rw [if_neg (by bv_omega), if_neg (by bv_omega), if_neg (by bv_omega)]

theorem missedMemory_last (op : Byte) (a : Addr) {e : Nat} (lo hi : Byte) (short : e < 128) :
    missedMemory op a e lo hi (entryAt a e) = lo ∧
      missedMemory op a e lo hi (entryAt a e + 1) = hi := by
  obtain ⟨low, high⟩ := jumpPlace_apart a short
  rw [missedMemory_away _ _ _ low, missedMemory_away _ _ _ high]
  exact ⟨if_pos rfl, by rw [if_neg (by bv_omega), if_pos rfl]⟩

theorem missedMemory_before (op : Byte) (a : Addr) {e k : Nat} (lo hi : Byte) (short : e < 128)
    (before : k < e) :
    missedMemory op a e lo hi (entryAt a k) = 0 ∧
      missedMemory op a e lo hi (entryAt a k + 1) = (jumpPlace a >>> 8).setWidth 8 := by
  obtain ⟨low, high⟩ := jumpPlace_apart a (Nat.lt_trans before short)
  rw [missedMemory_away _ _ _ low, missedMemory_away _ _ _ high]
  unfold entryAt
  constructor
  · rw [if_neg (by bv_omega), if_neg (by bv_omega), if_pos (by bv_omega)]
  · rw [if_neg (by bv_omega), if_neg (by bv_omega), if_neg (by bv_omega)]

theorem missedMemory_jump (op : Byte) (a : Addr) (e : Nat) (lo hi : Byte) :
    missedMemory op a e lo hi (jumpPlace a) = op ∧
      missedMemory op a e lo hi (jumpPlace a + 1) = a.setWidth 8 ∧
      missedMemory op a e lo hi (jumpPlace a + 2) = (a >>> 8).setWidth 8 := by
  unfold missedMemory
  refine ⟨if_pos rfl, ?_, ?_⟩
  · rw [if_neg (by bv_omega), if_pos rfl]
  · rw [if_neg (by bv_omega), if_neg (by bv_omega), if_pos rfl]

theorem jumpPlace_facts (a : Addr) :
    (jumpPlace a).toNat + 3 < 0x10000 ∧ jumpPlace a ≠ 0 ∧ (jumpPlace a).setWidth 8 = (0 : Byte) ∧
      jumpPlace a ≠ 0x6000 := by
  unfold jumpPlace
  split_ifs <;> decide

/-- The opcode of a computed jump -/
def jumpOp (mode : AddrMode) : Byte := if mode = .ind then 0x6C else 0x7C

theorem AddrMode.Selects.decode {mode : AddrMode} {x : Byte} {e : Nat} (selects : mode.Selects x e)
    (m1 m2 : Byte) (pc : Addr) :
    m65c02Decode (jumpOp mode) m1 m2 pc =
      { pc := pc, opcode := jumpOp mode, len := 3, mode := mode, cflow := .jmp, mnemonic := .jmp,
        operand := word16 m1 m2, target := 0 } := by
  cases selects <;> rfl

/-- An image with a computed jump to itself, except by pointer number `e` -/
abbrev missedImage (mode : AddrMode) (a : Addr) (e : Nat) (lo hi : Byte) : Image :=
  .ofMemory (missedMemory (jumpOp mode) a e lo hi)

variable {mode : AddrMode} {a : Addr} {x : Byte} {e : Nat} {lo hi : Byte}

theorem missedImage_decode (selects : mode.Selects x e) :
    (missedImage mode a e lo hi).decode (jumpPlace a) =
      { pc := jumpPlace a, opcode := jumpOp mode, len := 3, mode := mode, cflow := .jmp,
        mnemonic := .jmp, operand := a, target := 0 } := by
  obtain ⟨room, _⟩ := jumpPlace_facts a
  obtain ⟨op, low, high⟩ := missedMemory_jump (jumpOp mode) a e lo hi
  rw [decode_ofMemory (by omega), op, low, high, selects.decode, word16_split]

/-- A routine that begins with a terminator is this instruction alone. -/
theorem sweep_terminator {img : Image} {fs : Addr} (inside : inImage img fs = true)
    (whole : (img.decode fs).len ≤ img.avail fs) (up : fs < (img.decode fs).next)
    (stop : (img.decode fs).terminator = true)
    (kept : raiseMaxt img (img.decode fs) (img.decode fs).next fs = fs) :
    sweep img fs = [⟨img.decode fs, (img.decode fs).next⟩] := by
  have raised : raiseEnd fs (img.decode fs).next = (img.decode fs).next := if_pos up
  rw [sweep, sweepFrom, if_pos ⟨inside, by rw [BitVec.sub_self]; decide⟩]
  simp only [if_neg (Nat.not_lt.mpr whole), raised, kept]
  exact if_pos ⟨stop, up⟩

theorem missedImage_sweep (selects : mode.Selects x e) :
    sweep (missedImage mode a e lo hi) (jumpPlace a) =
      [⟨(missedImage mode a e lo hi).decode (jumpPlace a), jumpPlace a + 3⟩] := by
  have decoded := @missedImage_decode mode a x e lo hi selects
  obtain ⟨room, _⟩ := jumpPlace_facts a
  have next : ((missedImage mode a e lo hi).decode (jumpPlace a)).next = jumpPlace a + 3 := by
    rw [decoded]
    rfl
  have alone := @sweep_terminator (missedImage mode a e lo hi) (jumpPlace a) (inImage_ofMemory _)
  rw [next] at alone
  apply alone
  · rw [Image.avail, length_ofMemory, off_ofMemory, decoded]
    simp only
    omega
  · bv_omega
  · rw [decoded]
    rfl
  · simp only [raiseMaxt, decoded]
    exact if_neg fun h => h.1 rfl

/-- Pointer number `e`, made of `lo` and `hi`, is not walked, and is neither zero nor the place of
the jump. -/
structure Missed (a : Addr) (e : Nat) (lo hi : Byte) : Prop where
  short : e < 128
  unwalked : ¬ Walked a e
  top : entryAt a e = 0xFFFF → lo = 0 ∧ hi = 0x60
  low : entryAt a e ≠ 0xFFFF → lo ≠ 0

theorem Missed.pointer (missed : Missed a e lo hi) :
    word16 lo hi ≠ 0 ∧ word16 lo hi ≠ jumpPlace a := by
  obtain ⟨_, _, zero, other⟩ := jumpPlace_facts a
  by_cases top : entryAt a e = 0xFFFF
  · obtain ⟨rfl, rfl⟩ := missed.top top
    exact ⟨by decide, fun same => other same.symm⟩
  · have low := missed.low top
    constructor
    · exact fun same => low ((word16_low lo hi).symm.trans (congrArg _ same))
    · exact fun same => low ((word16_low lo hi).symm.trans ((congrArg _ same).trans zero))

theorem Missed.pointer_last (missed : Missed a e lo hi) :
    (missedImage mode a e lo hi).pointer (entryAt a e) = word16 lo hi := by
  obtain ⟨low, high⟩ := missedMemory_last (jumpOp mode) a lo hi missed.short
  rw [pointer_ofMemory, low, high]

theorem Missed.pointer_before (missed : Missed a e lo hi) {k : Nat} (before : k < e) :
    (missedImage mode a e lo hi).pointer (entryAt a k) = jumpPlace a := by
  obtain ⟨low, high⟩ := missedMemory_before (jumpOp mode) a lo hi missed.short before
  obtain ⟨_, _, zero, _⟩ := jumpPlace_facts a
  rw [pointer_ofMemory, low, high, ← zero, word16_split]

theorem Missed.run (missed : Missed a e lo hi) : (missedImage mode a e lo hi).PointerRun a e := by
  intro k le
  refine ⟨inImage_ofMemory _, inImage_ofMemory _, ?_, inImage_ofMemory _⟩
  rcases Nat.lt_or_eq_of_le le with before | rfl
  · rw [missed.pointer_before before]
    exact (jumpPlace_facts a).2.1
  · rw [missed.pointer_last]
    exact missed.pointer.1

/-- Discovery reads 0 from a pointer of the run across the top of memory. -/
theorem Missed.read_top (missed : Missed a e lo hi) {k : Nat} (le : k ≤ e)
    (top : entryAt a k = 0xFFFF) : imgRd16 (missedImage mode a e lo hi) (entryAt a k) = 0 := by
  rcases Nat.lt_or_eq_of_le le with before | rfl
  · have low := (missedMemory_before (jumpOp mode) a lo hi missed.short before).1
    rw [top] at low ⊢
    rw [imgRd16_ofMemory_top, low]
    rfl
  · have low := (missedMemory_last (jumpOp mode) a lo hi missed.short).1
    rw [top] at low ⊢
    rw [imgRd16_ofMemory_top, low, (missed.top top).1]
    rfl

/-- The walk of a jump table reads the pointers one after the other, up to the first that is 0. -/
theorem mem_jumpTable_read {img : Image} {n : Nat} {t : Addr} (member : t ∈ jumpTable img n a) :
    ∃ k < n, t = imgRd16 img (entryAt a k) ∧ ∀ j ≤ k, imgRd16 img (entryAt a j) ≠ 0 := by
  induction n generalizing a with
  | zero => exact absurd member List.not_mem_nil
  | succ n ih =>
    rw [jumpTable] at member
    split at member
    · exact absurd member List.not_mem_nil
    · rename_i valid
      have first : imgRd16 img (entryAt a 0) ≠ 0 := by
        rw [entryAt_zero]
        exact fun zero => valid (.inl zero)
      rcases List.mem_cons.mp member with rfl | later
      · refine ⟨0, Nat.succ_pos n, by rw [entryAt_zero], fun j le => ?_⟩
        rw [Nat.le_zero.mp le]
        exact first
      · obtain ⟨k, small, read, nonzero⟩ := ih later
        refine ⟨k + 1, Nat.succ_lt_succ small, by rw [entryAt_succ]; exact read, fun j le => ?_⟩
        cases j with
        | zero => exact first
        | succ j =>
          rw [entryAt_succ]
          exact nonzero j (Nat.le_of_succ_le_succ le)

/-- The walk of the table finds nothing but the jump. -/
theorem Missed.table (missed : Missed a e lo hi) :
    ∀ t ∈ jumpTable (missedImage mode a e lo hi) 64 a, t = jumpPlace a := by
  intro t member
  obtain ⟨k, small, read, nonzero⟩ := mem_jumpTable_read member
  rw [read]
  by_cases inner : ∀ j ≤ e, j ≤ k → entryAt a j ≠ 0xFFFF
  · have before : k < e := by
      by_contra beyond
      have le := Nat.le_of_not_lt beyond
      exact missed.unwalked ⟨Nat.lt_of_le_of_lt le small, fun j within =>
        inner j within (Nat.le_trans within le)⟩
    rw [imgRd16_ofMemory (inner k (Nat.le_of_lt before) (Nat.le_refl k)), ← pointer_ofMemory,
      missed.pointer_before before]
  · push Not at inner
    obtain ⟨j, within, le, top⟩ := inner
    exact (nonzero j le (missed.read_top within top)).elim

theorem Missed.ind_top (missed : Missed a 0 lo hi) : a = 0xFFFF := by
  by_contra below
  refine missed.unwalked ⟨by decide, fun j within => ?_⟩
  rw [Nat.le_zero.mp within, entryAt_zero]
  exact below

/-- The routine of the jump leads to itself, and with a pointer at `$FFFF` to `$0000`. -/
theorem Missed.entries (missed : Missed a e lo hi) (selects : mode.Selects x e) :
    ∀ t ∈ routineEntries (missedImage mode a e lo hi) (jumpPlace a),
      t = jumpPlace a ∨ t = 0 ∧ mode = .ind := by
  intro t member
  rw [routineEntries, missedImage_sweep selects, List.flatMap_singleton, Visit.pushes,
    missedImage_decode selects] at member
  simp only [ne_eq, not_true_eq_false, false_and, if_false, List.nil_append] at member
  cases selects with
  | ind =>
    obtain rfl := missed.ind_top
    have read : imgRd16 (missedImage .ind 0xFFFF 0 lo hi) (entryAt 0xFFFF 0) = 0 :=
      missed.read_top (Nat.le_refl 0) (entryAt_zero _)
    rw [entryAt_zero] at read
    simp only [read, inImage_ofMemory, if_true, List.mem_singleton] at member
    exact .inr ⟨member, rfl⟩
  | iax _ => exact .inl (missed.table t member)

/-- With a pointer at `$FFFF` the routine at `$0000` is an `RTS`. -/
theorem Missed.entries_zero (missed : Missed a 0 lo hi) :
    routineEntries (missedImage .ind a 0 lo hi) 0 = [] := by
  obtain rfl := missed.ind_top
  have high := (missedMemory_last (jumpOp .ind) 0xFFFF lo hi missed.short).2
  have byte : missedMemory (jumpOp .ind) 0xFFFF 0 lo hi 0 = 0x60 :=
    high.trans (missed.top (entryAt_zero _)).2
  have decoded : (missedImage .ind 0xFFFF 0 lo hi).decode 0 =
      m65c02Decode 0x60 (missedMemory (jumpOp .ind) 0xFFFF 0 lo hi 1)
        (missedMemory (jumpOp .ind) 0xFFFF 0 lo hi 2) 0 := by
    rw [decode_ofMemory (by decide), byte]
    rfl
  have alone := @sweep_terminator (missedImage .ind 0xFFFF 0 lo hi) 0 (inImage_ofMemory _)
  rw [decoded] at alone
  rw [routineEntries, alone]
  · rfl
  · rw [Image.avail, length_ofMemory, off_ofMemory]
    change 1 ≤ 0x10000 - (0 : Addr).toNat
    decide
  · change (0 : Addr) < 0 + BitVec.ofNat 16 1
    decide
  · rfl
  · rfl

/-- Discovery knows no other starts. -/
theorem Missed.entry (missed : Missed a e lo hi) (selects : mode.Selects x e) {t : Addr}
    (entry : Entry (missedImage mode a e lo hi) [jumpPlace a] t) :
    t = jumpPlace a ∨ t = 0 ∧ mode = .ind := by
  refine Worklist.Reach.of_closed (I := fun t => t = jumpPlace a ∨ t = 0 ∧ mode = .ind) entry ?_ ?_
  · exact fun b seed => .inl (List.mem_singleton.mp (List.mem_filter.mp seed).1)
  · rintro b (rfl | ⟨rfl, rfl⟩) c member
    · exact missed.entries selects c member
    · cases selects with
      | ind =>
        rw [missed.entries_zero] at member
        exact absurd member List.not_mem_nil

theorem Missed.fits (missed : Missed a e lo hi) (selects : mode.Selects x e) :
    Worklist.Fits maxFuncs (routineEntries (missedImage mode a e lo hi))
      ([jumpPlace a].filter (inImage (missedImage mode a e lo hi))) := by
  refine ⟨[jumpPlace a, 0], Nat.le_add_left 2 1022, fun t reach => ?_⟩
  rcases missed.entry selects reach with rfl | ⟨rfl, _⟩
  · exact List.mem_cons_self
  · exact List.mem_cons_of_mem _ List.mem_cons_self

theorem Missed.not_start (missed : Missed a e lo hi) (selects : mode.Selects x e) :
    word16 lo hi ∉ starts (missedImage mode a e lo hi) [jumpPlace a] := by
  intro start
  have entry := (mem_starts_iff (missed.fits selects)).mp start
  rcases missed.entry selects entry with same | ⟨zero, _⟩
  · exact missed.pointer.2 same
  · exact missed.pointer.1 zero

theorem AddrMode.Selects.short (selects : mode.Selects x e) : e < 128 := by
  cases selects with
  | ind => decide
  | iax twice =>
    have small := x.isLt
    omega

/-- What the filled machine reads there is a pointer to miss. -/
theorem filledHw_missed (own : η) (selects : mode.Selects x e) (unwalked : ¬ Walked a e) :
    Missed a e (lynxMemRead (entryAt a e) (filledHw own)).1
      (lynxMemRead (entryAt a e + 1) (lynxMemRead (entryAt a e) (filledHw own)).2).1 where
  short := selects.short
  unwalked := unwalked
  top := by
    intro top
    rw [top]
    exact ⟨rfl, rfl⟩
  low := filledHw_read own

/-- The jump, as discovery meets it -/
abbrev missedVisit (mode : AddrMode) (a : Addr) (e : Nat) (lo hi : Byte) : Visit :=
  ⟨(missedImage mode a e lo hi).decode (jumpPlace a), jumpPlace a + 3⟩

theorem missedVisit_visited (selects : mode.Selects x e) :
    missedVisit mode a e lo hi ∈ sweep (missedImage mode a e lo hi) (jumpPlace a) := by
  rw [missedImage_sweep selects]
  exact List.mem_singleton_self _

theorem missedVisit_selects (selects : mode.Selects x e) :
    (missedVisit mode a e lo hi).insn.Selects x e := by
  rw [missedVisit, missedImage_decode selects]
  exact ⟨rfl, selects⟩

theorem missedVisit_belowTop (selects : mode.Selects x e) :
    (missedVisit mode a e lo hi).BelowTop (jumpPlace a) := by
  obtain ⟨room, _⟩ := jumpPlace_facts a
  rw [missedVisit, missedImage_decode selects]
  change jumpPlace a ≤ jumpPlace a ∧ jumpPlace a < jumpPlace a + BitVec.ofNat 16 3
  constructor <;> bv_omega

theorem Missed.start (missed : Missed a e lo hi) (selects : mode.Selects x e) :
    jumpPlace a ∈ starts (missedImage mode a e lo hi) [jumpPlace a] := by
  refine (mem_starts_iff (missed.fits selects)).mpr (.seed ?_)
  exact List.mem_filter.mpr ⟨List.mem_singleton_self _, inImage_ofMemory _⟩

/-- A machine that holds the pointer does not land on a routine. -/
theorem Missed.not_lands (missed : Missed a e lo hi) (selects : mode.Selects x e) (hooks : Hooks η)
    {m : Machine η} (chosen : m.cpu.x = x)
    (same : m.hw.HoldsPointer (missedImage mode a e lo hi) (entryAt a e)) :
    ¬ Lands hooks (missedImage mode a e lo hi) [jumpPlace a] (jumpPlace a)
      (missedVisit mode a e lo hi) m := by
  have operand := congrArg Insn.operand (@missedImage_decode mode a x e lo hi selects)
  have jump := @missedVisit_selects mode a x e lo hi selects
  subst chosen
  intro lands
  rw [lands_iff hooks (missed.start selects) (missedVisit_visited selects) jump
    (by rw [operand]; exact same), operand, missed.pointer_last] at lands
  exact missed.not_start selects lands.2

/-- The filled machine, with `x` in X -/
def filledMachine (own : η) (x : Byte) : Machine η :=
  { cpu := { (Machine.zeroed own).cpu with x := x }, hw := filledHw own }

/-- For a pointer that is not walked there is an image in which the jump does not land. -/
theorem not_alwaysLands [Inhabited η] (hooks : Hooks η) (selects : mode.Selects x e)
    (unwalked : ¬ Walked a e) : ¬ AlwaysLands hooks mode a x e := by
  intro always
  have missed := filledHw_missed (default : η) selects unwalked
  generalize low : (lynxMemRead (entryAt a e) (filledHw (default : η))).1 = lo at missed
  generalize high : (lynxMemRead (entryAt a e + 1)
    (lynxMemRead (entryAt a e) (filledHw (default : η))).2).1 = hi at missed
  have decoded := @missedImage_decode mode a x e lo hi selects
  have function : routine (missedImage mode a e lo hi) (jumpPlace a) ∈
      (analyzeDiscover (missedImage mode a e lo hi) [jumpPlace a]).funcs := by
    rw [analyzeDiscover_funcs]
    exact List.mem_map_of_mem (missed.start selects)
  have same : (filledMachine (default : η) x).hw.HoldsPointer (missedImage mode a e lo hi)
      (entryAt a e) := by
    obtain ⟨first, second⟩ := missedMemory_last (jumpOp mode) a lo hi missed.short
    constructor
    · rw [filledMachine, low, byte_ofMemory, first]
    · rw [filledMachine, high, byte_ofMemory, second]
  refine missed.not_lands selects hooks rfl same ?_
  exact (always _ _ (missed.fits selects) _ function _ (missedVisit_visited selects)
    (congrArg Insn.mode decoded) (congrArg Insn.operand decoded) (missedVisit_selects selects)
    missed.run (filledMachine default x) rfl same).mpr (missedVisit_belowTop selects)

end Missed

/-- A computed jump below the top of memory, through a code pointer of a run that the image holds,
lands on a routine of the table in every image exactly if discovery walks up to the pointer. -/
theorem computedJump_lands_iff [Inhabited η] (hooks : Hooks η) {mode : AddrMode} (a : Addr)
    {x : Byte} {e : Nat} (selects : mode.Selects x e) :
    AlwaysLands hooks mode a x e ↔ Walked a e := by
  constructor
  · intro always
    by_contra unwalked
    exact not_alwaysLands hooks selects unwalked always
  · exact alwaysLands_of_walked hooks

section Images

/-- Every computed jump through a code pointer lands on a routine of the table. -/
def ComputedJumpsLand (img : Image) (seeds : List Addr) : Prop :=
  ∀ f ∈ (analyzeDiscover img seeds).funcs, ∀ v ∈ sweep img f.start,
    ∀ (m : Machine Unit) (e : Nat), v.insn.Selects m.cpu.x e →
      img.PointerRun v.insn.operand e → m.hw.HoldsPointer img (entryAt v.insn.operand e) →
      Lands Hooks.none img seeds f.start v m

/-- `$0200: JMP ($0203,X)` with a table of 64 pointers to `$0200` and one to the `RTS` at
`$0285`. -/
def tableImage : Image :=
  ⟨0x200, [0x7C, 0x03, 0x02] ++ (List.replicate 64 [0x00, 0x02]).flatten ++ [0x85, 0x02, 0x60]⟩

theorem tableImage_entries : routineEntries tableImage 0x200 = List.replicate 64 0x200 := by
  decide +kernel

theorem tableImage_bound : EntryBound tableImage [0x200] [0x200] where
  short := by decide +kernel
  seeded := by
    have seeds : [0x200].filter (inImage tableImage) = [0x200] := by decide +kernel
    rw [seeds]
    simp
  closed := by
    rw [List.forall_mem_singleton, tableImage_entries]
    intro b hb
    rw [List.eq_of_mem_replicate hb]
    simp

theorem tableImage_run : tableImage.PointerRun 0x203 64 := by
  have checked : ∀ k ≤ 64, inImage tableImage (entryAt 0x203 k) = true ∧
      inImage tableImage (entryAt 0x203 k + 1) = true ∧
      tableImage.pointer (entryAt 0x203 k) ≠ 0 ∧
      inImage tableImage (tableImage.pointer (entryAt 0x203 k)) = true := by
    decide +kernel
  intro k le
  rcases checked k le with ⟨low, high, nonzero, inside⟩
  exact ⟨low, high, nonzero, inside⟩

/-- The machine at the jump, with `x` in X. -/
def tableMachine (x : Byte) : Machine Unit :=
  { machineWith tableImage with cpu := { (machineWith tableImage).cpu with x := x } }

def tableVisit : Visit := ⟨tableImage.decode 0x200, 0x203⟩

theorem tableImage_sweep : tableVisit ∈ sweep tableImage 0x200 := by
  have alone := @sweep_terminator tableImage 0x200 (by decide +kernel) (by decide +kernel)
    (by decide +kernel) (by decide +kernel) (by decide +kernel)
  rw [alone]
  exact List.mem_singleton_self _

theorem tableImage_starts : starts tableImage [0x200] = [0x200] := by decide +kernel

theorem tableImage_func :
    routine tableImage 0x200 ∈ (analyzeDiscover tableImage [0x200]).funcs := by
  rw [analyzeDiscover_funcs, tableImage_starts]
  exact List.mem_singleton_self _

theorem tableVisit_selects {x : Byte} {e : Nat} (twice : x.toNat = 2 * e) :
    tableVisit.insn.Selects x e := by
  have mode : tableVisit.insn.mode = .iax := by decide +kernel
  exact ⟨by decide +kernel, mode ▸ .iax twice⟩

theorem tableVisit_operand : tableVisit.insn.operand = 0x203 := by decide +kernel

theorem tableMachine_holds {x : Byte} {e : Nat} (short : e ≤ 64) :
    (tableMachine x).hw.HoldsPointer tableImage (entryAt 0x203 e) := by
  constructor <;> unfold entryAt <;> rw [lynxMemRead_ram (by unfold suzyBase; bv_omega)]
  · rfl
  · rw [lynxMemRead_ram (by unfold suzyBase; bv_omega)]
    rfl

/-- The last pointer that discovery reads is followed at run time, too. -/
theorem tableImage_lands :
    Lands Hooks.none tableImage [0x200] 0x200 tableVisit (tableMachine 126) :=
  ((computedJump_lands_iff Hooks.none 0x203 (.iax (e := 63) rfl)).mpr (by decide +kernel)
    tableImage [0x200] tableImage_bound.fits _ tableImage_func tableVisit tableImage_sweep
    (by decide +kernel) tableVisit_operand (tableVisit_selects rfl)
    (fun k le => tableImage_run k (by omega)) (tableMachine 126) rfl
    (tableMachine_holds (by decide))).mpr (by decide +kernel)

/-- The 65th pointer of a table leads to no routine. -/
theorem longTable_missed : Worklist.Fits maxFuncs (routineEntries tableImage)
    ([0x200].filter (inImage tableImage)) ∧ ¬ ComputedJumpsLand tableImage [0x200] := by
  refine ⟨tableImage_bound.fits, ?_⟩
  intro land
  have selects : tableVisit.insn.Selects (tableMachine 128).cpu.x 64 := tableVisit_selects rfl
  have same : (tableMachine 128).hw.HoldsPointer tableImage
      (entryAt tableVisit.insn.operand 64) := by
    rw [tableVisit_operand]
    exact tableMachine_holds (Nat.le_refl 64)
  have start : (0x200 : Addr) ∈ starts tableImage [0x200] := by
    rw [tableImage_starts]
    exact List.mem_singleton_self _
  have lands := land _ tableImage_func tableVisit tableImage_sweep (tableMachine 128) 64 selects
    (by rw [tableVisit_operand]; exact tableImage_run) same
  have last : tableImage.pointer (entryAt tableVisit.insn.operand 64) = 0x285 := by decide +kernel
  have known := ((lands_iff Hooks.none start tableImage_sweep selects same).mp lands).2
  rw [tableImage_starts, last] at known
  exact absurd known (by decide)

end Images

end LynxRecomp
