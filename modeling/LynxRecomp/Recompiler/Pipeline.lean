import LynxRecomp.Recompiler.Coverage
import LynxRecomp.Recompiler.JumpTables
import LynxRecomp.Recompiler.LynxDec
import LynxRecomp.Runtime.Interrupts

/-!
# From a file to a program

What `m65c02recomp` makes of a file: the container is taken off, the loader decrypted or the image
taken as it is, the seeds chosen, the routines discovered and emitted.
-/

namespace LynxRecomp

variable {η : Type}

/-- `lnx_info_t` -/
structure LnxInfo where
  valid : Bool
  pageSizeBank0 : Addr
  pageSizeBank1 : Addr
  version : Addr
  cartname : List Byte
  manufname : List Byte
  rotation : Byte
  rom : List Byte
  deriving DecidableEq, Repr

def lnxHeaderSize : Nat := 64

/-- `"LYNX"` -/
def lnxMagic : List Byte := [0x4C, 0x59, 0x4E, 0x58]

/-- `rd16`, at an offset of the file -/
def lnxRd16 (data : List Byte) (off : Nat) : Addr :=
  word16 (data.getD off 0) (data.getD (off + 1) 0)

/-- The file starts with a header. -/
def HasHeader (data : List Byte) : Prop := lnxHeaderSize ≤ data.length ∧ data.take 4 = lnxMagic

instance decidableHasHeader (data : List Byte) : Decidable (HasHeader data) :=
  inferInstanceAs (Decidable (_ ∧ _))

/-- `lnx_parse`; `none` is an error. -/
def lnxParse (data : List Byte) : Option LnxInfo :=
  if data = [] then none
  else if HasHeader data then
    some {
      valid := true
      pageSizeBank0 := lnxRd16 data 4
      pageSizeBank1 := lnxRd16 data 6
      version := lnxRd16 data 8
      cartname := (data.drop 10).take 32 ++ [0]
      manufname := (data.drop 42).take 16 ++ [0]
      rotation := data.getD 58 0
      rom := data.drop lnxHeaderSize }
  else
    some {
      valid := false
      pageSizeBank0 := 0
      pageSizeBank1 := 0
      version := 0
      cartname := List.replicate 33 0
      manufname := List.replicate 17 0
      rotation := 0
      rom := data }

/-- What `recompbin` makes of its image -/
def compile (img : Image) (seeds : List Addr) : CFile :=
  emitFunctions img (analyzeDiscover img seeds)

def loaderBase : Addr := 0x0200

/-- The boot entry, and where the boot ROM returns to -/
def recompSeeds : List Addr := [loaderBase, loaderBase + 0x0E]

/-- The command `recomp`, up to writing the file -/
def recomp (data : List Byte) : Option CFile :=
  (lnxParse data).bind fun info =>
    let loader := lynxDecryptLoader info.rom (5 * 50)
    if loader.1 < 0 then none else some (compile ⟨loaderBase, loader.2⟩ recompSeeds)

def nmiSeed (rom : List Byte) : Addr := word16 (rom.getD 0xFFFA 0) (rom.getD 0xFFFB 0)

def irqSeed (rom : List Byte) : Addr := word16 (rom.getD 0xFFFE 0) (rom.getD 0xFFFF 0)

/-- The seeds that `recompbin` is given, or the base -/
def givenSeeds (args : List Addr) (base : Addr) : List Addr :=
  if args.take 24 = [] then [base] else args.take 24

/-- A vector is a seed too, while there is room. -/
def addVector (vector : Addr) (seeds : List Addr) : List Addr :=
  if vector ≠ 0 ∧ seeds.length < 32 then seeds ++ [vector] else seeds

def recompbinSeeds (args : List Addr) (base : Addr) (rom : List Byte) : List Addr :=
  if base = 0 ∧ 0x10000 ≤ rom.length then
    addVector (irqSeed rom) (addVector (nmiSeed rom) (givenSeeds args base))
  else givenSeeds args base

/-- The command `recompbin`, up to writing the file -/
def recompbin (data : List Byte) (base : Addr) (args : List Addr) : Option CFile :=
  (lnxParse data).map fun info => compile ⟨base, info.rom⟩ (recompbinSeeds args base info.rom)

section Container

variable {data header rom : List Byte}

theorem lnxParse_header (whole : header.length = lnxHeaderSize) (magic : header.take 4 = lnxMagic) :
    ∃ info, lnxParse (header ++ rom) = some info ∧ info.rom = rom := by
  have some_ : header ++ rom ≠ [] := by
    rintro empty
    rw [(List.append_eq_nil_iff.mp empty).1] at whole
    exact absurd whole (by decide)
  have has : HasHeader (header ++ rom) := by
    have long : 4 ≤ header.length := by
      rw [whole]
      decide
    refine ⟨?_, (List.take_append_of_le_length long).trans magic⟩
    rw [List.length_append, whole]
    exact Nat.le_add_right ..
  refine ⟨_, by rw [lnxParse, if_neg some_, if_pos has], ?_⟩
  exact List.drop_left' whole

theorem lnxParse_raw (some_ : data ≠ []) (raw : ¬HasHeader data) :
    ∃ info, lnxParse data = some info ∧ info.rom = data :=
  ⟨_, by rw [lnxParse, if_neg some_, if_neg raw], rfl⟩

/-- `recomp` looks at nothing in a file but the cartridge image. -/
theorem recomp_of_rom {info info' : LnxInfo} {data' : List Byte}
    (parsed : lnxParse data = some info) (parsed' : lnxParse data' = some info')
    (same : info.rom = info'.rom) :
    recomp data = recomp data' := by
  rw [recomp, recomp, parsed, parsed', Option.bind_some, Option.bind_some, same]

end Container

section Small

variable {img : Image} {seeds : List Addr}

/-- The addresses of an image, where they do not wrap -/
def Image.addresses (img : Image) : List Addr :=
  (List.range img.rom.length).map fun i => img.base + BitVec.ofNat 16 i

theorem mem_addresses {a : Addr} (inside : inImage img a = true) : a ∈ img.addresses := by
  have bounds : (a - img.base).toNat < img.rom.length := by
    simp only [inImage, Bool.and_eq_true, decide_eq_true_eq] at inside
    exact inside.2
  refine List.mem_map.mpr ⟨_, List.mem_range.mpr bounds, ?_⟩
  rw [BitVec.ofNat_toNat, BitVec.setWidth_eq, BitVec.add_comm, BitVec.sub_add_cancel]

theorem length_addresses : img.addresses.length = img.rom.length := by
  rw [Image.addresses, List.length_map, List.length_range]

theorem targets_target {v : Visit} {a : Addr} (member : a ∈ v.targets img) :
    a = v.insn.target := by
  unfold Visit.targets at member
  grind

theorem exts_target {v : Visit} {a : Addr} (member : a ∈ v.exts img) : a = v.insn.target := by
  unfold Visit.exts at member
  grind

/-- The targets of all instructions that an image can hold -/
def Image.allTargets (img : Image) : List Addr := img.addresses.map fun a => (img.decode a).target

theorem card_le_length {as : List Addr} (among : ∀ a ∈ as, a ∈ img.allTargets) :
    as.toFinset.card ≤ img.rom.length := by
  have subset : as.toFinset ⊆ img.allTargets.toFinset := fun a member =>
    List.mem_toFinset.mpr (among a (List.mem_toFinset.mp member))
  refine (Finset.card_le_card subset).trans ((List.toFinset_card_le _).trans ?_)
  rw [Image.allTargets, List.length_map, length_addresses]

/-- The tables of discovery have room for any image of at most 256 bytes. -/
theorem small_within (small : img.rom.length ≤ 256) (seeds : List Addr) :
    WithinCapacity img seeds := by
  have target {fs : Addr} {v : Visit} (visited : v ∈ sweep img fs) :
      v.insn.target ∈ img.allTargets := by
    rcases sweepFrom_decoded v visited with ⟨decoded, inside⟩
    exact List.mem_map.mpr ⟨v.insn.pc, mem_addresses inside, by rw [← decoded]⟩
  refine ⟨⟨img.addresses, ?_, fun a reach => ?_⟩, fun fs _ => ?_, ?_⟩
  · rw [length_addresses]
    exact small.trans (by decide)
  · refine mem_addresses (reach.of_closed (I := fun a => inImage img a = true) ?_ ?_)
    · exact fun b seed => (List.mem_filter.mp seed).2
    · intro b _ c member
      rcases List.mem_flatMap.mp member with ⟨v, -, pushed⟩
      exact pushes_inImage pushed
  · refine (@card_le_length img _ fun a member => ?_).trans small
    rcases List.mem_flatMap.mp member with ⟨v, visited, recorded⟩
    rw [targets_target recorded]
    exact target visited
  · refine (@card_le_length img _ fun a member => ?_).trans (small.trans (by decide))
    rcases List.mem_flatMap.mp member with ⟨fs, -, member⟩
    rcases List.mem_flatMap.mp member with ⟨v, visited, recorded⟩
    rw [exts_target recorded]
    exact target visited

end Small

section Recomp

theorem length_accumulate (buf : List Byte) (n acc : Nat) :
    (accumulate buf n acc).1.length = n := by
  induction n generalizing acc with
  | zero => rfl
  | succ n ih =>
    rw [accumulate, List.length_cons]
    exact congrArg (· + 1) (ih _)

theorem length_decryptBlocks (b : Nat) (e : List Byte) (acc : Nat) :
    (decryptBlocks b e acc).length = b * 50 := by
  induction b generalizing e acc with
  | zero => exact (Nat.zero_mul 50).symm
  | succ b ih =>
    have block : (decryptBlock (e.take klen) acc).1.length = 50 := length_accumulate ..
    rw [decryptBlocks, List.length_append, block, ih, Nat.succ_mul, Nat.add_comm]

/-- A loader has at most five blocks, and one at least. -/
theorem lynxDecryptLoader_length {rom : List Byte} {outCap : Nat}
    (success : ¬(lynxDecryptLoader rom outCap).1 < 0) :
    50 ≤ (lynxDecryptLoader rom outCap).2.length ∧
      (lynxDecryptLoader rom outCap).2.length ≤ 250 := by
  have negative : ((-1, []) : Int × List Byte).1 < 0 := by decide
  unfold lynxDecryptLoader at success ⊢
  split
  · exact absurd negative success
  · rename_i first e
    dsimp only at success ⊢
    by_cases blocks : (256 - first.toNat) &&& 0xFF < 1 ∨ (256 - first.toNat) &&& 0xFF > 5
    · rw [if_pos blocks] at success
      exact absurd negative success
    · rw [if_neg blocks] at success ⊢
      split at success
      · exact absurd negative success
      · rename_i whole
        rw [if_neg whole]
        split at success
        · exact absurd negative success
        · rename_i room
          rw [if_neg room, length_decryptBlocks]
          omega

theorem recompSeeds_inImage {loader : List Byte} (long : 50 ≤ loader.length) {a : Addr}
    (seed : a ∈ recompSeeds) : inImage ⟨loaderBase, loader⟩ a = true := by
  have near : loaderBase ≤ a ∧ (a - loaderBase).toNat < 50 := by
    rcases List.mem_pair.mp seed with rfl | rfl <;> decide
  rw [inImage, Bool.and_eq_true, decide_eq_true_eq, decide_eq_true_eq]
  exact ⟨near.1, Nat.lt_of_lt_of_le near.2 long⟩

theorem registers_compile (img : Image) (seeds : List Addr) :
    (compile img seeds).registers = starts img seeds := analyzeDiscover_starts img seeds

/-- The program that `recomp` makes of a cartridge: the tables of discovery have room for every
loader, exactly the routines that discovery reaches from the two entries by calls, forward jumps
and jump tables are registered, the entries among them, and a container around the cartridge
changes nothing. -/
theorem recomp_registers {data : List Byte} {file : CFile} (compiled : recomp data = some file) :
    ∃ loader : List Byte,
      file = compile ⟨loaderBase, loader⟩ recompSeeds ∧
      WithinCapacity ⟨loaderBase, loader⟩ recompSeeds ∧
      (∀ a, a ∈ file.registers ↔ Entry ⟨loaderBase, loader⟩ recompSeeds a) ∧
      (∀ a ∈ recompSeeds, a ∈ file.registers) ∧
      ∀ header : List Byte, header.length = lnxHeaderSize → header.take 4 = lnxMagic →
        ¬HasHeader data → recomp (header ++ data) = some file := by
  rcases Option.bind_eq_some_iff.mp compiled with ⟨info, parsed, made⟩
  dsimp only at made
  split at made
  · exact absurd made (by simp)
  · rename_i success
    rcases lynxDecryptLoader_length success with ⟨long, short⟩
    have within : WithinCapacity ⟨loaderBase, (lynxDecryptLoader info.rom (5 * 50)).2⟩
        recompSeeds :=
      small_within (short.trans (by decide)) recompSeeds
    have same := Option.some.inj made
    have entries (a : Addr) : a ∈ file.registers ↔
        Entry ⟨loaderBase, (lynxDecryptLoader info.rom (5 * 50)).2⟩ recompSeeds a := by
      rw [← same, registers_compile]
      exact mem_starts_iff within.funcs
    refine ⟨_, same.symm, within, entries, fun a seed => ?_, fun header whole magic raw => ?_⟩
    · exact (entries a).mpr (.seed (List.mem_filter.mpr ⟨seed, recompSeeds_inImage long seed⟩))
    · have some_ : data ≠ [] := by
        rintro rfl
        exact absurd parsed (by simp [lnxParse])
      rcases @lnxParse_header header data whole magic with ⟨info', parsed', rom'⟩
      rcases lnxParse_raw some_ raw with ⟨info'', parsed'', rom''⟩
      rw [recomp_of_rom parsed' parsed'' (rom'.trans rom''.symm)]
      exact compiled

/-- A cartridge whose loader is one block of zeros -/
theorem recomp_registers_zeros : ∃ file, recomp (0xFF :: List.replicate 51 0) = some file ∧
    0x0200 ∈ file.registers ∧ 0x020E ∈ file.registers := by
  have made : recomp (0xFF :: List.replicate 51 0) =
      some (compile ⟨loaderBase, decryptBlocks 1 (List.replicate 51 0) 0⟩ recompSeeds) := rfl
  rcases recomp_registers made with ⟨loader, same, within, entries, seeds, container⟩
  exact ⟨_, made, seeds _ (by decide), seeds _ (by decide)⟩

end Recomp

section Snapshot

/-- What `run_snapshot` writes: the memory of the machine -/
def snapshot (hw : Hw η) : List Byte :=
  (List.range 0x10000).map fun i => hw.ram (BitVec.ofNat 16 i)

theorem length_snapshot (hw : Hw η) : (snapshot hw).length = 0x10000 := by
  rw [snapshot, List.length_map, List.length_range]

theorem getD_snapshot (hw : Hw η) {i : Nat} (inside : i < 0x10000) :
    (snapshot hw).getD i 0 = hw.ram (BitVec.ofNat 16 i) := by
  rw [snapshot, List.getD_eq_getElem?_getD, List.getElem?_map, List.getElem?_range inside]
  rfl

theorem irqSeed_snapshot (hw : Hw η) : irqSeed (snapshot hw) = irqVector hw := by
  rw [irqSeed, getD_snapshot hw (by decide), getD_snapshot hw (by decide)]
  rfl

/-- The address at `$FFFA` -/
def nmiVector (hw : Hw η) : Addr := word16 (hw.ram 0xFFFA) (hw.ram 0xFFFB)

theorem nmiSeed_snapshot (hw : Hw η) : nmiSeed (snapshot hw) = nmiVector hw := by
  rw [nmiSeed, getD_snapshot hw (by decide), getD_snapshot hw (by decide)]
  rfl

theorem length_givenSeeds (args : List Addr) (base : Addr) :
    (givenSeeds args base).length ≤ 24 := by
  unfold givenSeeds
  split
  · exact (by decide : 1 ≤ 24)
  · exact List.length_take_le ..

theorem length_addVector (vector : Addr) (seeds : List Addr) :
    (addVector vector seeds).length ≤ seeds.length + 1 := by
  unfold addVector
  split
  · simp
  · exact Nat.le_succ _

/-- The array of seeds is never full. -/
theorem length_recompbinSeeds (args : List Addr) (base : Addr) (rom : List Byte) :
    (recompbinSeeds args base rom).length ≤ 26 := by
  have given := length_givenSeeds args base
  have nmi := length_addVector (nmiSeed rom) (givenSeeds args base)
  have irq := length_addVector (irqSeed rom) (addVector (nmiSeed rom) (givenSeeds args base))
  unfold recompbinSeeds
  split <;> omega

theorem inImage_whole {rom : List Byte} (whole : rom.length = 0x10000) (a : Addr) :
    inImage ⟨0, rom⟩ a = true := by
  rw [inImage, Bool.and_eq_true, decide_eq_true_eq, decide_eq_true_eq, whole]
  exact ⟨BitVec.le_def.mpr (Nat.zero_le _), (a - 0).isLt⟩

/-- The handler of the interrupt comes last among the seeds, so it is the first routine done. -/
theorem irq_started {rom : List Byte} {args : List Addr} (whole : rom.length = 0x10000)
    (some_ : irqSeed rom ≠ 0) (new : irqSeed rom ∉ args.take 24 ∧ irqSeed rom ≠ nmiSeed rom) :
    irqSeed rom ∈ starts ⟨0, rom⟩ (recompbinSeeds args 0 rom) := by
  let earlier := addVector (nmiSeed rom) (givenSeeds args 0)
  have short : earlier.length ≤ 25 :=
    (length_addVector ..).trans (Nat.succ_le_succ (length_givenSeeds args 0))
  have fresh : irqSeed rom ∉ earlier := by
    have given : irqSeed rom ∉ givenSeeds args 0 := by
      unfold givenSeeds
      split
      · exact fun same => some_ (List.mem_singleton.mp same)
      · exact new.1
    change irqSeed rom ∉ addVector (nmiSeed rom) (givenSeeds args 0)
    unfold addVector
    split
    · intro member
      rcases List.mem_append.mp member with before | same
      · exact given before
      · exact new.2 (List.mem_singleton.mp same)
    · exact given
  have seeds : recompbinSeeds args 0 rom = earlier ++ [irqSeed rom] := by
    have big : (0 : Addr) = 0 ∧ 0x10000 ≤ rom.length := ⟨rfl, Nat.le_of_eq whole.symm⟩
    rw [recompbinSeeds, if_pos big]
    exact if_pos ⟨some_, Nat.lt_of_le_of_lt short (by decide)⟩
  have all : (earlier ++ [irqSeed rom]).filter (inImage ⟨0, rom⟩) = earlier ++ [irqSeed rom] :=
    List.filter_eq_self.mpr fun a _ => inImage_whole whole a
  rw [starts, seeds, all]
  exact Worklist.run_last_seed fresh (Nat.lt_of_le_of_lt short (by decide))

/-- From a snapshot of a game's memory, if it does not look like a container, `recompbin` compiles
the interrupt handler that the game has installed, and registers it: the runtime, as long as the
vector is the same, enters it for every interrupt that is due. Where the handler is given as a
seed, or the NMI has the same one, discovery has to fit its table. -/
theorem snapshot_interrupts (hooks : Hooks η) (hw : Hw η) (args : List Addr)
    (raw : (snapshot hw).take 4 ≠ lnxMagic) (some_ : irqVector hw ≠ 0)
    (room : (irqVector hw ∉ args.take 24 ∧ irqVector hw ≠ nmiVector hw) ∨
      WithinCapacity ⟨0, snapshot hw⟩ (recompbinSeeds args 0 (snapshot hw))) :
    ∃ file, recompbin (snapshot hw) 0 args = some file ∧ irqVector hw ∈ file.registers ∧
      ∀ (routines : Addr → Machine η → Machine η) (d : Dispatch η) (m : Machine η),
        irqVector m.hw = irqVector hw → TickDelivers m →
        lynxTick hooks (lynxRecompRegister file routines d) m =
          routines (irqVector hw) (entered hooks m) := by
  have whole := length_snapshot hw
  have nonempty : snapshot hw ≠ [] := by
    apply List.ne_nil_of_length_pos
    rw [whole]
    decide
  rcases lnxParse_raw nonempty (fun header => raw header.2) with ⟨info, parsed, rom⟩
  have compiled : recompbin (snapshot hw) 0 args = some
      (compile ⟨0, snapshot hw⟩ (recompbinSeeds args 0 (snapshot hw))) := by
    rw [recompbin, parsed, Option.map_some, rom]
  have registered : irqVector hw ∈
      (compile ⟨0, snapshot hw⟩ (recompbinSeeds args 0 (snapshot hw))).registers := by
    rw [registers_compile, ← irqSeed_snapshot]
    rcases room with new | within
    · rw [← irqSeed_snapshot, ← nmiSeed_snapshot] at new
      rw [← irqSeed_snapshot] at some_
      exact irq_started whole some_ new
    · refine (mem_starts_iff within.funcs).mpr
        (.seed (List.mem_filter.mpr ⟨?_, inImage_whole whole _⟩))
      rw [← irqSeed_snapshot] at some_
      have big : (0 : Addr) = 0 ∧ 0x10000 ≤ (snapshot hw).length := ⟨rfl, Nat.le_of_eq whole.symm⟩
      have short := (length_addVector (nmiSeed (snapshot hw)) (givenSeeds args 0)).trans
        (Nat.succ_le_succ (length_givenSeeds args 0))
      rw [recompbinSeeds, if_pos big, addVector,
        if_pos ⟨some_, Nat.lt_of_le_of_lt short (by decide)⟩]
      exact List.mem_append_right _ (List.mem_singleton_self _)
  refine ⟨_, compiled, registered, fun routines d m same delivers => ?_⟩
  rw [lynxTick_delivers hooks _ delivers, same]
  exact lynxJmpIndirect_registered routines registered d (entered hooks m)

/-- A game whose interrupt handler is at `$0400`, with an interrupt pending -/
def handlerInstalled : Machine Unit where
  cpu := (Machine.zeroed ()).cpu
  hw := { Hw.zeroed () with
    ram := fun a => if a = 0xFFFF then 0x04 else 0
    timer := { phase := fun _ => 0, irqLatch := 1 } }

theorem snapshot_interrupts_handlerInstalled :
    ∃ file, recompbin (snapshot handlerInstalled.hw) 0 [0x0200] = some file ∧
      ∀ (routines : Addr → Machine Unit → Machine Unit) (d : Dispatch Unit),
        lynxTick Hooks.none (lynxRecompRegister file routines d) handlerInstalled =
          routines 0x0400 (entered Hooks.none handlerInstalled) := by
  have vector : irqVector handlerInstalled.hw = 0x0400 := by decide
  have raw : (snapshot handlerInstalled.hw).take 4 ≠ lnxMagic := by
    intro header
    have first : (snapshot handlerInstalled.hw).getD 0 0 = (lnxMagic).getD 0 0 := by
      rw [← header, List.getD_eq_getElem?_getD, List.getD_eq_getElem?_getD,
        List.getElem?_take_of_lt (by decide)]
    rw [getD_snapshot _ (by decide)] at first
    exact absurd first (by decide)
  have bit : (1 : Byte).getLsbD 0 = true := by decide
  have delivers : TickDelivers handlerInstalled :=
    ⟨lynxIrqPending_tickedHw (lynxIrqPending_ne_zero.mpr ⟨0, bit⟩), rfl⟩
  rcases snapshot_interrupts Hooks.none handlerInstalled.hw [0x0200] raw (by decide)
    (.inl (by decide)) with ⟨file, compiled, -, served⟩
  refine ⟨file, compiled, fun routines d => ?_⟩
  rw [served routines d _ rfl delivers, vector]

end Snapshot

end LynxRecomp
