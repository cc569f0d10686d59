import LynxRecomp.Runtime.Cpu

/-!
# The stack page

Code that keeps off `$0100-$01FF` cannot tell two machines apart that differ only there.
A store may start the blitter, which accesses memory on its own account, and may call a
hook of the host.
-/

namespace LynxRecomp

open BusProgram

variable {η : Type}

/-- `$0100-$01FF` -/
def stackPage (a : Addr) : Prop := 0x0100 ≤ a ∧ a ≤ 0x01FF

instance (a : Addr) : Decidable (stackPage a) := inferInstanceAs (Decidable (_ ∧ _))

def Hw.withRam (ram : Addr → Byte) (hw : Hw η) : Hw η := { hw with ram := ram }

@[simp] theorem Hw.withRam_ram (ram : Addr → Byte) (hw : Hw η) : (hw.withRam ram).ram = ram := rfl

@[simp] theorem Hw.withRam_suzy (ram : Addr → Byte) (hw : Hw η) :
    (hw.withRam ram).suzy = hw.suzy := rfl

@[simp] theorem Hw.withRam_self (hw : Hw η) : hw.withRam hw.ram = hw := rfl

def AgreeOffStack (r q : Addr → Byte) : Prop := ∀ a, ¬ stackPage a → r a = q a

/-- `f` neither looks at the stack page nor changes memory. -/
def StackBlind (f : Hw η → Hw η) : Prop :=
  ∀ hw r, AgreeOffStack r hw.ram → f (hw.withRam r) = (f hw).withRam r

/-- The hooks of the host leave the stack page alone, and do not store into memory. -/
structure Hooks.OffStack (hooks : Hooks η) : Prop where
  tx : ∀ v, StackBlind (hooks.tx v)
  frame : ∀ hook, hooks.frame = some hook → StackBlind hook

theorem Hooks.none_offStack : (Hooks.none : Hooks η).OffStack where
  tx _ _ _ _ := rfl
  frame _ h := absurd h (by simp [Hooks.none])

section Blind

theorem StackBlind.ram {f : Hw η → Hw η} (blind : StackBlind f) (hw : Hw η) :
    (f hw).ram = hw.ram := by
  have same := congrArg Hw.ram (blind hw hw.ram fun _ _ => rfl)
  simpa using same

theorem StackBlind.comp {f g : Hw η → Hw η} (second : StackBlind g) (first : StackBlind f) :
    StackBlind fun hw => g (f hw) := by
  intro hw r agree
  have rest : AgreeOffStack r (f hw).ram := by rwa [first.ram]
  exact (congrArg g (first hw r agree)).trans (second (f hw) r rest)

theorem stackBlind_ite {p : Hw η → Prop} [DecidablePred p]
    (same : ∀ hw r, p (hw.withRam r) ↔ p hw) {f g : Hw η → Hw η} (first : StackBlind f)
    (second : StackBlind g) : StackBlind fun hw => if p hw then f hw else g hw := by
  intro hw r agree
  simp only [same]
  split
  · exact first hw r agree
  · exact second hw r agree

/-- A function that looks at the registers only. -/
theorem stackBlind_of_forall {f : Hw η → Hw η}
    (same : ∀ hw r, f (hw.withRam r) = (f hw).withRam r) : StackBlind f := fun hw r _ => same hw r

theorem stackBlind_id : StackBlind fun hw : Hw η => hw := stackBlind_of_forall fun _ _ => rfl

theorem lynxIrqRaise_blind (mask : Byte) : StackBlind fun hw : Hw η => lynxIrqRaise mask hw :=
  stackBlind_of_forall fun _ _ => rfl

theorem rxService_withRam (r : Addr → Byte) (hw : Hw η) :
    rxService (hw.withRam r) = (rxService hw).withRam r := by
  unfold rxService
  rw [apply_ite (Hw.withRam r)]
  rfl

theorem rxService_blind : StackBlind fun hw : Hw η => rxService hw :=
  stackBlind_of_forall fun hw r => rxService_withRam r hw

variable {hooks : Hooks η} (off_stack : hooks.OffStack)

include off_stack

theorem lynxSerialWrite_blind (off val : Byte) : StackBlind (lynxSerialWrite hooks off val) := by
  unfold lynxSerialWrite
  refine stackBlind_ite (fun _ _ => Iff.rfl) ?_ ?_
  · have sent : StackBlind fun hw : Hw η => if hw.host.txHook then hooks.tx val hw else hw :=
      stackBlind_ite (fun _ _ => Iff.rfl) (off_stack.tx val) stackBlind_id
    have raised : StackBlind fun hw : Hw η =>
        if hw.serial.ctrl &&& serctlTxinten ≠ 0 then lynxIrqRaise serialIrqBit hw else hw :=
      stackBlind_ite (fun _ _ => Iff.rfl) (lynxIrqRaise_blind _) stackBlind_id
    exact StackBlind.comp raised sent
  · exact StackBlind.comp rxService_blind (stackBlind_of_forall fun _ _ => rfl)

theorem lynxMikeyWrite_blind (off val : Byte) : StackBlind (lynxMikeyWrite hooks off val) := by
  have stored : StackBlind fun hw : Hw η =>
      { hw with mikey := Function.update hw.mikey off val } := stackBlind_of_forall fun _ _ => rfl
  unfold lynxMikeyWrite
  refine stackBlind_ite (fun _ _ => Iff.rfl) (stackBlind_of_forall fun _ _ => rfl) ?_
  refine stackBlind_ite (fun _ _ => Iff.rfl) (lynxIrqRaise_blind val) ?_
  refine stackBlind_ite (fun _ _ => Iff.rfl) ?_ ?_
  · cases frame : hooks.frame with
    | none => exact stored
    | some hook => exact StackBlind.comp (off_stack.frame hook frame) stored
  · refine stackBlind_ite (fun _ _ => Iff.rfl) ?_ ?_
    · exact StackBlind.comp (lynxSerialWrite_blind off_stack off val) stored
    · cases reseedChannel off with
      | none => exact stored
      | some c => exact StackBlind.comp (stackBlind_of_forall fun _ _ => rfl) stored

end Blind

/-- `SPRGO` in the address space; storing an odd value there starts the blitter. -/
def sprgo : Addr := suzyBase + suzySprgo.setWidth 16

/-- An access off the stack page that stores nothing into the cells of `code`. -/
def CleanCell (code : Addr → Prop) : BusAccess Addr Byte → Prop
  | .read a => ¬ stackPage a
  | .write a _ => ¬ stackPage a ∧ ¬ code a

/-- The blitter's own accesses once `v` has been stored in `SPRGO`. -/
def blitStarted (v : Byte) (hw : Hw η) : Dma Unit :=
  blitProgram { reg := Function.update hw.suzy.reg suzySprgo v, busy := 1 }

/-- A clean access by address. A store that starts the blitter answers for the accesses of
the blitter, too. -/
def Clean (code : Addr → Prop) (access : BusAccess Addr Byte) (hw : Hw η) : Prop :=
  CleanCell code access ∧ ∀ v, access = .write sprgo v → v &&& 1 ≠ 0 →
    (blitStarted v hw).Accesses memory (fun a _ => CleanCell code a) hw.ram

/-- The stack page and the cells of `code` are what they were. -/
def Untouched (code : Addr → Prop) (before after : Addr → Byte) : Prop :=
  ∀ a, stackPage a ∨ code a → after a = before a

/-- `t` is `s` with another stack page. -/
structure Alike (t s : Hw η) : Prop where
  rest : t = s.withRam t.ram
  ram : AgreeOffStack t.ram s.ram

section Clean

variable {code : Addr → Prop}

theorem Untouched.refl (ram : Addr → Byte) : Untouched code ram ram := fun _ _ => rfl

theorem Untouched.trans {r q p : Addr → Byte} (first : Untouched code r q)
    (second : Untouched code q p) : Untouched code r p := fun a h => (second a h).trans (first a h)

theorem Untouched.update {r q : Addr → Byte} {a : Addr} (untouched : Untouched code r q)
    (off : ¬ stackPage a ∧ ¬ code a) (v : Byte) : Untouched code r (Function.update q a v) := by
  intro b kept
  have ne : b ≠ a := by
    rintro rfl
    exact kept.elim off.1 off.2
  rw [Function.update_of_ne ne]
  exact untouched b kept

theorem AgreeOffStack.update {r q : Addr → Byte} (agree : AgreeOffStack r q) (a : Addr) (v : Byte) :
    AgreeOffStack (Function.update r a v) (Function.update q a v) := by
  intro b off
  by_cases same : b = a
  · rw [same, Function.update_self, Function.update_self]
  · rw [Function.update_of_ne same, Function.update_of_ne same]
    exact agree b off

/-- Over memories that agree off the stack page, clean memory accesses do the same. -/
theorem run_memory_clean {α : Type} {p : BusProgram Addr Byte α} {r q : Addr → Byte}
    (clean : p.Accesses memory (fun a _ => CleanCell code a) q) (agree : AgreeOffStack r q) :
    AgreeOffStack (p.run memory r).2 (p.run memory q).2 ∧
      Untouched code r (p.run memory r).2 ∧ Untouched code q (p.run memory q).2 := by
  refine (run_simulates (R := fun r' q' : Addr → Byte => AgreeOffStack r' q' ∧
    Untouched code r r' ∧ Untouched code q q') ?_ ?_ clean
    ⟨agree, .refl r, .refl q⟩).2
  · intro a r' q' related off
    exact ⟨related.1 a off, related⟩
  · intro a v r' q' related off
    exact ⟨related.1.update a v, related.2.1.update off v, related.2.2.update off v⟩

theorem lynxSerialRead_withRam (off : Byte) (r : Addr → Byte) (hw : Hw η) :
    lynxSerialRead off (hw.withRam r) =
      ((lynxSerialRead off hw).1, (lynxSerialRead off hw).2.withRam r) := by
  have empty : rxEmpty (hw.withRam r).serial = rxEmpty hw.serial := rfl
  rw [lynxSerialRead, lynxSerialRead, empty]
  by_cases data : off = 0x8D
  · rw [if_pos data, if_pos data]
    cases rxEmpty hw.serial with
    | true => rfl
    | false =>
      exact congrArg (Prod.mk _) (rxService_withRam r
        { hw with serial := { hw.serial with rxHead := rxNext hw.serial.rxHead } })
  · rw [if_neg data, if_neg data]
    rfl

theorem lynxMikeyRead_withRam (off : Byte) (r : Addr → Byte) (hw : Hw η) :
    lynxMikeyRead off (hw.withRam r) =
      ((lynxMikeyRead off hw).1, (lynxMikeyRead off hw).2.withRam r) := by
  rw [lynxMikeyRead, lynxMikeyRead]
  by_cases latch : off = mikeyIntrst ∨ off = mikeyIntset
  · rw [if_pos latch, if_pos latch]
    rfl
  · rw [if_neg latch, if_neg latch]
    by_cases serial : off = mikeySerctl ∨ off = mikeySerdat
    · rw [if_pos serial, if_pos serial]
      exact lynxSerialRead_withRam off r hw
    · rw [if_neg serial, if_neg serial]
      rfl

theorem lynxSuzyWrite_withRam {off val : Byte} (idle : off = suzySprgo → val &&& 1 = 0)
    (r : Addr → Byte) (hw : Hw η) :
    lynxSuzyWrite off val (hw.withRam r) = (lynxSuzyWrite off val hw).withRam r := by
  unfold lynxSuzyWrite
  by_cases start : off = suzySprgo
  · have even : ¬ val &&& 1 ≠ 0 := fun odd => odd (idle start)
    rw [if_pos start, if_pos start, if_neg even, if_neg even]
    rfl
  · rw [if_neg start, if_neg start, apply_ite (Hw.withRam r), apply_ite (Hw.withRam r)]
    rfl

/-- A clean read gives the same over both machines, and changes no memory. -/
theorem lynxMemRead_clean {t s : Hw η} (alike : Alike t s) {a : Addr} (off : ¬ stackPage a) :
    (lynxMemRead a t).1 = (lynxMemRead a s).1 ∧ Alike (lynxMemRead a t).2 (lynxMemRead a s).2 ∧
      (lynxMemRead a t).2.ram = t.ram ∧ (lynxMemRead a s).2.ram = s.ram := by
  have blind (r : Addr → Byte) (hw : Hw η) := lynxMikeyRead_withRam (regOff a mikeyBase) r hw
  have kept : (lynxMikeyRead (regOff a mikeyBase) s).2.ram = s.ram := by
    have same := congrArg (fun x => x.2.ram) (blind s.ram s)
    simpa using same
  obtain ⟨r, rfl⟩ : ∃ r, t = s.withRam r := ⟨t.ram, alike.rest⟩
  have agree : AgreeOffStack r s.ram := alike.ram
  unfold lynxMemRead
  by_cases suzy : suzyBase ≤ a ∧ a < mikeyBase
  · rw [if_pos suzy, if_pos suzy]
    exact ⟨rfl, alike, rfl, rfl⟩
  · rw [if_neg suzy, if_neg suzy]
    by_cases mikey : mikeyBase ≤ a ∧ a < bootromBase
    · rw [if_pos mikey, if_pos mikey, blind]
      exact ⟨rfl, ⟨rfl, by rwa [kept]⟩, rfl, kept⟩
    · rw [if_neg mikey, if_neg mikey]
      exact ⟨agree a off, alike, rfl, rfl⟩

variable {hooks : Hooks η} {t s : Hw η}

theorem Alike.blind {f : Hw η → Hw η} (alike : Alike t s) (blind : StackBlind f) :
    Alike (f t) (f s) ∧ Untouched code t.ram (f t).ram ∧ Untouched code s.ram (f s).ram := by
  have same : f t = (f s).withRam t.ram := alike.rest ▸ blind s t.ram alike.ram
  have kept : (f s).ram = s.ram := blind.ram s
  refine ⟨⟨?_, ?_⟩, ?_, ?_⟩
  · rw [same]
    rfl
  · rw [same, kept]
    exact alike.ram
  · rw [same]
    exact .refl t.ram
  · rw [kept]
    exact .refl s.ram

theorem Alike.blit (alike : Alike t s) {v : Byte} (odd : v &&& 1 ≠ 0)
    (clean : (blitStarted v s).Accesses memory (fun a _ => CleanCell code a) s.ram) :
    Alike (lynxSuzyWrite suzySprgo v t) (lynxSuzyWrite suzySprgo v s) ∧
      Untouched code t.ram (lynxSuzyWrite suzySprgo v t).ram ∧
      Untouched code s.ram (lynxSuzyWrite suzySprgo v s).ram := by
  have started (hw : Hw η) : lynxSuzyWrite suzySprgo v hw =
      lynxSuzyBlit { hw with
        suzy := { reg := Function.update hw.suzy.reg suzySprgo v, busy := 1 } } := by
    rw [lynxSuzyWrite, if_pos rfl, if_pos odd]
  obtain ⟨agree, kept, kept'⟩ := run_memory_clean clean alike.ram
  obtain ⟨r, rfl⟩ : ∃ r, t = s.withRam r := ⟨t.ram, alike.rest⟩
  rw [started, started]
  exact ⟨⟨rfl, agree⟩, kept, kept'⟩

theorem sprgo_of_regOff {a : Addr} (suzy : suzyBase ≤ a ∧ a < mikeyBase)
    (off : regOff a suzyBase = suzySprgo) : a = sprgo := by
  simp only [regOff, suzyBase, suzySprgo, sprgo, mikeyBase] at *
  bv_omega

/-- A clean store does the same to both machines. -/
theorem lynxMemWrite_clean (off_stack : hooks.OffStack) (alike : Alike t s) {a : Addr} {v : Byte}
    (clean : Clean code (.write a v) s) :
    Alike (lynxMemWrite hooks a v t) (lynxMemWrite hooks a v s) ∧
      Untouched code t.ram (lynxMemWrite hooks a v t).ram ∧
      Untouched code s.ram (lynxMemWrite hooks a v s).ram := by
  unfold lynxMemWrite
  by_cases suzy : suzyBase ≤ a ∧ a < mikeyBase
  · simp only [if_pos suzy]
    by_cases start : regOff a suzyBase = suzySprgo ∧ v &&& 1 ≠ 0
    · rw [start.1]
      obtain rfl := sprgo_of_regOff suzy start.1
      exact alike.blit start.2 (clean.2 v rfl start.2)
    · refine alike.blind (stackBlind_of_forall fun hw r => lynxSuzyWrite_withRam ?_ r hw)
      exact fun off => not_not.mp fun odd => start ⟨off, odd⟩
  · simp only [if_neg suzy]
    by_cases mikey : mikeyBase ≤ a ∧ a < bootromBase
    · simp only [if_pos mikey]
      exact alike.blind (lynxMikeyWrite_blind off_stack _ v)
    · simp only [if_neg mikey]
      obtain ⟨r, rfl⟩ : ∃ r, t = s.withRam r := ⟨t.ram, alike.rest⟩
      exact ⟨⟨rfl, AgreeOffStack.update alike.ram a v⟩, Untouched.update (.refl _) clean.1 v,
        Untouched.update (.refl _) clean.1 v⟩

/-- A program that accesses memory cleanly gives the same over both machines, leaves them
alike, and leaves the stack page and the code of each as they were. -/
theorem run_clean {α : Type} {p : Code α} (off_stack : hooks.OffStack) (alike : Alike t s)
    (clean : p.Accesses (memBus hooks) (Clean code) s) :
    (p.run (memBus hooks) t).1 = (p.run (memBus hooks) s).1 ∧
      Alike (p.run (memBus hooks) t).2 (p.run (memBus hooks) s).2 ∧
      Untouched code t.ram (p.run (memBus hooks) t).2.ram ∧
      Untouched code s.ram (p.run (memBus hooks) s).2.ram := by
  refine run_simulates (R := fun t' s' => Alike t' s' ∧ Untouched code t.ram t'.ram ∧
    Untouched code s.ram s'.ram) ?_ ?_ clean ⟨alike, .refl _, .refl _⟩
  · intro a t' s' related off
    obtain ⟨same, next, kept, kept'⟩ := lynxMemRead_clean related.1 off.1
    exact ⟨same, next, by rw [memBus_read, kept]; exact related.2.1,
      by rw [memBus_read, kept']; exact related.2.2⟩
  · intro a v t' s' related clean
    obtain ⟨next, kept, kept'⟩ := lynxMemWrite_clean off_stack related.1 clean
    exact ⟨next, related.2.1.trans kept, related.2.2.trans kept'⟩

end Clean

end LynxRecomp
