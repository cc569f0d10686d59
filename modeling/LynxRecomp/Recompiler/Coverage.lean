import LynxRecomp.Recompiler.WellFormed

/-!
# Which transfers the emitted code covers

Discovery pushes the targets of calls and of forward jumps as routines of their own, and
trusts branches and backward jumps to stay inside the routine. Where one of these leads
into the image but to neither a boundary of its routine nor an entry found otherwise,
the emitted code has nothing to go to. Nor has it a line for what a sweep decodes at the top
of memory, where the extent of the routine does not follow.
-/

namespace LynxRecomp

/-- A conditional branch, `BRA`, `JMP abs` or `JSR`. -/
def Insn.transfers (i : Insn) : Bool := i.jumps || decide (i.cflow = .call)

/-- The statement goes to the label `a` of its function or calls the function at `a`. -/
def CFile.Covers (file : CFile) (f : CFunction) (s : CStmt) (a : Addr) : Prop :=
  (a ∈ s.gotos ∧ a ∈ f.labels) ∨ (a ∈ s.calls ∧ a ∈ file.functions.map CFunction.start)

/-- Every transfer into the image that discovery decodes has its line, each such line is covered
by the file, and every target outside is listed. -/
structure NoDispatchGap (img : Image) (t : FuncTable) (file : CFile) : Prop where
  emitted : ∀ f ∈ t.funcs, ∀ v ∈ sweep img f.start, v.insn.transfers = true →
    inImage img v.insn.target = true →
    ∃ g ∈ file.functions, g.start = f.start ∧ ∃ line ∈ g.lines, line.pc = v.insn.pc
  inside : ∀ f ∈ file.functions, ∀ line ∈ f.lines, (img.decode line.pc).transfers = true →
    inImage img (img.decode line.pc).target = true →
    file.Covers f line.stmt (img.decode line.pc).target
  outside : ∀ f ∈ t.funcs, ∀ v ∈ sweep img f.start, v.insn.transfers = true →
    inImage img v.insn.target = false → v.insn.target ∈ t.ext

/-- The entries that calls and jumps make known, starting from the seeds. -/
def Entry (img : Image) (seeds : List Addr) : Addr → Prop :=
  Worklist.Reach (routineEntries img) (seeds.filter (inImage img))

/-- Discovery stays within `MAX_FUNCS` and `MAX_LABELS`. -/
structure WithinCapacity (img : Image) (seeds : List Addr) : Prop where
  funcs : Worklist.Fits maxFuncs (routineEntries img) (seeds.filter (inImage img))
  labels : ∀ fs, Entry img seeds fs → (recordedTargets img fs).toFinset.card ≤ maxLabels
  ext : ((starts img seeds).flatMap (routineExts img)).toFinset.card ≤ maxFuncs

/-- The transfers that discovery does not follow lead somewhere nevertheless. -/
structure Followed (img : Image) (seeds : List Addr) : Prop where
  /-- What is decoded behind the top of memory does not lead into the image. -/
  below : ∀ fs, Entry img seeds fs → ∀ v ∈ sweep img fs, v.insn.transfers = true →
    inImage img v.insn.target = true → v.BelowTop fs
  /-- Branches and backward jumps land on a boundary of their routine or on an entry. -/
  near : ∀ fs, Entry img seeds fs → ∀ i ∈ body img fs, i.jumps = true →
    inImage img i.target = true → i.cflow = .branch ∨ i.target ≠ 0 ∧ i.target ≤ i.next →
    i.target ∈ boundaries img fs ∨ Entry img seeds i.target
  /-- A jump to `$0000` finds a branch target of its routine there, or an entry. -/
  zero : ∀ fs, Entry img seeds fs → ∀ i ∈ body img fs, i.jumps = true → i.cflow = .jmp →
    i.target = 0 → inImage img 0 = true →
    (0 ∈ boundaries img fs → 0 ∈ recordedTargets img fs) ∧
      (0 ∉ boundaries img fs → Entry img seeds 0)
  /-- A branch or a jump to `$0000` leaves the image where a call or jump does too. -/
  outside : ∀ fs, Entry img seeds fs → ∀ v ∈ sweep img fs, v.insn.jumps = true →
    inImage img v.insn.target = false → v.insn.cflow = .branch ∨ v.insn.target = 0 →
    ∃ other, Entry img seeds other ∧ v.insn.target ∈ routineExts img other

section Discovered

variable {img : Image} {seeds : List Addr}

/-- A short list that holds the seeds and is closed under what its routines make known. -/
structure EntryBound (img : Image) (seeds bound : List Addr) : Prop where
  short : bound.length ≤ maxFuncs
  seeded : ∀ a ∈ seeds.filter (inImage img), a ∈ bound
  closed : ∀ a ∈ bound, ∀ b ∈ routineEntries img a, b ∈ bound

theorem EntryBound.mem {bound : List Addr} (bounded : EntryBound img seeds bound) {a : Addr}
    (entry : Entry img seeds a) : a ∈ bound :=
  Worklist.Reach.of_closed (I := fun a => a ∈ bound) entry bounded.seeded bounded.closed

theorem EntryBound.fits {bound : List Addr} (bounded : EntryBound img seeds bound) :
    Worklist.Fits maxFuncs (routineEntries img) (seeds.filter (inImage img)) :=
  ⟨bound, bounded.short, fun _ => bounded.mem⟩

theorem EntryBound.within {bound : List Addr} (bounded : EntryBound img seeds bound)
    (labels : ∀ a ∈ bound, (recordedTargets img a).toFinset.card ≤ maxLabels)
    (ext : ((starts img seeds).flatMap (routineExts img)).toFinset.card ≤ maxFuncs) :
    WithinCapacity img seeds where
  funcs := bounded.fits
  labels := fun _ entry => labels _ (bounded.mem entry)
  ext := ext

theorem mem_starts_iff
    (fits : Worklist.Fits maxFuncs (routineEntries img) (seeds.filter (inImage img))) {a : Addr} :
    a ∈ starts img seeds ↔ Entry img seeds a :=
  ⟨(Worklist.run_sound _ _).2.2 a, Worklist.run_complete fits (Nat.le_refl _)⟩

theorem mem_ext_iff (within : WithinCapacity img seeds) {a : Addr} :
    a ∈ (analyzeDiscover img seeds).ext ↔ ∃ fs, Entry img seeds fs ∧ a ∈ routineExts img fs := by
  rw [analyzeDiscover_eq, Capped.mem_keep_of_fits within.ext, List.mem_flatMap]
  simp only [mem_starts_iff within.funcs]

theorem mem_labels_of_recorded (within : WithinCapacity img seeds) {fs a : Addr}
    (entry : Entry img seeds fs) :
    a ∈ (routine img fs).labels ↔ a ∈ recordedTargets img fs :=
  (mem_labels img).trans (Capped.mem_keep_of_fits (within.labels fs entry))

/-- What a line of the body makes known, if it is a call or a forward jump. -/
theorem entry_of_target {fs : Addr} (entry : Entry img seeds fs) {i : Insn}
    (member : i ∈ body img fs) (inside : inImage img i.target = true)
    (pushed : i.cflow = .call ∨ i.cflow = .jmp ∧ i.target ≠ 0 ∧ ¬ i.target ≤ i.next) :
    Entry img seeds i.target := by
  obtain ⟨v, visited, rfl⟩ := List.mem_map.mp member
  obtain ⟨_, _, _, _, _, extent⟩ := (bodyVisits_chain img fs).visit v visited
  refine .succ entry (List.mem_flatMap.mpr ⟨v, List.takeWhile_subset _ visited, ?_⟩)
  unfold Visit.pushes
  obtain call | ⟨jmp, nonzero, forward⟩ := pushed
  · simp [call, inside]
  · rw [extent, jmp]
    refine List.mem_append_left _ ?_
    rw [if_pos ⟨nonzero, inside, forward⟩]
    exact List.mem_singleton_self _

theorem ext_of_target {fs : Addr} {v : Visit} (visited : v ∈ sweep img fs)
    (outside : inImage img v.insn.target = false)
    (noted : v.insn.cflow = .call ∨ v.insn.cflow = .jmp ∧ v.insn.target ≠ 0) :
    v.insn.target ∈ routineExts img fs := by
  refine List.mem_flatMap.mpr ⟨v, visited, ?_⟩
  unfold Visit.exts
  obtain call | ⟨jmp, nonzero⟩ := noted
  · simp [call, outside]
  · rw [jmp]
    exact List.mem_ite_nil_right.mpr ⟨⟨nonzero, outside⟩, List.mem_singleton_self _⟩

theorem transfers_of_jumps {i : Insn} (jumps : i.jumps = true) : i.transfers = true := by
  rw [Insn.transfers, jumps]
  rfl

theorem jumps_cflow {i : Insn} (jumps : i.jumps = true) : i.cflow = .branch ∨ i.cflow = .jmp := by
  unfold Insn.jumps at jumps
  cases class_ : i.cflow <;> simp_all

/-- A target inside the image is dealt with in the routine at `fs`: as a label of the routine
or as the start of another. -/
def Placed (img : Image) (seeds : List Addr) (fs : Addr) (i : Insn) : Prop :=
  (i.jumps = true ∧ i.target ∈ boundaries img fs ∧ i.target ∈ recordedTargets img fs) ∨
    (i.jumps = true ∧ i.target ∉ boundaries img fs ∨ i.cflow = .call) ∧ Entry img seeds i.target

theorem covers_iff (within : WithinCapacity img seeds) {fs : Addr} (entry : Entry img seeds fs)
    {i : Insn} (member : i ∈ body img fs) :
    (emitFunctions img (analyzeDiscover img seeds)).Covers
        (emittedRoutine img (analyzeDiscover img seeds) fs)
        (emittedLine img (analyzeDiscover img seeds) fs i).stmt i.target ↔
      Placed img seeds fs i := by
  have ok := body_consistent member
  rw [CFile.Covers, emitFunctions_starts, mem_emittedRoutine_labels,
    mem_labels_of_recorded within entry, mem_starts_iff within.funcs, emittedLine,
    emitInsn_gotos _ _ ok, emitInsn_calls _ _ ok, Placed]
  simp only [decide_eq_true_eq, decide_eq_false_iff_not, List.mem_ite_nil_right, List.mem_singleton,
    isFunc_iff, mem_starts_iff within.funcs]
  tauto

/-- The transfers of the emitted file are those of the bodies of the entries. -/
theorem forall_transfers_iff (within : WithinCapacity img seeds)
    {P : CFunction → CLine → Insn → Prop} :
    (∀ f ∈ (emitFunctions img (analyzeDiscover img seeds)).functions, ∀ line ∈ f.lines,
        P f line (img.decode line.pc)) ↔
      ∀ fs, Entry img seeds fs → ∀ i ∈ body img fs,
        P (emittedRoutine img (analyzeDiscover img seeds) fs)
          (emittedLine img (analyzeDiscover img seeds) fs i) i := by
  rw [emitFunctions_eq]
  simp only [List.forall_mem_map, mem_starts_iff within.funcs]
  refine forall₂_congr fun fs _ => ?_
  simp only [emittedRoutine, List.forall_mem_map]
  refine forall₂_congr fun i member => ?_
  exact iff_of_eq (congrArg _ (body_decoded member).1.symm)

/-- The instructions that discovery decodes are those of the sweeps of the entries. -/
theorem forall_visits_iff (within : WithinCapacity img seeds) {P : Addr → Visit → Prop} :
    (∀ f ∈ (analyzeDiscover img seeds).funcs, ∀ v ∈ sweep img f.start, P f.start v) ↔
      ∀ fs, Entry img seeds fs → ∀ v ∈ sweep img fs, P fs v := by
  rw [analyzeDiscover_funcs]
  simp only [List.forall_mem_map, mem_starts_iff within.funcs]
  exact Iff.rfl

/-- An instruction has a line in the function of its routine exactly if it lies below the top of
memory. -/
theorem emitted_iff {fs : Addr} (start : fs ∈ starts img seeds) {v : Visit}
    (visited : v ∈ sweep img fs) :
    (∃ g ∈ (emitFunctions img (analyzeDiscover img seeds)).functions, g.start = fs ∧
        ∃ line ∈ g.lines, line.pc = v.insn.pc) ↔ v.BelowTop fs := by
  rw [emitFunctions_eq]
  constructor
  · rintro ⟨g, function, begins, line, emitted, at_⟩
    obtain ⟨other, _, rfl⟩ := List.mem_map.mp function
    obtain rfl : other = fs := begins
    obtain ⟨i, member, rfl⟩ := List.mem_map.mp emitted
    exact belowTop_of_mem_boundaries visited (List.mem_map.mpr ⟨i, member, at_⟩)
  · intro below
    refine ⟨_, List.mem_map_of_mem start, rfl, _, List.mem_map_of_mem ?_, rfl⟩
    exact mem_body_of_belowTop visited below

/-- What discovery decodes, the routine at `fs` emits and places, or it is known as external. -/
def Visit.Placed (img : Image) (seeds : List Addr) (fs : Addr) (v : Visit) : Prop :=
  (inImage img v.insn.target = true → v.BelowTop fs ∧ LynxRecomp.Placed img seeds fs v.insn) ∧
    (inImage img v.insn.target = false →
      ∃ other, Entry img seeds other ∧ v.insn.target ∈ routineExts img other)

/-- The property of the file, read off the sweeps. -/
def AllPlaced (img : Image) (seeds : List Addr) : Prop :=
  ∀ fs, Entry img seeds fs → ∀ v ∈ sweep img fs, v.insn.transfers = true → v.Placed img seeds fs

theorem noDispatchGap_iff_placed (within : WithinCapacity img seeds) :
    NoDispatchGap img (analyzeDiscover img seeds) (emitFunctions img (analyzeDiscover img seeds)) ↔
      AllPlaced img seeds := by
  have lowered := forall_transfers_iff within (P := fun f line i => i.transfers = true →
    inImage img i.target = true →
    (emitFunctions img (analyzeDiscover img seeds)).Covers f line.stmt i.target)
  have decoded := forall_visits_iff within (P := fun fs v => v.insn.transfers = true →
    inImage img v.insn.target = true →
    ∃ g ∈ (emitFunctions img (analyzeDiscover img seeds)).functions, g.start = fs ∧
      ∃ line ∈ g.lines, line.pc = v.insn.pc)
  have listed := forall_visits_iff within (P := fun _ v => v.insn.transfers = true →
    inImage img v.insn.target = false → v.insn.target ∈ (analyzeDiscover img seeds).ext)
  constructor
  · rintro ⟨emitted, inside, outside⟩ fs entry v visited transfers
    refine ⟨fun target => ?_, fun target => ?_⟩
    · have start := (mem_starts_iff within.funcs).mpr entry
      have below := (emitted_iff start visited).mp
        (decoded.mp emitted fs entry v visited transfers target)
      have member := mem_body_of_belowTop visited below
      exact ⟨below, (covers_iff within entry member).mp
        (lowered.mp inside fs entry _ member transfers target)⟩
    · exact (mem_ext_iff within).mp (listed.mp outside fs entry v visited transfers target)
  · intro placed
    refine ⟨decoded.mpr ?_, lowered.mpr ?_, listed.mpr ?_⟩
    · intro fs entry v visited transfers target
      exact (emitted_iff ((mem_starts_iff within.funcs).mpr entry) visited).mpr
        ((placed fs entry v visited transfers).1 target).1
    · intro fs entry i member transfers target
      obtain ⟨v, visited, rfl⟩ := List.mem_map.mp member
      have met := List.takeWhile_subset _ visited
      exact (covers_iff within entry member).mpr ((placed fs entry v met transfers).1 target).2
    · intro fs entry v visited transfers target
      exact (mem_ext_iff within).mpr ((placed fs entry v visited transfers).2 target)

theorem placed_of_recorded {fs : Addr} {i : Insn} (member : i ∈ body img fs)
    (jumps : i.jumps = true) (inside : inImage img i.target = true)
    (known : i.cflow = .branch ∨ i.target ≠ 0)
    (lands : i.target ∈ boundaries img fs ∨ Entry img seeds i.target) :
    Placed img seeds fs i := by
  by_cases boundary : i.target ∈ boundaries img fs
  · exact .inl ⟨jumps, boundary, target_recorded member jumps inside known⟩
  · exact .inr ⟨.inl ⟨jumps, boundary⟩, lands.resolve_left boundary⟩

theorem Followed.placed (followed : Followed img seeds) {fs : Addr} (entry : Entry img seeds fs)
    {i : Insn} (member : i ∈ body img fs) (transfers : i.transfers = true)
    (inside : inImage img i.target = true) : Placed img seeds fs i := by
  rw [Insn.transfers, Bool.or_eq_true, decide_eq_true_eq] at transfers
  obtain jumps | call := transfers
  · obtain branch | jmp := jumps_cflow jumps
    · exact placed_of_recorded member jumps inside (.inl branch)
        (followed.near fs entry i member jumps inside (.inl branch))
    · by_cases zero : i.target = 0
      · obtain ⟨recorded, known⟩ :=
          followed.zero fs entry i member jumps jmp zero (zero ▸ inside)
        rw [← zero] at recorded known
        by_cases boundary : i.target ∈ boundaries img fs
        · exact .inl ⟨jumps, boundary, recorded boundary⟩
        · exact .inr ⟨.inl ⟨jumps, boundary⟩, known boundary⟩
      · refine placed_of_recorded member jumps inside (.inr zero) ?_
        by_cases back : i.target ≤ i.next
        · exact followed.near fs entry i member jumps inside (.inr ⟨zero, back⟩)
        · exact .inr (entry_of_target entry member inside (.inr ⟨jmp, zero, back⟩))
  · exact .inr ⟨.inr call, entry_of_target entry member inside (.inl call)⟩

/-- A transfer of a body is among those of its sweep. -/
theorem AllPlaced.body (placed : AllPlaced img seeds) {fs : Addr} (entry : Entry img seeds fs)
    {i : Insn} (member : i ∈ body img fs) (jumps : i.jumps = true)
    (target : inImage img i.target = true) : Placed img seeds fs i := by
  obtain ⟨v, visited, rfl⟩ := List.mem_map.mp member
  have met := List.takeWhile_subset _ visited
  exact ((placed fs entry v met (transfers_of_jumps jumps)).1 target).2

theorem AllPlaced.followed (placed : AllPlaced img seeds) : Followed img seeds := by
  refine ⟨?_, ?_, ?_, ?_⟩
  · intro fs entry v visited transfers target
    exact ((placed fs entry v visited transfers).1 target).1
  · intro fs entry i member jumps target _
    obtain ⟨_, boundary, _⟩ | ⟨_, known⟩ := placed.body entry member jumps target
    · exact .inl boundary
    · exact .inr known
  · intro fs entry i member jumps jmp zero target
    have lands := placed.body entry member jumps (zero ▸ target)
    rw [Placed, zero] at lands
    obtain ⟨_, boundary, recorded⟩ | ⟨⟨_, other⟩ | call, known⟩ := lands
    · exact ⟨fun _ => recorded, fun other => absurd boundary other⟩
    · exact ⟨fun boundary => absurd boundary other, fun _ => known⟩
    · exact absurd (jmp.symm.trans call) (by decide)
  · intro fs entry v visited jumps target _
    exact (placed fs entry v visited (transfers_of_jumps jumps)).2 target

/-- Calls and jumps out of the image are noted where they are met. -/
theorem Followed.noted (followed : Followed img seeds) {fs : Addr} (entry : Entry img seeds fs)
    {v : Visit} (visited : v ∈ sweep img fs) (transfers : v.insn.transfers = true)
    (outside : inImage img v.insn.target = false) :
    ∃ other, Entry img seeds other ∧ v.insn.target ∈ routineExts img other := by
  by_cases kept : v.insn.jumps = true ∧ (v.insn.cflow = .branch ∨ v.insn.target = 0)
  · exact followed.outside fs entry v visited kept.1 outside kept.2
  · refine ⟨fs, entry, ext_of_target visited outside ?_⟩
    rw [Insn.transfers, Bool.or_eq_true, decide_eq_true_eq] at transfers
    obtain jumps | call := transfers
    · obtain branch | jmp := jumps_cflow jumps
      · exact absurd ⟨jumps, .inl branch⟩ kept
      · exact .inr ⟨jmp, fun zero => kept ⟨jumps, .inr zero⟩⟩
    · exact .inl call

theorem Followed.allPlaced (followed : Followed img seeds) : AllPlaced img seeds := by
  intro fs entry v visited transfers
  refine ⟨fun inside => ?_, fun outside => followed.noted entry visited transfers outside⟩
  have below := followed.below fs entry v visited transfers inside
  exact ⟨below, followed.placed entry (mem_body_of_belowTop visited below) transfers inside⟩

end Discovered

/-- Without overflow, there is no dispatch gap exactly if every transfer that discovery
does not follow leads somewhere nevertheless. -/
theorem noDispatchGap_iff (img : Image) (seeds : List Addr) (within : WithinCapacity img seeds) :
    NoDispatchGap img (analyzeDiscover img seeds) (emitFunctions img (analyzeDiscover img seeds)) ↔
      Followed img seeds :=
  (noDispatchGap_iff_placed within).trans ⟨AllPlaced.followed, Followed.allPlaced⟩

section Images

/-- `$0200: JSR $0204; RTS`, `$0204: DEX; BNE $0204; RTS`. -/
def loopImage : Image := ⟨0x200, [0x20, 0x04, 0x02, 0x60, 0xCA, 0xD0, 0xFD, 0x60]⟩

theorem loopImage_bound : EntryBound loopImage [0x200] [0x200, 0x204] where
  short := by decide +kernel
  seeded := by
    have seeds : [0x200].filter (inImage loopImage) = [0x200] := by decide +kernel
    rw [seeds]
    simp
  closed := by
    have caller : routineEntries loopImage 0x200 = [0x204] := by decide +kernel
    have callee : routineEntries loopImage 0x204 = [] := by decide +kernel
    rw [List.forall_mem_cons, List.forall_mem_singleton, caller, callee]
    simp

theorem loopImage_within : WithinCapacity loopImage [0x200] := by
  have caller : recordedTargets loopImage 0x200 = [] := by decide +kernel
  have callee : recordedTargets loopImage 0x204 = [0x204] := by decide +kernel
  have ext : (starts loopImage [0x200]).flatMap (routineExts loopImage) = [] := by decide +kernel
  refine loopImage_bound.within ?_ (by rw [ext]; decide)
  rw [List.forall_mem_cons, List.forall_mem_singleton, caller, callee]
  decide

theorem loopImage_covered :
    NoDispatchGap loopImage (analyzeDiscover loopImage [0x200])
      (emitFunctions loopImage (analyzeDiscover loopImage [0x200])) := by
  have caller : (body loopImage 0x200).filter Insn.jumps = [] := by decide +kernel
  have callee : (body loopImage 0x204).filter Insn.jumps = [loopImage.decode 0x205] := by
    decide +kernel
  have target : (loopImage.decode 0x205).target = 0x204 := by decide +kernel
  have boundary : boundaries loopImage 0x204 = [0x204, 0x205, 0x207] := by decide +kernel
  have lands (fs : Addr) (entry : Entry loopImage [0x200] fs) (i : Insn)
      (member : i ∈ body loopImage fs) (jumps : i.jumps = true) :
      fs = 0x204 ∧ i.target = 0x204 := by
    have kept := List.mem_filter.mpr ⟨member, jumps⟩
    obtain rfl | other := List.mem_cons.mp (loopImage_bound.mem entry)
    · rw [caller] at kept
      exact absurd kept List.not_mem_nil
    · obtain rfl := List.mem_singleton.mp other
      rw [callee] at kept
      exact ⟨rfl, List.mem_singleton.mp kept ▸ target⟩
  have below (fs : Addr) (entry : Entry loopImage [0x200] fs) : ∀ v ∈ sweep loopImage fs,
      v.BelowTop fs := by
    obtain rfl | other := List.mem_cons.mp (loopImage_bound.mem entry)
    · decide +kernel
    · obtain rfl := List.mem_singleton.mp other
      decide +kernel
  refine (noDispatchGap_iff loopImage [0x200] loopImage_within).mpr ⟨?_, ?_, ?_, ?_⟩
  · exact fun fs entry v visited _ _ => below fs entry v visited
  · intro fs entry i member jumps _ _
    obtain ⟨rfl, at_⟩ := lands fs entry i member jumps
    exact .inl (by rw [at_, boundary]; decide)
  · intro fs entry i member jumps _ zero
    obtain ⟨_, at_⟩ := lands fs entry i member jumps
    exact absurd (at_.symm.trans zero) (by decide)
  · intro fs entry v visited jumps outside
    have member := mem_body_of_belowTop visited (below fs entry v visited)
    obtain ⟨_, at_⟩ := lands fs entry v.insn member jumps
    have inside : inImage loopImage 0x204 = true := by decide +kernel
    rw [at_, inside] at outside
    exact absurd outside (by decide)

/-- `$0200: RTS`, `$0203: JMP $0200`, found through `$0203`. -/
def backImage : Image := ⟨0x200, [0x60, 0x00, 0x00, 0x4C, 0x00, 0x02]⟩

/-- A jump below the start of its routine is within the image but leads nowhere. -/
theorem backwardJump_uncovered :
    WithinCapacity backImage [0x203] ∧
      ¬ NoDispatchGap backImage (analyzeDiscover backImage [0x203])
        (emitFunctions backImage (analyzeDiscover backImage [0x203])) := by
  have seeds : [0x203].filter (inImage backImage) = [0x203] := by decide +kernel
  have entries : routineEntries backImage 0x203 = [] := by decide +kernel
  have targets : recordedTargets backImage 0x203 = [0x200] := by decide +kernel
  have ext : (starts backImage [0x203]).flatMap (routineExts backImage) = [] := by decide +kernel
  have bounded : EntryBound backImage [0x203] [0x203] := by
    refine ⟨by decide +kernel, by rw [seeds]; simp, ?_⟩
    rw [List.forall_mem_singleton, entries]
    simp
  constructor
  · refine bounded.within ?_ (by rw [ext]; decide)
    rw [List.forall_mem_singleton, targets]
    decide
  · intro noGap
    have emitted : emitFunctions backImage (analyzeDiscover backImage [0x203]) =
        { functions := [{ start := 0x203, lines := [⟨0x203, false, .jump (.ext 0x200)⟩] }]
          registers := [0x203] } := by decide +kernel
    have transfers : (backImage.decode 0x203).transfers = true := by decide +kernel
    have target : (backImage.decode 0x203).target = 0x200 := by decide +kernel
    have inside : inImage backImage 0x200 = true := by decide +kernel
    rw [emitted] at noGap
    have covered := noGap.inside _ List.mem_cons_self _ List.mem_cons_self transfers
      (by rw [target]; exact inside)
    rw [target] at covered
    obtain ⟨goes, _⟩ | ⟨calls, _⟩ := covered
    · exact absurd goes List.not_mem_nil
    · exact absurd calls List.not_mem_nil

/-- `$FFFD: JMP $FFFD`, up to the top of memory -/
def selfImage : Image := ⟨0xFFFD, [0x4C, 0xFD, 0xFF]⟩

/-- Discovery decodes the jump, and the emitted function is empty. -/
example : (sweep selfImage 0xFFFD).map Visit.insn = [selfImage.decode 0xFFFD] ∧
    emitFunctions selfImage (analyzeDiscover selfImage [0xFFFD]) =
      { functions := [{ start := 0xFFFD, lines := [] }], registers := [0xFFFD] } := by
  decide +kernel

end Images

end LynxRecomp
