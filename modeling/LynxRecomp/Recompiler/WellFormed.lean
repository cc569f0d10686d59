import LynxRecomp.Recompiler.Control

/-!
# When the emitted file is well formed

The labels of a function come from the targets that discovery recorded, its gotos from
the boundaries of the second decode pass. The two agree on a target that the sweep of
the routine meets before its label list is full; a jump to `$0000` is never recorded.
-/

namespace LynxRecomp

/-- The labels that a function declares. -/
def CFunction.labels (f : CFunction) : List Addr := (f.lines.filter CLine.labelled).map CLine.pc

/-- Every goto has exactly one label in its function, every function called or registered
is defined exactly once, and no two functions share their start. -/
structure CFile.WellFormed (file : CFile) : Prop where
  gotos : ∀ f ∈ file.functions, ∀ line ∈ f.lines, ∀ a ∈ line.stmt.gotos, f.labels.count a = 1
  calls : ∀ f ∈ file.functions, ∀ line ∈ f.lines, ∀ a ∈ line.stmt.calls,
    (file.functions.map CFunction.start).count a = 1
  registers : ∀ a ∈ file.registers, (file.functions.map CFunction.start).count a = 1
  distinct : (file.functions.map CFunction.start).Nodup

/-- The sweep of the routine at `fs` records `a`, and fewer than `MAX_LABELS` other targets
before it. -/
def MetInTime (img : Image) (fs a : Addr) : Prop :=
  ∃ before after, recordedTargets img fs = before ++ a :: after ∧
    before.toFinset.card < maxLabels

section Labels

variable {img : Image} {fs : Addr}

theorem mem_labels_iff {a : Addr} : a ∈ (routine img fs).labels ↔ MetInTime img fs a :=
  (mem_labels img).trans Capped.mem_keep_iff

theorem boundaries_nodup (img : Image) (fs : Addr) : (boundaries img fs).Nodup := by
  rw [boundaries, body, List.map_map]
  have chain := bodyVisits_chain img fs
  refine List.pairwise_map.mpr (chain.pairwise.imp_of_mem fun {v w} hv _ after same => ?_)
  obtain ⟨_, _, _, ascends, _⟩ := chain.visit v hv
  change v.insn.pc = w.insn.pc at same
  exact absurd (same ▸ addr_lt_of_lt_of_le ascends after) (BitVec.lt_irrefl _)

theorem body_decoded {i : Insn} (member : i ∈ body img fs) :
    i = img.decode i.pc ∧ inImage img i.pc = true ∧ i.pc < i.next ∧
      i.next ≤ (routine img fs).end_ := by
  obtain ⟨v, visited, rfl⟩ := List.mem_map.mp member
  obtain ⟨decoded, inside, _, ascends, below, _⟩ := (bodyVisits_chain img fs).visit v visited
  exact ⟨decoded, inside, ascends, below⟩

theorem body_consistent {i : Insn} (member : i ∈ body img fs) : i.Consistent :=
  (body_decoded member).1 ▸ img.decode_consistent i.pc

theorem boundary_inImage {a : Addr} (member : a ∈ boundaries img fs) : inImage img a = true := by
  obtain ⟨i, inside, rfl⟩ := List.mem_map.mp member
  exact (body_decoded inside).2.1

/-- The labels that the function declares are the recorded targets among its boundaries. -/
theorem emittedRoutine_labels (t : FuncTable) :
    (emittedRoutine img t fs).labels =
      (boundaries img fs).filter fun a => decide (a ∈ (routine img fs).labels) := by
  rw [CFunction.labels, emittedRoutine, boundaries, List.filter_map, List.filter_map, List.map_map]
  rfl

theorem mem_emittedRoutine_labels (t : FuncTable) {a : Addr} :
    a ∈ (emittedRoutine img t fs).labels ↔ a ∈ boundaries img fs ∧ a ∈ (routine img fs).labels := by
  rw [emittedRoutine_labels, List.mem_filter, decide_eq_true_eq]

theorem emittedRoutine_labels_count (t : FuncTable) (a : Addr) :
    (emittedRoutine img t fs).labels.count a =
      if a ∈ boundaries img fs ∧ a ∈ (routine img fs).labels then 1 else 0 := by
  have nodup := (boundaries_nodup img fs).filter fun a => decide (a ∈ (routine img fs).labels)
  rw [emittedRoutine_labels, nodup.count]
  simp only [List.mem_filter, decide_eq_true_eq]

/-- A target inside the image is recorded, unless it is that of a jump to `$0000`. -/
theorem target_recorded {i : Insn} (member : i ∈ body img fs) (jumps : i.jumps = true)
    (inside : inImage img i.target = true) (known : i.cflow = .branch ∨ i.target ≠ 0) :
    i.target ∈ recordedTargets img fs := by
  obtain ⟨v, visited, rfl⟩ := List.mem_map.mp member
  refine List.mem_flatMap.mpr ⟨v, List.takeWhile_subset _ visited, ?_⟩
  unfold Visit.targets
  unfold Insn.jumps at jumps
  cases class_ : v.insn.cflow <;> simp_all

end Labels

/-- The file is well formed exactly if every goto names a target recorded in time. -/
theorem emitted_file_wellFormed_iff (img : Image) (seeds : List Addr) :
    (emitFunctions img (analyzeDiscover img seeds)).WellFormed ↔
      ∀ fs ∈ starts img seeds, ∀ i ∈ body img fs, i.jumps = true →
        i.target ∈ boundaries img fs → MetInTime img fs i.target := by
  have defined := emitFunctions_starts img seeds
  rw [emitFunctions_eq] at defined ⊢
  have nodup := starts_nodup img seeds
  constructor
  · intro wellFormed fs start i member jumps inside
    have once := wellFormed.gotos _ (List.mem_map_of_mem start) _ (List.mem_map_of_mem member)
      i.target (by
        rw [emittedLine, emitInsn_gotos _ _ (body_consistent member)]
        simp [jumps, inside])
    rw [emittedRoutine_labels_count] at once
    split at once
    · rename_i both
      exact mem_labels_iff.mp both.2
    · exact absurd once Nat.zero_ne_one
  · intro met
    refine ⟨?_, ?_, ?_, defined.symm ▸ nodup⟩
    · intro f hf line hline a ha
      obtain ⟨fs, start, rfl⟩ := List.mem_map.mp hf
      obtain ⟨i, member, rfl⟩ := List.mem_map.mp hline
      rw [emittedLine, emitInsn_gotos _ _ (body_consistent member)] at ha
      split at ha
      · rename_i goes
        obtain rfl := List.mem_singleton.mp ha
        have inside := of_decide_eq_true goes.2
        rw [emittedRoutine_labels_count,
          if_pos ⟨inside, mem_labels_iff.mpr (met fs start i member goes.1 inside)⟩]
      · exact absurd ha List.not_mem_nil
    · intro f hf line hline a ha
      obtain ⟨fs, start, rfl⟩ := List.mem_map.mp hf
      obtain ⟨i, member, rfl⟩ := List.mem_map.mp hline
      have known := calls_of_emitInsn _ _ (body_consistent member) ha
      rw [defined]
      exact List.count_eq_one_of_mem nodup ((isFunc_iff img seeds).mp known)
    · intro a ha
      rw [defined]
      exact List.count_eq_one_of_mem nodup ha

/-- A routine at `$0000` that jumps to its own start goes to a label it never declares. -/
theorem jumpToZero_unlabelled :
    ¬ (emitFunctions ⟨0, [0x4C, 0x00, 0x00]⟩
      (analyzeDiscover ⟨0, [0x4C, 0x00, 0x00]⟩ [0])).WellFormed := by
  intro wellFormed
  have emitted : emitFunctions ⟨0, [0x4C, 0x00, 0x00]⟩
      (analyzeDiscover ⟨0, [0x4C, 0x00, 0x00]⟩ [0]) =
      { functions := [{ start := 0, lines := [⟨0, false, .jump (.goto true 0)⟩] }]
        registers := [0] } := by decide +kernel
  rw [emitted] at wellFormed
  have label := wellFormed.gotos _ List.mem_cons_self _ List.mem_cons_self 0 (by decide)
  exact absurd label (by decide)

end LynxRecomp
