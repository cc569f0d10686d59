import LynxRecomp.Lib.Capped
import LynxRecomp.Lib.Worklist
import LynxRecomp.Recompiler.Analyze

/-!
# What discovery finds

The sweep of a routine depends on the image and its start alone. What discovery
records is read off the sweep: the labels and the extent of the routine, the entries
it leads to and the targets outside the image. The table is therefore the list of
entries that the worklist gets done, each with its own routine.
-/

namespace LynxRecomp

/-- An instruction met by a sweep, and the extent of the routine with it. -/
structure Visit where
  insn : Insn
  extent : Addr

/-- The instructions that the loop of `discover_one` meets. -/
def sweepFrom (img : Image) (fs : Addr) : Nat → Addr → Addr → Addr → List Visit
  | 0, _, _, _ => []
  | n + 1, addr, maxt, end_ =>
    if inImage img addr = true ∧ (addr - fs).toNat < 0x1000 then
      let i := img.decode addr
      if img.avail addr < i.len then []
      else
        let end_ := raiseEnd end_ i.next
        let maxt := raiseMaxt img i end_ maxt
        if i.terminator ∧ maxt < i.next then [⟨i, end_⟩]
        else ⟨i, end_⟩ :: sweepFrom img fs n i.next maxt end_
    else []

def sweep (img : Image) (fs : Addr) : List Visit := sweepFrom img fs 0x1000 fs fs fs

/-- The extent after some visits. -/
def extentOf (vs : List Visit) (end_ : Addr) : Addr := (vs.getLast?.map Visit.extent).getD end_

namespace Visit

/-- The entries an instruction makes known. -/
def pushes (img : Image) (v : Visit) : List Addr :=
  match v.insn.cflow with
  | .call => if inImage img v.insn.target then [v.insn.target] else []
  | .jmp =>
    (if v.insn.target ≠ 0 ∧ inImage img v.insn.target ∧ ¬ v.insn.target ≤ v.extent then
      [v.insn.target] else []) ++
    match v.insn.mode with
    | .ind => if inImage img (imgRd16 img v.insn.operand) then [imgRd16 img v.insn.operand] else []
    | .iax => jumpTable img 64 v.insn.operand
    | _ => []
  | _ => []

/-- The branch and jump targets inside the image. -/
def targets (img : Image) (v : Visit) : List Addr :=
  match v.insn.cflow with
  | .branch => if inImage img v.insn.target then [v.insn.target] else []
  | .jmp => if v.insn.target ≠ 0 ∧ inImage img v.insn.target then [v.insn.target] else []
  | _ => []

/-- The call and jump targets outside the image. -/
def exts (img : Image) (v : Visit) : List Addr :=
  match v.insn.cflow with
  | .call => if inImage img v.insn.target then [] else [v.insn.target]
  | .jmp => if v.insn.target ≠ 0 ∧ inImage img v.insn.target = false then [v.insn.target] else []
  | _ => []

end Visit

/-- The targets recorded for the routine at `fs`, in the order they are met. -/
def recordedTargets (img : Image) (fs : Addr) : List Addr :=
  (sweep img fs).flatMap (Visit.targets img)

def routineEntries (img : Image) (fs : Addr) : List Addr :=
  (sweep img fs).flatMap (Visit.pushes img)

def routineExts (img : Image) (fs : Addr) : List Addr := (sweep img fs).flatMap (Visit.exts img)

/-- The table entry of the routine at `fs`, before its labels are sorted. -/
def sweptRoutine (img : Image) (fs : Addr) : Func where
  start := fs
  end_ := extentOf (sweep img fs) fs
  labels := Capped.keep maxLabels (recordedTargets img fs)
  reachesRet := (sweep img fs).any fun v => decide (v.insn.cflow = .ret)

/-- The table entry of the routine at `fs`. -/
def routine (img : Image) (fs : Addr) : Func := sortLabels (sweptRoutine img fs)

/-- The starts of the routines in the order they are done. -/
def starts (img : Image) (seeds : List Addr) : List Addr :=
  (Worklist.run maxFuncs (routineEntries img) (2 * maxFuncs)
    (Worklist.start maxFuncs (seeds.filter (inImage img)))).done

section Record

variable {img : Image}

theorem discoverLoop_eq (fs : Addr) (n : Nat) (addr maxt end_ : Addr) (s : DiscState) :
    discoverLoop img fs n addr maxt end_ s =
      (extentOf (sweepFrom img fs n addr maxt end_) end_,
        (sweepFrom img fs n addr maxt end_).foldl
          (fun s v => recordInsn img v.insn v.extent s) s) := by
  induction n generalizing addr maxt end_ s with
  | zero => rfl
  | succ n ih =>
    rw [discoverLoop, sweepFrom]
    split
    · simp only
      split
      · rfl
      · split
        · rfl
        · rw [ih]
          simp only [List.foldl_cons, Prod.mk.injEq, and_true]
          unfold extentOf
          rw [List.getLast?_cons]
          cases (sweepFrom img fs n _ _ _).getLast? <;> rfl
    · rfl

/-- The worklist that discovery keeps. -/
def DiscState.worklist (s : DiscState) : Worklist Addr where
  done := s.t.funcs.map Func.start
  work := s.d.work
  seen := s.d.seen

@[simp] theorem pushFunc_t (s : DiscState) (a : Addr) : (pushFunc img s a).t = s.t := by
  unfold pushFunc
  split
  · rfl
  · split <;> rfl

@[simp] theorem pushFunc_f (s : DiscState) (a : Addr) : (pushFunc img s a).f = s.f := by
  unfold pushFunc
  split
  · rfl
  · split <;> rfl

theorem pushFunc_worklist (s : DiscState) {a : Addr} (inside : inImage img a = true) :
    (pushFunc img s a).worklist = Worklist.push maxFuncs s.worklist a := by
  unfold pushFunc Worklist.push DiscState.worklist
  simp only [inside, Bool.not_true, Bool.false_or, List.length_map]
  split
  · rfl
  · split <;> rfl

/-- A state changed in the labels of its routine and the outside targets only. -/
def DiscState.noted (s : DiscState) (labels ext : List Addr) (ret : Bool) : DiscState where
  d := s.d
  t := { s.t with ext := ext }
  f := { s.f with labels := labels, reachesRet := s.f.reachesRet || ret }

theorem addLabel_noted (s : DiscState) (a : Addr) :
    addLabel s a = s.noted (Capped.add maxLabels s.f.labels a) s.t.ext false := by
  unfold addLabel Capped.add DiscState.noted
  split
  · simp
  · split <;> simp

theorem addExt_noted (s : DiscState) (a : Addr) :
    addExt s a = s.noted s.f.labels (Capped.add maxFuncs s.t.ext a) false := by
  unfold addExt Capped.add DiscState.noted
  split
  · simp
  · split <;> simp

theorem jumpTable_inImage {n : Nat} {a b : Addr} (h : b ∈ jumpTable img n a) :
    inImage img b = true := by
  induction n generalizing a with
  | zero => exact absurd h List.not_mem_nil
  | succ n ih =>
    rw [jumpTable] at h
    split at h
    · exact absurd h List.not_mem_nil
    · rename_i valid
      obtain rfl | rest := List.mem_cons.mp h
      · simp only [not_or, Bool.not_eq_false] at valid
        exact valid.2
      · exact ih rest

theorem pushes_inImage {v : Visit} {a : Addr} (h : a ∈ v.pushes img) : inImage img a = true := by
  unfold Visit.pushes at h
  split at h
  · split at h
    · rename_i inside
      rwa [List.mem_singleton.mp h]
    · exact absurd h List.not_mem_nil
  · obtain forward | computed := List.mem_append.mp h
    · split at forward
      · rename_i inside
        rw [List.mem_singleton.mp forward]
        exact inside.2.1
      · exact absurd forward List.not_mem_nil
    · split at computed
      · split at computed
        · rename_i inside
          rwa [List.mem_singleton.mp computed]
        · exact absurd computed List.not_mem_nil
      · exact jumpTable_inImage computed
      · exact absurd computed List.not_mem_nil
  · exact absurd h List.not_mem_nil

/-- The direct target of a jump -/
theorem directJump_noted (v : Visit) (s : DiscState) :
    (if v.insn.target ≠ 0 ∧ inImage img v.insn.target then
        if v.insn.target ≤ v.extent then addLabel s v.insn.target
        else pushFunc img (addLabel s v.insn.target) v.insn.target
      else if v.insn.target ≠ 0 then addExt s v.insn.target else s) =
      (if v.insn.target ≠ 0 ∧ inImage img v.insn.target ∧ ¬ v.insn.target ≤ v.extent then
        [v.insn.target] else []).foldl (pushFunc img)
        (s.noted ((if v.insn.target ≠ 0 ∧ inImage img v.insn.target then [v.insn.target] else
            []).foldl (Capped.add maxLabels) s.f.labels)
          ((if v.insn.target ≠ 0 ∧ inImage img v.insn.target = false then [v.insn.target] else
            []).foldl (Capped.add maxFuncs) s.t.ext) false) := by
  by_cases zero : v.insn.target = 0#16
  · simp [zero, DiscState.noted]
  by_cases inside : inImage img v.insn.target = true
  · by_cases local_ : v.insn.target ≤ v.extent
    · simp [zero, inside, local_, addLabel_noted]
    · simp [zero, inside, local_, addLabel_noted]
  · simp [zero, inside, addExt_noted]

/-- Recording an instruction notes its targets and pushes its entries. -/
theorem recordInsn_eq (v : Visit) (s : DiscState) :
    recordInsn img v.insn v.extent s =
      (v.pushes img).foldl (pushFunc img)
        (s.noted ((v.targets img).foldl (Capped.add maxLabels) s.f.labels)
          ((v.exts img).foldl (Capped.add maxFuncs) s.t.ext) (decide (v.insn.cflow = .ret))) := by
  unfold recordInsn Visit.pushes Visit.targets Visit.exts
  cases v.insn.cflow with
  | normal => simp [DiscState.noted]
  | call =>
    by_cases inside : inImage img v.insn.target = true
    · simp [inside, DiscState.noted]
    · simp [inside, addExt_noted]
  | branch =>
    by_cases inside : inImage img v.insn.target = true
    · simp [inside, addLabel_noted]
    · simp [inside, DiscState.noted]
  | jmp =>
    simp only [List.foldl_append]
    -- first the direct target, then the pointers of a computed jump
    simp only [directJump_noted, reduceCtorEq, decide_false]
    cases v.insn.mode with
    | ind =>
      by_cases inside : inImage img (imgRd16 img v.insn.operand) = true
      · simp only [if_pos inside, List.foldl_cons, List.foldl_nil]
      · simp only [if_neg inside, List.foldl_nil]
    | _ => rfl
  | ret => simp [DiscState.noted]
  | brk => simp [DiscState.noted]
  | stop => simp [DiscState.noted]

theorem pushFuncs_eq (as : List Addr) (s : DiscState) (inside : ∀ a ∈ as, inImage img a = true) :
    (as.foldl (pushFunc img) s).t = s.t ∧ (as.foldl (pushFunc img) s).f = s.f ∧
      (as.foldl (pushFunc img) s).worklist = as.foldl (Worklist.push maxFuncs) s.worklist := by
  induction as generalizing s with
  | nil => exact ⟨rfl, rfl, rfl⟩
  | cons a as ih =>
    obtain ⟨t, f, w⟩ := ih (pushFunc img s a) fun b hb => inside b (List.mem_cons_of_mem a hb)
    refine ⟨t.trans (pushFunc_t s a), f.trans (pushFunc_f s a), ?_⟩
    rw [List.foldl_cons, w, pushFunc_worklist s (inside a List.mem_cons_self), List.foldl_cons]

/-- What the visits of a sweep add up to. -/
theorem recordVisits_eq (vs : List Visit) (s : DiscState) :
    let r := vs.foldl (fun s v => recordInsn img v.insn v.extent s) s
    r.t = { s.t with ext := (vs.flatMap (Visit.exts img)).foldl (Capped.add maxFuncs) s.t.ext } ∧
      r.f = { s.f with
        labels := (vs.flatMap (Visit.targets img)).foldl (Capped.add maxLabels) s.f.labels
        reachesRet := s.f.reachesRet || vs.any fun v => decide (v.insn.cflow = .ret) } ∧
      r.worklist = (vs.flatMap (Visit.pushes img)).foldl (Worklist.push maxFuncs) s.worklist := by
  induction vs generalizing s with
  | nil => simp
  | cons v vs ih =>
    obtain ⟨t, f, w⟩ := pushFuncs_eq (v.pushes img)
      (s.noted ((v.targets img).foldl (Capped.add maxLabels) s.f.labels)
        ((v.exts img).foldl (Capped.add maxFuncs) s.t.ext) (decide (v.insn.cflow = .ret)))
      fun a ha => pushes_inImage ha
    obtain ⟨ts, fs, ws⟩ := ih (recordInsn img v.insn v.extent s)
    rw [recordInsn_eq] at ts fs ws
    simp only [List.foldl_cons, List.flatMap_cons, List.foldl_append, List.any_cons,
      recordInsn_eq v s, ts, fs, ws, t, f, w]
    exact ⟨rfl, by simp [DiscState.noted, Bool.or_assoc], rfl⟩

/-- The table and the worklist of discovery, as the nodes done and waiting determine them. -/
structure Tracks (img : Image) (d : Disc) (t : FuncTable) (w : Worklist Addr) : Prop where
  funcs : t.funcs = w.done.map (sweptRoutine img)
  ext : t.ext = (w.done.flatMap (routineExts img)).foldl (Capped.add maxFuncs) []
  work : d.work = w.work
  seen : d.seen = w.seen

theorem discoverOne_eq {d : Disc} {t : FuncTable} (fs : Addr)
    (room : ¬ maxFuncs ≤ t.funcs.length) :
    discoverOne img fs d t =
      let r := (sweep img fs).foldl (fun s v => recordInsn img v.insn v.extent s)
        ⟨d, t, { start := fs, end_ := fs, labels := [], reachesRet := false }⟩
      (r.d, { r.t with
        funcs := r.t.funcs ++ [{ r.f with end_ := extentOf (sweep img fs) fs }] }) := by
  rw [discoverOne, if_neg room]
  simp only [discoverLoop_eq]
  rfl

theorem discoverOne_tracks {d : Disc} {t : FuncTable} {w : Worklist Addr} (fs : Addr)
    (tracks : Tracks img d t w) :
    Tracks img (discoverOne img fs d t).1 (discoverOne img fs d t).2
      (Worklist.visit maxFuncs (routineEntries img) w fs) := by
  obtain ⟨funcs, ext, work, seen⟩ := tracks
  have done : t.funcs.map Func.start = w.done := by
    rw [funcs, List.map_map]
    exact List.map_id _
  have count : t.funcs.length = w.done.length := by rw [funcs, List.length_map]
  by_cases full : maxFuncs ≤ t.funcs.length
  · rw [discoverOne, if_pos full, Worklist.visit, if_pos (count ▸ full)]
    exact ⟨funcs, ext, work, seen⟩
  · rw [discoverOne_eq fs full, Worklist.visit, if_neg (count ▸ full)]
    obtain ⟨table, func, list⟩ := recordVisits_eq (sweep img fs)
      ⟨d, t, { start := fs, end_ := fs, labels := [], reachesRet := false }⟩
    have same : DiscState.worklist
        ⟨d, t, { start := fs, end_ := fs, labels := [], reachesRet := false }⟩ = w := by
      simp only [DiscState.worklist, done, work, seen]
    rw [same] at list
    generalize (sweep img fs).foldl (fun s v => recordInsn img v.insn v.extent s) _ = r at *
    refine ⟨?_, ?_, congrArg Worklist.work list, congrArg Worklist.seen list⟩
    · simp only [table, func, Capped.foldl_add_nil, Bool.false_or, Worklist.pushes_done,
        List.map_append, ← funcs]
      rfl
    · simp only [table, Worklist.pushes_done, List.flatMap_append, List.foldl_append, ← ext,
        List.flatMap_cons, List.flatMap_nil, List.append_nil]
      rfl

theorem discoverAll_tracks {n : Nat} {d : Disc} {t : FuncTable} {w : Worklist Addr}
    (tracks : Tracks img d t w) :
    let done := (Worklist.run maxFuncs (routineEntries img) n w).done
    (discoverAll img n d t).funcs = done.map (sweptRoutine img) ∧
      (discoverAll img n d t).ext =
        (done.flatMap (routineExts img)).foldl (Capped.add maxFuncs) [] := by
  induction n generalizing d t w with
  | zero => exact ⟨tracks.funcs, tracks.ext⟩
  | succ n ih =>
    rw [discoverAll, Worklist.run, tracks.work]
    cases w.work with
    | nil => exact ⟨tracks.funcs, tracks.ext⟩
    | cons fs rest => exact ih (discoverOne_tracks fs ⟨tracks.funcs, tracks.ext, rfl, tracks.seen⟩)

theorem seeds_worklist (seeds : List Addr) (s : DiscState) :
    (seeds.foldl (pushFunc img) s).worklist =
      (seeds.filter (inImage img)).foldl (Worklist.push maxFuncs) s.worklist := by
  induction seeds generalizing s with
  | nil => rfl
  | cons a seeds ih =>
    rw [List.foldl_cons, ih]
    by_cases inside : inImage img a = true
    · rw [pushFunc_worklist s inside, List.filter_cons_of_pos inside, List.foldl_cons]
    · rw [List.filter_cons_of_neg inside, pushFunc, if_pos (by simp [inside])]

/-- The state before the main loop of `analyze_discover`. -/
def seeded (img : Image) (seeds : List Addr) : DiscState :=
  seeds.foldl (pushFunc img)
    { d := { work := [], seen := fun _ => false }, t := { funcs := [], ext := [] },
      f := { start := 0, end_ := 0, labels := [], reachesRet := false } }

theorem seeded_tracks (img : Image) (seeds : List Addr) :
    Tracks img (seeded img seeds).d { funcs := [], ext := [] }
      (Worklist.start maxFuncs (seeds.filter (inImage img))) := by
  have list : (seeded img seeds).worklist =
      Worklist.start maxFuncs (seeds.filter (inImage img)) := seeds_worklist seeds _
  have none : (Worklist.start maxFuncs (seeds.filter (inImage img))).done = [] :=
    Worklist.pushes_done _ _
  exact ⟨by rw [none]; rfl, by rw [none]; rfl, congrArg Worklist.work list,
    congrArg Worklist.seen list⟩

/-- The routines that the main loop of `analyze_discover` does. -/
theorem discoverAll_funcs (img : Image) (seeds : List Addr) :
    (discoverAll img (2 * maxFuncs) (seeded img seeds).d { funcs := [], ext := [] }).funcs =
      (starts img seeds).map (sweptRoutine img) :=
  (discoverAll_tracks (seeded_tracks img seeds)).1

/-- The table that discovery returns. -/
theorem analyzeDiscover_eq (img : Image) (seeds : List Addr) :
    analyzeDiscover img seeds =
      { funcs := (starts img seeds).map (routine img)
        ext := Capped.keep maxFuncs ((starts img seeds).flatMap (routineExts img)) } := by
  have funcs := discoverAll_funcs img seeds
  have ext := (discoverAll_tracks (n := 2 * maxFuncs) (seeded_tracks img seeds)).2
  rw [Capped.foldl_add_nil] at ext
  have table : analyzeDiscover img seeds =
      { funcs := (discoverAll img (2 * maxFuncs) (seeded img seeds).d
          { funcs := [], ext := [] }).funcs.map sortLabels
        ext := (discoverAll img (2 * maxFuncs) (seeded img seeds).d
          { funcs := [], ext := [] }).ext } := rfl
  rw [table, funcs, ext, List.map_map]
  rfl

theorem analyzeDiscover_funcs (img : Image) (seeds : List Addr) :
    (analyzeDiscover img seeds).funcs = (starts img seeds).map (routine img) := by
  rw [analyzeDiscover_eq]

theorem analyzeDiscover_starts (img : Image) (seeds : List Addr) :
    (analyzeDiscover img seeds).funcs.map Func.start = starts img seeds := by
  rw [analyzeDiscover_funcs, List.map_map]
  exact List.map_id _

end Record

end LynxRecomp
