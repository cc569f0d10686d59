import LynxRecomp.Recompiler.Coverage

/-!
# Discovery computes the closure of the seeds

Whatever the order in which the worklist hands out the entries: the table has one routine
for each entry that can be reached from the seeds, and none else.
-/

namespace LynxRecomp

variable {img : Image} {seeds : List Addr}

section Termination

/-- The sweep is over before it has turned 0x1000 times. -/
theorem sweepFrom_fuel (fs : Addr) {n : Nat} (more : Nat) {addr : Addr} (maxt end_ : Addr)
    (enough : 0x1000 ≤ n + (addr - fs).toNat) :
    sweepFrom img fs (n + more) addr maxt end_ = sweepFrom img fs n addr maxt end_ := by
  induction n generalizing addr maxt end_ with
  | zero =>
    have beyond : ¬ (inImage img addr = true ∧ (addr - fs).toNat < 0x1000) := by omega
    cases more with
    | zero => rfl
    | succ more => exact if_neg beyond
  | succ n ih =>
    rw [Nat.succ_add, sweepFrom, sweepFrom]
    by_cases inside : inImage img addr = true ∧ (addr - fs).toNat < 0x1000
    · rw [if_pos inside, if_pos inside]
      have len := img.decode_len addr
      have next : (img.decode addr).next = addr + BitVec.ofNat 16 (img.decode addr).len :=
        img.decode_next addr
      have further : ((img.decode addr).next - fs).toNat =
          (addr - fs).toNat + (img.decode addr).len := by
        rw [next]
        have small := inside.2
        generalize (img.decode addr).len = k at len ⊢
        bv_omega
      have rest (maxt end_ : Addr) : sweepFrom img fs (n + more) (img.decode addr).next maxt end_ =
          sweepFrom img fs n (img.decode addr).next maxt end_ := ih maxt end_ (by omega)
      simp only [rest]
    · rw [if_neg inside, if_neg inside]

theorem discoverLoop_fuel (fs : Addr) (more : Nat) (s : DiscState) :
    discoverLoop img fs (0x1000 + more) fs fs fs s = discoverLoop img fs 0x1000 fs fs fs s := by
  rw [discoverLoop_eq, discoverLoop_eq, sweepFrom_fuel fs more fs fs (Nat.le_add_right _ _)]

/-- The main loop of `analyze_discover`, turning until no entry waits. -/
inductive Drains (img : Image) : Disc → FuncTable → FuncTable → Prop where
  | done {d : Disc} {t : FuncTable} : d.work = [] → Drains img d t t
  | turn {d : Disc} {t t' : FuncTable} {fs : Addr} {rest : List Addr} : d.work = fs :: rest →
    Drains img (discoverOne img fs { d with work := rest } t).1
      (discoverOne img fs { d with work := rest } t).2 t' → Drains img d t t'

theorem discoverAll_drains {n : Nat} {d : Disc} {t : FuncTable} {w : Worklist Addr}
    (tracks : Tracks img d t w)
    (empty : (Worklist.run maxFuncs (routineEntries img) n w).work = []) :
    Drains img d t (discoverAll img n d t) := by
  induction n generalizing d t w with
  | zero => exact .done (tracks.work.trans empty)
  | succ n ih =>
    rw [Worklist.run] at empty
    rw [discoverAll, tracks.work]
    cases work : w.work with
    | nil => exact .done (tracks.work.trans work)
    | cons fs rest =>
      rw [work] at empty
      have next : Tracks img { d with work := rest } t { w with work := rest } :=
        ⟨tracks.funcs, tracks.ext, rfl, tracks.seen⟩
      exact .turn (tracks.work.trans work) (ih (discoverOne_tracks fs next) empty)

theorem seeded_drains (img : Image) (seeds : List Addr) :
    Drains img (seeded img seeds).d { funcs := [], ext := [] }
      (discoverAll img (2 * maxFuncs) (seeded img seeds).d { funcs := [], ext := [] }) :=
  discoverAll_drains (seeded_tracks img seeds) (Worklist.run_start_work_nil _ (Nat.le_refl _))

end Termination

/-- What `discover_one` puts on the worklist: the entries of the routine, one by one. -/
theorem discoverOne_pushes {d : Disc} {t : FuncTable} (fs : Addr) (f : Func)
    (room : t.funcs.length < maxFuncs) :
    (discoverOne img fs d t).1 = ((routineEntries img fs).foldl (pushFunc img) ⟨d, t, f⟩).d := by
  rw [discoverOne_eq fs (by omega)]
  have swept := (@recordVisits_eq img (sweep img fs)
    ⟨d, t, { start := fs, end_ := fs, labels := [], reachesRet := false }⟩).2.2
  have pushed := (@pushFuncs_eq img (routineEntries img fs) ⟨d, t, f⟩ ?_).2.2
  · have same := swept.trans pushed.symm
    have work := congrArg Worklist.work same
    have seen := congrArg Worklist.seen same
    simp only [DiscState.worklist] at work seen ⊢
    generalize (sweep img fs).foldl _ _ = r at work seen ⊢
    generalize (routineEntries img fs).foldl _ _ = r' at work seen ⊢
    rcases r with ⟨⟨_, _⟩, _, _⟩
    rcases r' with ⟨⟨_, _⟩, _, _⟩
    simp only at work seen ⊢
    rw [work, seen]
  · intro a member
    rcases List.mem_flatMap.mp member with ⟨v, _, pushed⟩
    exact pushes_inImage pushed

theorem entry_seeds {seeds' : List Addr} (same : ∀ a, a ∈ seeds' ↔ a ∈ seeds) {a : Addr} :
    Entry img seeds' a ↔ Entry img seeds a := by
  have filtered (b : Addr) :
      b ∈ seeds'.filter (inImage img) ↔ b ∈ seeds.filter (inImage img) := by
    rw [List.mem_filter, List.mem_filter, same]
  constructor
  · intro entry
    exact entry.mono fun b hb => (filtered b).mp hb
  · intro entry
    exact entry.mono fun b hb => (filtered b).mpr hb

theorem fits_seeds {seeds' : List Addr} (same : ∀ a, a ∈ seeds' ↔ a ∈ seeds)
    (fits : Worklist.Fits maxFuncs (routineEntries img) (seeds.filter (inImage img))) :
    Worklist.Fits maxFuncs (routineEntries img) (seeds'.filter (inImage img)) := by
  rcases fits with ⟨bound, short, covers⟩
  exact ⟨bound, short, fun a reach => covers a ((entry_seeds same).mp reach)⟩

theorem mem_funcs_iff
    (fits : Worklist.Fits maxFuncs (routineEntries img) (seeds.filter (inImage img))) {f : Func} :
    f ∈ (analyzeDiscover img seeds).funcs ↔ Entry img seeds f.start ∧ f = routine img f.start := by
  rw [analyzeDiscover_funcs]
  simp only [List.mem_map, mem_starts_iff fits]
  constructor
  · rintro ⟨a, entry, rfl⟩
    exact ⟨entry, rfl⟩
  · rintro ⟨entry, same⟩
    exact ⟨f.start, entry, same.symm⟩

/-- Discovery ends, with one routine for each entry that can be reached from the seeds; each
routine depends on its start and the image alone, and the order of the seeds does not matter. -/
theorem analyzeDiscover_closure (img : Image) (seeds : List Addr)
    (fits : Worklist.Fits maxFuncs (routineEntries img) (seeds.filter (inImage img))) :
    (Drains img (seeded img seeds).d ⟨[], []⟩
        (discoverAll img (2 * maxFuncs) (seeded img seeds).d ⟨[], []⟩) ∧
      ∀ fs more s, discoverLoop img fs (0x1000 + more) fs fs fs s =
        discoverLoop img fs 0x1000 fs fs fs s) ∧
    (∀ fs d t f, t.funcs.length < maxFuncs → (discoverOne img fs d t).1 =
      ((routineEntries img fs).foldl (pushFunc img) ⟨d, t, f⟩).d) ∧
    ((analyzeDiscover img seeds).funcs.map Func.start).Nodup ∧
    (∀ f, f ∈ (analyzeDiscover img seeds).funcs ↔
      Entry img seeds f.start ∧ f = routine img f.start) ∧
    ∀ seeds', (∀ a, a ∈ seeds' ↔ a ∈ seeds) →
      ∀ f, f ∈ (analyzeDiscover img seeds').funcs ↔ f ∈ (analyzeDiscover img seeds).funcs := by
  refine ⟨⟨seeded_drains img seeds, discoverLoop_fuel⟩, ?_, ?_, ?_, ?_⟩
  · intro fs d t f room
    exact discoverOne_pushes fs f room
  · rw [analyzeDiscover_starts]
    exact starts_nodup img seeds
  · exact fun f => mem_funcs_iff fits
  · intro seeds' same f
    rw [mem_funcs_iff fits, mem_funcs_iff (fits_seeds same fits), entry_seeds same]

theorem loopImage_closure :
    Worklist.Fits maxFuncs (routineEntries loopImage) ([0x200].filter (inImage loopImage)) ∧
      ((analyzeDiscover loopImage [0x200]).funcs.map Func.start).Nodup :=
  ⟨loopImage_within.funcs, (analyzeDiscover_closure loopImage [0x200] loopImage_within.funcs).2.2.1⟩

end LynxRecomp
