import LynxRecomp.Recompiler.Threading

/-!
# The two stacks

On the interpreter's stack a return address lies under the bytes of every routine that is
executing; on the stack of the emitted code these bytes follow one another.
-/

namespace LynxRecomp

/-- The stack above `s` holds the bytes, the top of the stack first. -/
def Held (ram : Addr → Byte) : Byte → List Byte → Prop
  | _, [] => True
  | s, b :: bs => ram (stackAddr (s + 1)) = b ∧ Held ram (s + 1) bs

def returnBytes (ret : Addr) : List Byte := [ret.setWidth 8, (ret >>> 8).setWidth 8]

/-- What lies under the bytes of the innermost routine; the outermost returns to `ret`. -/
def returns (ret : Addr) : List Activation → List Byte
  | [] => returnBytes ret
  | act :: acts => returnBytes (act.pc - 1) ++ (act.own ++ returns ret acts)

def ownBytes (acts : List Activation) : List Byte := acts.flatMap Activation.own

/-- S at the entry of the routines under the one entered at `e`. -/
def entriesUnder (e : Byte) : List Activation → List Byte
  | [] => []
  | act :: acts =>
    (e + 2 + BitVec.ofNat 8 act.own.length) ::
      entriesUnder (e + 2 + BitVec.ofNat 8 act.own.length) acts

/-- S at the entry of every routine, from S now. -/
def entriesFrom (s : Byte) (own : List Byte) (acts : List Activation) : List Byte :=
  (s + BitVec.ofNat 8 own.length) :: entriesUnder (s + BitVec.ofNat 8 own.length) acts

/-- The stacks of the interpreter (`ri`, `si`) and of the emitted code (`rc`, `sc`) for a
routine that has pushed `own` and the routines under it. Before, S was `top` on both sides. -/
structure Stacked (top : Byte) (ret : Addr) (own : List Byte) (acts : List Activation)
    (ri rc : Addr → Byte) (si sc : Byte) : Prop where
  depth : si.toNat + (own ++ returns ret acts).length = top.toNat
  flat : sc.toNat + (own ++ ownBytes acts).length = top.toNat
  held : Held ri si (own ++ returns ret acts)
  kept : Held rc sc (own ++ ownBytes acts)
  above : ∀ p, top < p → rc (stackAddr p) = ri (stackAddr p)

section Held

variable {ram ram' : Addr → Byte} {s : Byte} {bs : List Byte}

theorem stackAddr_stackPage (s : Byte) : stackPage (stackAddr s) := by
  unfold stackPage stackAddr
  constructor <;> bv_omega

theorem eq_stackAddr {a : Addr} (page : stackPage a) : ∃ p, a = stackAddr p := by
  obtain ⟨low, high⟩ := page
  refine ⟨(a - 0x0100).setWidth 8, ?_⟩
  unfold stackAddr
  bv_omega

theorem Held.congr (held : Held ram s bs) (fits : s.toNat + bs.length ≤ 255)
    (same : ∀ p, s < p → ram' (stackAddr p) = ram (stackAddr p)) : Held ram' s bs := by
  induction bs generalizing s with
  | nil => trivial
  | cons b bs ih =>
    rw [List.length_cons] at fits
    have step : (s + 1).toNat = s.toNat + 1 := by bv_omega
    refine ⟨(same _ (by bv_omega)).trans held.1, ih held.2 (by omega) fun p beyond => same p ?_⟩
    bv_omega

theorem Held.push (held : Held ram s bs) (fits : s.toNat + bs.length ≤ 255) (room : 0 < s)
    (v : Byte) : Held (Function.update ram (stackAddr s) v) (s - 1) (v :: bs) := by
  have back : s - 1 + 1 = s := by bv_omega
  refine ⟨?_, ?_⟩
  · rw [back, Function.update_self]
  · rw [back]
    refine held.congr fits fun p beyond => Function.update_of_ne (fun same => ?_) _ _
    rw [stackAddr_inj.mp same] at beyond
    exact BitVec.lt_irrefl _ beyond

theorem Held.pushedReturn (held : Held ram s bs) (fits : s.toNat + bs.length ≤ 255) (room : 1 < s)
    (ret : Addr) : Held (pushedReturn ret s ram) (s - 1 - 1) (returnBytes ret ++ bs) := by
  have step : (s - 1).toNat = s.toNat - 1 := by bv_omega
  have first := held.push fits (by bv_omega) ((ret >>> 8).setWidth 8)
  refine first.push ?_ (by bv_omega) _
  rw [List.length_cons]
  bv_omega

end Held

section Stacked

variable {top : Byte} {ret : Addr} {own : List Byte} {acts : List Activation}
  {ri rc : Addr → Byte} {si sc : Byte}

theorem returns_length (ret : Addr) (acts : List Activation) :
    (ownBytes acts).length + 2 ≤ (returns ret acts).length := by
  induction acts with
  | nil => simp [ownBytes, returns, returnBytes]
  | cons act acts ih =>
    simp only [ownBytes, returns, returnBytes, List.flatMap_cons, List.length_append,
      List.length_cons, List.length_nil] at ih ⊢
    omega

/-- A run that leaves the stack page alone leaves the stacks alone. -/
theorem Stacked.congr (stacked : Stacked top ret own acts ri rc si sc) {ri' rc' : Addr → Byte}
    (same : ∀ a, stackPage a → ri' a = ri a) (same' : ∀ a, stackPage a → rc' a = rc a) :
    Stacked top ret own acts ri' rc' si sc where
  depth := stacked.depth
  flat := stacked.flat
  held := stacked.held.congr (by have := stacked.depth; have := top.isLt; omega)
    fun p _ => same _ (stackAddr_stackPage p)
  kept := stacked.kept.congr (by have := stacked.flat; have := top.isLt; omega)
    fun p _ => same' _ (stackAddr_stackPage p)
  above p beyond := by
    rw [same _ (stackAddr_stackPage p), same' _ (stackAddr_stackPage p)]
    exact stacked.above p beyond

/-- The emitted code has the more room on its stack. -/
theorem Stacked.room (stacked : Stacked top ret own acts ri rc si sc) :
    si.toNat + 2 ≤ sc.toNat ∧ si.toNat + own.length + 2 ≤ top.toNat := by
  have depth := stacked.depth
  have flat := stacked.flat
  have shorter := returns_length ret acts
  rw [List.length_append] at depth flat
  omega

theorem above_update {q : Addr → Byte} (above : ∀ p, top < p → rc (stackAddr p) = q (stackAddr p))
    {s : Byte} (below : s ≤ top) (v : Byte) : ∀ p, top < p →
      rc (stackAddr p) = Function.update q (stackAddr s) v (stackAddr p) := by
  intro p beyond
  have ne : stackAddr p ≠ stackAddr s := by
    rw [Ne, stackAddr_inj]
    rintro rfl
    bv_omega
  rw [Function.update_of_ne ne]
  exact above p beyond

theorem Stacked.push (stacked : Stacked top ret own acts ri rc si sc) (room : 0 < si) (v : Byte) :
    Stacked top ret (v :: own) acts (Function.update ri (stackAddr si) v)
      (Function.update rc (stackAddr sc) v) (si - 1) (sc - 1) := by
  obtain ⟨more, under⟩ := stacked.room
  obtain ⟨depth, flat, held, kept, above⟩ := stacked
  have small := top.isLt
  have step : (si - 1).toNat = si.toNat - 1 := by bv_omega
  have step' : (sc - 1).toNat = sc.toNat - 1 := by bv_omega
  have some_ : 0 < si.toNat := by bv_omega
  refine ⟨?_, ?_, held.push (by omega) room v, kept.push (by omega) (by bv_omega) v, ?_⟩
  · rw [List.cons_append, List.length_cons]
    omega
  · rw [List.cons_append, List.length_cons]
    omega
  · have moved : ∀ p, top < p →
        ri (stackAddr p) = Function.update rc (stackAddr sc) v (stackAddr p) :=
      above_update (fun p beyond => (above p beyond).symm) (by bv_omega) v
    exact above_update (fun p beyond => (moved p beyond).symm) (by bv_omega) v

theorem Stacked.pull {v : Byte} (stacked : Stacked top ret (v :: own) acts ri rc si sc) :
    ri (stackAddr (si + 1)) = v ∧ rc (stackAddr (sc + 1)) = v ∧
      Stacked top ret own acts ri rc (si + 1) (sc + 1) := by
  obtain ⟨depth, flat, held, kept, above⟩ := stacked
  have small := top.isLt
  rw [List.cons_append, List.length_cons] at depth flat
  have step : (si + 1).toNat = si.toNat + 1 := by bv_omega
  have step' : (sc + 1).toNat = sc.toNat + 1 := by bv_omega
  exact ⟨held.1, kept.1, by omega, by omega, held.2, kept.2, above⟩

theorem above_pushedReturn (above : ∀ p, top < p → rc (stackAddr p) = ri (stackAddr p)) {s : Byte}
    (room : 1 < s) (below : s ≤ top) (ret : Addr) :
    ∀ p, top < p → rc (stackAddr p) = pushedReturn ret s ri (stackAddr p) :=
  above_update (above_update above below _) (by bv_omega) _

theorem Stacked.call (stacked : Stacked top ret own acts ri rc si sc) (room : 1 < si)
    (act : Activation) (pushed : act.own = own) :
    Stacked top ret [] (act :: acts) (pushedReturn (act.pc - 1) si ri) rc (si - 1 - 1) sc := by
  obtain ⟨more, under⟩ := stacked.room
  obtain ⟨depth, flat, held, kept, above⟩ := stacked
  have small := top.isLt
  have step : (si - 1 - 1).toNat = si.toNat - 2 := by bv_omega
  have some_ : 1 < si.toNat := by bv_omega
  subst pushed
  refine ⟨?_, flat, held.pushedReturn (by omega) room _, kept,
    above_pushedReturn above room (by bv_omega) _⟩
  simp only [returns, returnBytes, List.nil_append, List.cons_append, List.length_cons]
  omega

theorem Stacked.return {act : Activation}
    (stacked : Stacked top ret [] (act :: acts) ri rc si sc) :
    word16 (ri (stackAddr (si + 1))) (ri (stackAddr (si + 1 + 1))) + 1 = act.pc ∧
      Stacked top ret act.own acts ri rc (si + 1 + 1) sc := by
  obtain ⟨depth, flat, held, kept, above⟩ := stacked
  have small := top.isLt
  have length : ([] ++ returns ret (act :: acts)).length =
      (act.own ++ returns ret acts).length + 2 := rfl
  have step : (si + 1 + 1).toNat = si.toNat + 2 := by bv_omega
  obtain ⟨lo, hi, rest⟩ := held
  refine ⟨?_, by omega, flat, rest, kept, above⟩
  rw [lo, hi, word16_split]
  bv_omega

theorem Stacked.done (stacked : Stacked top ret [] [] ri rc si sc) :
    word16 (ri (stackAddr (si + 1))) (ri (stackAddr (si + 1 + 1))) = ret ∧
      si + 1 + 1 = top ∧ sc = top := by
  obtain ⟨depth, flat, held, kept, above⟩ := stacked
  have length : ([] ++ returns ret []).length = 2 := rfl
  have length' : ([] ++ ownBytes []).length = 0 := rfl
  obtain ⟨lo, hi, _⟩ := held
  refine ⟨?_, by bv_omega, by bv_omega⟩
  rw [lo, hi, word16_split]

/-- The start: the interpreter's return address is on the stack. -/
theorem stacked_start (ram : Addr → Byte) (ret : Addr) (room : 2 ≤ top) :
    Stacked top ret [] [] (pushedReturn ret top ram) ram (top - 2) top := by
  have two : top - 2 = top - 1 - 1 := by bv_omega
  have held : Held ram top [] := trivial
  have fits : top.toNat + 0 ≤ 255 := by bv_omega
  rw [two]
  refine ⟨?_, Nat.add_zero _, held.pushedReturn fits (by bv_omega) ret, trivial,
    above_pushedReturn (fun _ _ => rfl) (by bv_omega) (BitVec.le_refl top) ret⟩
  simp only [returns, returnBytes, List.nil_append, List.length_cons, List.length_nil]
  bv_omega

end Stacked

section Entries

variable (s : Byte) (own : List Byte) (act : Activation) (acts : List Activation)

theorem entriesFrom_push (v : Byte) :
    entriesFrom (s - 1) (v :: own) acts = entriesFrom s own acts := by
  have same : s - 1 + BitVec.ofNat 8 (v :: own).length = s + BitVec.ofNat 8 own.length := by
    rw [List.length_cons]
    bv_omega
  rw [entriesFrom, same]
  rfl

theorem entriesFrom_pull (v : Byte) :
    entriesFrom (s + 1) own acts = entriesFrom s (v :: own) acts := by
  rw [← entriesFrom_push (s + 1) own acts v, BitVec.add_sub_cancel]

theorem entriesFrom_call :
    entriesFrom (s - 1 - 1) [] (act :: acts) = (s - 1 - 1) :: entriesFrom s act.own acts := by
  have empty : s - 1 - 1 + BitVec.ofNat 8 ([] : List Byte).length = s - 1 - 1 := by
    simp
  have under : s - 1 - 1 + 2 = s := by bv_omega
  rw [entriesFrom, empty, entriesUnder, under]
  rfl

theorem entriesFrom_return :
    entriesFrom s [] (act :: acts) = s :: entriesFrom (s + 1 + 1) act.own acts := by
  have back := entriesFrom_call (s + 1 + 1) act acts
  rwa [BitVec.add_sub_cancel, BitVec.add_sub_cancel] at back

theorem entriesFrom_head : (entriesFrom s own acts).head? = some (s + BitVec.ofNat 8 own.length) :=
  rfl

end Entries

end LynxRecomp
