import Mathlib.Data.Finset.Card
import Mathlib.Data.Finset.Dedup

/-!
# Lists of distinct elements with a bounded length

Elements come in one after the other; one that is known already is skipped, and one
that finds the list full is lost. What is kept is a prefix of the distinct elements.
-/

universe u

namespace Capped

variable {α : Type u} [DecidableEq α]

/-- Add an element to a list of distinct ones, unless the list is full. -/
def add (cap : Nat) (l : List α) (a : α) : List α :=
  if a ∈ l then l else if l.length < cap then l ++ [a] else l

/-- The elements kept of `as`. -/
def keep (cap : Nat) (as : List α) : List α := as.eraseDups.take cap

theorem foldl_add {cap : Nat} (as l : List α) (fits : l.length ≤ cap) :
    as.foldl (add cap) l = l ++ keep (cap - l.length) (as.filter (· ∉ l)) := by
  unfold keep
  induction as generalizing l with
  | nil => simp
  | cons a as ih =>
    rw [List.foldl_cons, add]
    by_cases known : a ∈ l
    · rw [if_pos known, ih l fits, List.filter_cons_of_neg (by simpa using known)]
    · rw [if_neg known, List.filter_cons_of_pos (by simpa using known), List.eraseDups_cons]
      by_cases room : l.length < cap
      · have others : as.filter (· ∉ l ++ [a]) = (as.filter (· ∉ l)).filter fun b => !b == a := by
          rw [List.filter_filter]
          refine List.filter_congr fun b _ => ?_
          by_cases same : b = a <;> simp [same]
        have left : cap - l.length = (cap - (l ++ [a]).length) + 1 := by
          simp only [List.length_append, List.length_singleton]
          omega
        rw [if_pos room, ih _ (by simp only [List.length_append, List.length_singleton]; omega),
          others, left, List.take_succ_cons]
        simp
      · rw [if_neg room, ih l fits, Nat.sub_eq_zero_of_le (by omega)]
        simp

theorem foldl_add_nil (cap : Nat) (as : List α) : as.foldl (add cap) [] = keep cap as := by
  rw [foldl_add as [] (Nat.zero_le _)]
  simp

theorem eraseDups_nodup (as : List α) : as.eraseDups.Nodup := by
  induction h : as.length using Nat.strong_induction_on generalizing as with
  | _ n ih =>
    cases as with
    | nil => simp
    | cons a as =>
      rw [List.eraseDups_cons, List.nodup_cons]
      refine ⟨fun member => ?_, ih _ ?_ _ rfl⟩
      · simpa using List.mem_eraseDups.mp member
      · subst h
        exact Nat.lt_succ_of_le (List.length_filter_le _ as)

theorem eraseDups_length (as : List α) : as.eraseDups.length = as.toFinset.card := by
  have same : as.toFinset = as.eraseDups.toFinset := by
    ext a
    simp
  rw [same, List.toFinset_card_of_nodup (eraseDups_nodup as)]

/-- If there are no more distinct elements than fit, all are kept. -/
theorem keep_of_fits {cap : Nat} {as : List α} (fits : as.toFinset.card ≤ cap) :
    keep cap as = as.eraseDups :=
  List.take_of_length_le (eraseDups_length as ▸ fits)

theorem mem_keep_of_fits {cap : Nat} {as : List α} (fits : as.toFinset.card ≤ cap) {a : α} :
    a ∈ keep cap as ↔ a ∈ as := by
  rw [keep_of_fits fits, List.mem_eraseDups]

theorem keep_append_singleton (cap : Nat) (as : List α) (a : α) :
    keep cap (as ++ [a]) = add cap (keep cap as) a := by
  rw [← foldl_add_nil, List.foldl_append, foldl_add_nil]
  rfl

theorem keep_append_mono {cap : Nat} {as : List α} {a : α} (kept : a ∈ keep cap as)
    (bs : List α) : a ∈ keep cap (as ++ bs) := by
  induction bs using List.reverseRecOn with
  | nil => simpa using kept
  | append_singleton bs b ih =>
    rw [← List.append_assoc, keep_append_singleton, add]
    split
    · exact ih
    · split
      · exact List.mem_append_left _ ih
      · exact ih

/-- An element is kept if it comes in before the list is full. -/
theorem mem_keep_iff {cap : Nat} {as : List α} {a : α} :
    a ∈ keep cap as ↔
      ∃ before after, as = before ++ a :: after ∧ before.toFinset.card < cap := by
  constructor
  · intro kept
    induction as using List.reverseRecOn with
    | nil => exact absurd kept (by simp [keep])
    | append_singleton as b ih =>
      by_cases earlier : a ∈ keep cap as
      · obtain ⟨before, after, split, room⟩ := ih earlier
        exact ⟨before, after ++ [b], by simp [split], room⟩
      · rw [keep_append_singleton, add] at kept
        split at kept
        · exact absurd kept earlier
        · split at kept
          · rename_i room
            obtain old | new := List.mem_append.mp kept
            · exact absurd old earlier
            · refine ⟨as, [], by rw [List.mem_singleton.mp new], ?_⟩
              rw [keep, List.length_take, eraseDups_length] at room
              omega
          · exact absurd kept earlier
  · rintro ⟨before, after, rfl, room⟩
    rw [List.append_cons]
    refine keep_append_mono ?_ after
    rw [keep_append_singleton, add]
    have short : (keep cap before).length < cap := by
      rw [keep, List.length_take, eraseDups_length]
      omega
    by_cases known : a ∈ keep cap before
    · rwa [if_pos known]
    · rw [if_neg known, if_pos short]
      exact List.mem_append_right _ (List.mem_singleton.mpr rfl)

end Capped
