import Mathlib.Data.List.Basic
import Mathlib.Logic.Function.Basic
import Mathlib.Tactic.SplitIfs

/-!
# Circular buffers as bounded queues

A buffer of `n` slots with a read index and a write index below `n`; equal indices
mean an empty buffer, so one slot always stays unused. The queue it stores is read
off the slots from the read index on, around the end of the array.
-/

universe u

namespace Ring

/-- The slot after `i`. -/
def next (n i : Nat) : Nat := if i + 1 = n then 0 else i + 1

/-- The slot `k` places after `i`, for `k ≤ n`. -/
def place (n i k : Nat) : Nat := if i + k < n then i + k else i + k - n

def count (n head tail : Nat) : Nat := if head ≤ tail then tail - head else tail + n - head

variable {β : Type u} {n head tail : Nat}

theorem place_lt (h : head < n) {k : Nat} (hk : k ≤ n) : place n head k < n := by
  unfold place; split <;> omega

theorem place_zero (h : head < n) : place n head 0 = head := by simp [place, h]

theorem place_next {k : Nat} (hk : k < n) :
    place n (next n head) k = place n head (k + 1) := by
  unfold place next; split_ifs <;> omega

theorem place_injective {j k : Nat} (hj : j < n) (hk : k < n)
    (same : place n head j = place n head k) : j = k := by
  unfold place at same; split_ifs at same <;> omega

theorem place_count (hh : head < n) (ht : tail < n) : place n head (count n head tail) = tail := by
  unfold place count; split_ifs <;> omega

theorem count_lt (hh : head < n) (ht : tail < n) : count n head tail < n := by
  unfold count; split <;> omega

theorem count_eq_zero (hh : head < n) : count n head tail = 0 ↔ head = tail := by
  unfold count; split <;> omega

theorem count_push (hh : head < n) (room : next n tail ≠ head) :
    count n head (next n tail) = count n head tail + 1 := by
  unfold count next at *; split_ifs at * <;> omega

theorem count_full (hh : head < n) (ht : tail < n) :
    next n tail = head ↔ count n head tail + 1 = n := by
  unfold count next; split_ifs <;> omega

theorem count_pop (hh : head < n) (ht : tail < n) (nonempty : head ≠ tail) :
    count n head tail = count n (next n head) tail + 1 := by
  unfold count next; split_ifs <;> omega

/-- The queue stored in the slots from `head` up to `tail`. -/
def queue (n : Nat) (slot : Nat → β) (head tail : Nat) : List β :=
  (List.range (count n head tail)).map fun k => slot (place n head k)

@[simp] theorem length_queue (slot : Nat → β) :
    (queue n slot head tail).length = count n head tail := by simp [queue]

theorem queue_eq_nil (slot : Nat → β) (hh : head < n) :
    queue n slot head tail = [] ↔ head = tail := by
  rw [← List.length_eq_zero_iff, length_queue, count_eq_zero hh]

/-- Writing the slot at `tail` and advancing it appends to the queue. -/
theorem queue_push (slot : Nat → β) (b : β) (hh : head < n) (ht : tail < n)
    (room : next n tail ≠ head) :
    queue n (Function.update slot tail b) head (next n tail) = queue n slot head tail ++ [b] := by
  unfold queue
  rw [count_push hh room, List.range_succ, List.map_append]
  congr 1
  · refine List.map_congr_left fun k hk => ?_
    have bound := count_lt hh ht
    have below := List.mem_range.mp hk
    -- an older element sits in another slot than the one written
    have ne : place n head k ≠ tail := fun e =>
      absurd (place_injective (by omega) bound (e.trans (place_count hh ht).symm)) (by omega)
    exact Function.update_of_ne ne b slot
  · simp [place_count hh ht]

/-- Advancing `head` drops the oldest element. -/
theorem queue_pop (slot : Nat → β) (hh : head < n) (ht : tail < n) (nonempty : head ≠ tail) :
    queue n slot head tail = slot head :: queue n slot (next n head) tail := by
  unfold queue
  have shorter := count_pop hh ht nonempty
  have bound := count_lt hh ht
  rw [shorter, List.range_succ_eq_map, List.map_cons, place_zero hh, List.map_map]
  refine congrArg _ (List.map_congr_left fun k hk => ?_)
  have below := List.mem_range.mp hk
  rw [Function.comp_apply, place_next (by omega)]

theorem queue_congr {slot slot' : Nat → β} (hh : head < n) (ht : tail < n)
    (same : ∀ i < n, slot i = slot' i) :
    queue n slot head tail = queue n slot' head tail := by
  refine List.map_congr_left fun k hk => ?_
  have below := List.mem_range.mp hk
  have bound := count_lt hh ht
  exact same _ (place_lt hh (by omega))

end Ring
