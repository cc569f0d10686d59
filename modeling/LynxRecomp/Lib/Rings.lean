import Mathlib.Logic.Relation

/-!
# Cycles of forward moves and jumps

A relation is split into moves, which lead nowhere back by themselves, and jumps. A hop
goes on with moves alone and then takes one jump. There is a cycle exactly if there is
a ring of hops.
-/

universe u

open Relation

namespace Rings

variable {α : Type u} (move jump : α → α → Prop)

def Either (a b : α) : Prop := move a b ∨ jump a b

def Hop (a b : α) : Prop := ∃ c, ReflTransGen move a c ∧ jump c b

variable {move jump}

theorem Hop.either {a b : α} (hop : Hop move jump a b) : TransGen (Either move jump) a b := by
  obtain ⟨c, moves, jumps⟩ := hop
  exact TransGen.tail' (ReflTransGen.mono (fun _ _ => .inl) _ _ moves) (.inr jumps)

/-- A path is moves alone, or a hop, more hops, and moves from where the last of them landed. -/
theorem path_cases {a b : α} (path : TransGen (Either move jump) a b) :
    TransGen move a b ∨
      ∃ c d, Hop move jump a c ∧ ReflTransGen (Hop move jump) c d ∧ ReflTransGen move d b := by
  induction path with
  | single step =>
    obtain moves | jumps := step
    · exact .inl (.single moves)
    · exact .inr ⟨_, _, ⟨_, .refl, jumps⟩, .refl, .refl⟩
  | tail _ step ih =>
    obtain moves | jumps := step
    · obtain alone | ⟨c, d, hop, hops, rest⟩ := ih
      · exact .inl (alone.tail moves)
      · exact .inr ⟨c, d, hop, hops, rest.tail moves⟩
    · obtain alone | ⟨c, d, hop, hops, rest⟩ := ih
      · exact .inr ⟨_, _, ⟨_, alone.to_reflTransGen, jumps⟩, .refl, .refl⟩
      · exact .inr ⟨c, _, hop, hops.tail ⟨_, rest, jumps⟩, .refl⟩

theorem hop_of_moves {a b c : α} (moves : ReflTransGen move a b) (hop : Hop move jump b c) :
    Hop move jump a c := by
  obtain ⟨d, more, jumps⟩ := hop
  exact ⟨d, moves.trans more, jumps⟩

/-- If moves alone make no cycle, every cycle passes through a ring of hops. -/
theorem cycle_iff_ring (forward : ∀ a, ¬ TransGen move a a) :
    (∃ a, TransGen (Either move jump) a a) ↔ ∃ a, TransGen (Hop move jump) a a := by
  constructor
  · rintro ⟨a, cycle⟩
    obtain alone | ⟨c, d, hop, hops, rest⟩ := path_cases cycle
    · exact absurd alone (forward a)
    · exact ⟨c, TransGen.tail' hops (hop_of_moves rest hop)⟩
  · rintro ⟨a, ring⟩
    exact ⟨a, TransGen.closed (fun _ _ => Hop.either) _ _ ring⟩

end Rings
