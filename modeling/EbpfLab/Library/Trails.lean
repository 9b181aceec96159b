import Mathlib.Logic.Relation

/-!
# Trails

Paths of a step relation, cut at the step that crosses a level of a measure, or behind the last step
from a marked place.
-/

namespace EbpfLab.Library
open Relation

variable {α : Type} {step : α → α → Prop} {marked : α → Prop} {a b : α} {level : Nat}

/-- A step from a place that is not marked. -/
def Unmarked (step : α → α → Prop) (marked : α → Prop) (a b : α) : Prop := step a b ∧ ¬ marked a

theorem trail_of_unmarked (trail : ReflTransGen (Unmarked step marked) a b) : ReflTransGen step a b :=
  ReflTransGen.mono (fun _ _ (stepped : Unmarked step marked _ _) => stepped.1) _ _ trail

/-- A trail from above a level to the level or below it crosses the level in a step. -/
theorem exists_crossing (trail : ReflTransGen step a b) (height : α → Nat) (above : level < height a)
    (below : height b ≤ level) : ∃ x y, ReflTransGen step a x ∧ step x y ∧ ReflTransGen step y b ∧
      level < height x ∧ height y ≤ level := by
  induction trail using ReflTransGen.head_induction_on with
  | refl => omega
  | @head a c stepped trail ih =>
    by_cases low : height c ≤ level
    · exact ⟨a, c, .refl, stepped, trail, above, low⟩
    · obtain ⟨x, y, before, crossing, behind, high, low⟩ := ih (Nat.not_le.mp low)
      exact ⟨x, y, .head stepped before, crossing, behind, high, low⟩

/-- A trail never leaves a marked place, or is cut behind the last step that does. -/
theorem last_marked (marked : α → Prop) (trail : ReflTransGen step a b) : ReflTransGen (Unmarked step marked) a b ∨
    ∃ x y, ReflTransGen step a x ∧ step x y ∧ marked x ∧ ReflTransGen (Unmarked step marked) y b := by
  induction trail with
  | refl => exact Or.inl .refl
  | @tail b c trail stepped ih =>
    by_cases here : marked b
    · exact Or.inr ⟨b, c, trail, stepped, here, .refl⟩
    · rcases ih with clear | ⟨x, y, before, leaving, there, behind⟩
      · exact Or.inl (clear.tail ⟨stepped, here⟩)
      · exact Or.inr ⟨x, y, before, leaving, there, behind.tail ⟨stepped, here⟩⟩

end EbpfLab.Library
