import Mathlib.Algebra.BigOperators.Group.Finset.Basic
import Mathlib.Logic.Relation

/-!
# Graph search

A stack search over a successor function: pop a node, skip it when seen, else mark it and push its
successors. Seeding the seen list cuts the search at those nodes.
-/

namespace EbpfLab.Library
open Relation

/-- Nodes seen from `stack`, searching on from `seen`. -/
def explore (succs : Nat → List Nat) : Nat → List Nat → List Nat → List Nat
  | 0, _, seen => seen
  | _ + 1, [], seen => seen
  | fuel + 1, node :: stack, seen =>
    if node ∈ seen then explore succs fuel stack seen
    else explore succs fuel (succs node ++ stack) (node :: seen)

/-- An edge of the search that does not enter a node seen from the start. -/
def Clear (succs : Nat → List Nat) (seen : List Nat) (a b : Nat) : Prop := b ∈ succs a ∧ b ∉ seen

/-- Turns left: one for every stack entry, and for every unseen node its out-degree. -/
def searchWork (succs : Nat → List Nat) (sources : Finset Nat) (stack seen : List Nat) : Nat :=
  stack.length + ∑ v ∈ sources \ seen.toFinset, (succs v).length

variable {succs : Nat → List Nat} {sources : Finset Nat} {fuel x : Nat} {stack seen : List Nat}

theorem searchWork_mark {node : Nat} (leaf : ∀ v, v ∉ sources → succs v = []) (new : node ∉ seen) :
    searchWork succs sources (succs node ++ stack) (node :: seen) + 1 =
      searchWork succs sources (node :: stack) seen := by
  have erased : sources \ (node :: seen).toFinset = (sources \ seen.toFinset).erase node := by
    ext v
    simp only [List.toFinset_cons, Finset.mem_sdiff, Finset.mem_insert, Finset.mem_erase,
      List.mem_toFinset]
    tauto
  simp only [searchWork, erased, List.length_append, List.length_cons]
  by_cases inner : node ∈ sources
  · have member : node ∈ sources \ seen.toFinset := by simp [inner, new]
    have taken := Finset.add_sum_erase _ (fun v => (succs v).length) member
    omega
  · have outside : node ∉ sources \ seen.toFinset := by simp [inner]
    rw [Finset.erase_eq_of_notMem outside, leaf node inner, List.length_nil]
    omega

theorem mem_explore_of_seen (succs : Nat → List Nat) (fuel : Nat) {stack seen : List Nat} {x : Nat}
    (already : x ∈ seen) : x ∈ explore succs fuel stack seen := by
  induction fuel generalizing stack seen with
  | zero => exact already
  | succ fuel ih =>
    cases stack with
    | nil => exact already
    | cons node stack =>
      unfold explore
      split
      · exact ih already
      · exact ih (List.mem_cons_of_mem _ already)

/-- With enough turns the search takes in its stack and closes it under successors. -/
theorem explore_closed (leaf : ∀ v, v ∉ sources → succs v = [])
    (enough : searchWork succs sources stack seen ≤ fuel) :
    (∀ v ∈ stack, v ∈ explore succs fuel stack seen) ∧
      ∀ v ∈ explore succs fuel stack seen, v ∉ seen →
        ∀ s ∈ succs v, s ∈ explore succs fuel stack seen := by
  induction fuel generalizing stack seen with
  | zero =>
    have empty : stack = [] := by
      simp only [searchWork] at enough
      exact List.length_eq_zero_iff.mp (by omega)
    subst empty
    exact ⟨nofun, fun v found fresh => absurd found fresh⟩
  | succ fuel ih =>
    cases stack with
    | nil => exact ⟨nofun, fun v found fresh => absurd found fresh⟩
    | cons node stack =>
      unfold explore
      by_cases old : node ∈ seen
      · have less : searchWork succs sources stack seen ≤ fuel := by
          simp only [searchWork, List.length_cons] at enough ⊢
          omega
        obtain ⟨taken, closed⟩ := ih less
        simp only [old, if_true]
        exact ⟨List.forall_mem_cons.mpr ⟨mem_explore_of_seen succs fuel old, taken⟩, closed⟩
      · have less : searchWork succs sources (succs node ++ stack) (node :: seen) ≤ fuel := by
          rw [← searchWork_mark leaf old] at enough
          omega
        obtain ⟨taken, closed⟩ := ih less
        simp only [old, if_false]
        refine ⟨List.forall_mem_cons.mpr ⟨mem_explore_of_seen succs fuel List.mem_cons_self,
          fun v waiting => taken v (List.mem_append_right _ waiting)⟩, fun v found fresh s edge => ?_⟩
        by_cases here : v = node
        · exact taken s (List.mem_append_left _ (here ▸ edge))
        · exact closed v found (by simp [here, fresh]) s edge

/-- What the search finds was seen already, or is reached from the stack past nothing seen. -/
theorem explore_sound (found : x ∈ explore succs fuel stack seen) :
    x ∈ seen ∨ ∃ s ∈ stack, s ∉ seen ∧ ReflTransGen (Clear succs seen) s x := by
  induction fuel generalizing stack seen with
  | zero => exact .inl found
  | succ fuel ih =>
    cases stack with
    | nil => exact .inl found
    | cons node stack =>
      unfold explore at found
      by_cases old : node ∈ seen
      · simp only [old, if_true] at found
        rcases ih found with already | ⟨s, waiting, fresh, path⟩
        · exact .inl already
        · exact .inr ⟨s, List.mem_cons_of_mem _ waiting, fresh, path⟩
      · simp only [old, if_false] at found
        have wider : ∀ a b, Clear succs (node :: seen) a b → Clear succs seen a b :=
          fun a b clear => ⟨clear.1, fun already => clear.2 (List.mem_cons_of_mem _ already)⟩
        rcases ih found with already | ⟨s, waiting, fresh, path⟩
        · rcases List.mem_cons.mp already with rfl | already
          · exact .inr ⟨x, List.mem_cons_self, old, .refl⟩
          · exact .inl already
        · have unseen : s ∉ seen := fun already => fresh (List.mem_cons_of_mem _ already)
          have path := ReflTransGen.mono wider _ _ path
          rcases List.mem_append.mp waiting with edge | waiting
          · exact .inr ⟨node, List.mem_cons_self, old, .head ⟨edge, unseen⟩ path⟩
          · exact .inr ⟨s, List.mem_cons_of_mem _ waiting, unseen, path⟩

/-- The search finds exactly what is reached from its stack past nothing seen from the start. -/
theorem mem_explore_iff (leaf : ∀ v, v ∉ sources → succs v = [])
    (enough : searchWork succs sources stack seen ≤ fuel) :
    x ∈ explore succs fuel stack seen ↔
      x ∈ seen ∨ ∃ s ∈ stack, s ∉ seen ∧ ReflTransGen (Clear succs seen) s x := by
  refine ⟨explore_sound, ?_⟩
  rintro (already | ⟨s, waiting, fresh, path⟩)
  · exact mem_explore_of_seen succs fuel already
  · obtain ⟨taken, closed⟩ := explore_closed leaf enough
    have reached : x ∈ explore succs fuel stack seen ∧ x ∉ seen := by
      induction path with
      | refl => exact ⟨taken s waiting, fresh⟩
      | tail _ edge ih => exact ⟨closed _ ih.1 ih.2 _ edge.1, edge.2⟩
    exact reached.1

end EbpfLab.Library
