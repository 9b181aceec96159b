import Mathlib.Algebra.BigOperators.Group.Finset.Piecewise
import Mathlib.Algebra.Order.BigOperators.Group.Finset
import EbpfLab.Library.Dominance

/-!
# Depth-first postorder

A stack search that finishes a node when it finds it discovered: with enough turns it finishes every
node reached from the stack, each once.
-/

namespace EbpfLab.Library

/-- Pop or discover the top of the stack until it is empty: a node found discovered is finished. `finished` has the
nodes latest first. -/
def dfsPostOrder (succs : Nat → List Nat) :
    Nat → List Nat → List Nat → List Nat → List Nat
  | 0, _, _, finished => finished
  | _ + 1, [], _, finished => finished
  | fuel + 1, nx :: stack, discovered, finished =>
    if nx ∈ discovered then
      if nx ∈ finished then dfsPostOrder succs fuel stack discovered finished
      else dfsPostOrder succs fuel stack discovered (nx :: finished)
    else
      let fresh := (succs nx).filter (· ∉ nx :: discovered)
      dfsPostOrder succs fuel (fresh.reverse ++ nx :: stack) (nx :: discovered) finished

/-- Turns left: one for every stack entry, and for every node not yet discovered one and its
out-degree. -/
def dfsWork (succs : Nat → List Nat) (n : Nat) (stack discovered : List Nat) : Nat :=
  stack.length + ∑ v ∈ Finset.range n \ discovered.toFinset, (1 + (succs v).length)

theorem dfsWork_discover {succs : Nat → List Nat} {n nx : Nat} {discovered : List Nat}
    (stack fresh : List Nat) (inside : nx < n) (new : nx ∉ discovered) (bound : fresh.length ≤ (succs nx).length) :
    dfsWork succs n (fresh.reverse ++ nx :: stack) (nx :: discovered) + 1 ≤
      dfsWork succs n (nx :: stack) discovered := by
  have member : nx ∈ Finset.range n \ discovered.toFinset := by simp [inside, new]
  have erased : Finset.range n \ (nx :: discovered).toFinset =
      (Finset.range n \ discovered.toFinset).erase nx := by
    ext v
    simp only [List.toFinset_cons, Finset.mem_sdiff, Finset.mem_range, Finset.mem_insert,
      Finset.mem_erase, List.mem_toFinset]
    tauto
  have taken := Finset.add_sum_erase (Finset.range n \ discovered.toFinset)
    (fun v => 1 + (succs v).length) member
  simp only [dfsWork, erased, List.length_append, List.length_reverse, List.length_cons]
  omega

/-- With enough turns, what is on the stack or finished ends up finished. -/
theorem mem_dfsPostOrder {succs : Nat → List Nat} {n x : Nat}
    (bounded : ∀ v < n, ∀ s ∈ succs v, s < n) (fuel : Nat) (stack discovered finished : List Nat)
    (inside : ∀ v ∈ stack, v < n) (waiting : x ∈ stack ∨ x ∈ finished)
    (enough : dfsWork succs n stack discovered ≤ fuel) :
    x ∈ dfsPostOrder succs fuel stack discovered finished := by
  induction fuel generalizing stack discovered finished with
  | zero =>
    have empty : stack = [] := by
      simp only [dfsWork] at enough
      exact List.length_eq_zero_iff.mp (by omega)
    simpa [empty, dfsPostOrder] using waiting
  | succ fuel ih =>
    cases stack with
    | nil => simpa [dfsPostOrder] using waiting
    | cons nx stack =>
      have rest : ∀ v ∈ stack, v < n := fun v present => inside v (by simp [present])
      unfold dfsPostOrder
      by_cases seen : nx ∈ discovered
      · have less : dfsWork succs n stack discovered ≤ fuel := by
          simp only [dfsWork, List.length_cons] at enough ⊢
          omega
        simp only [seen, if_true]
        split
        · rename_i done
          refine ih stack discovered finished rest ?_ less
          rcases waiting with onStack | already
          · rcases List.mem_cons.mp onStack with rfl | later
            · exact Or.inr done
            · exact Or.inl later
          · exact Or.inr already
        · refine ih stack discovered (nx :: finished) rest ?_ less
          rcases waiting with onStack | already
          · rcases List.mem_cons.mp onStack with rfl | later
            · exact Or.inr (by simp)
            · exact Or.inl later
          · exact Or.inr (by simp [already])
      · simp only [seen, if_false]
        have below := inside nx (by simp)
        have step := dfsWork_discover stack ((succs nx).filter (· ∉ nx :: discovered)) below seen
          (List.length_filter_le _ _)
        refine ih _ _ _ ?_ ?_ (by omega)
        · intro v present
          rcases List.mem_append.mp present with fresh | old
          · exact bounded nx below v (List.mem_filter.mp (List.mem_reverse.mp fresh)).1
          · exact inside v old
        · rcases waiting with onStack | already
          · exact Or.inl (List.mem_append.mpr (Or.inr onStack))
          · exact Or.inr already

/-- What the loop has discovered waits or is finished, and its successors are discovered or wait. -/
structure Explored (succs : Nat → List Nat) (stack discovered finished : List Nat) : Prop where
  known : ∀ v ∈ finished, v ∈ discovered
  waiting : ∀ v ∈ discovered, v ∈ stack ∨ v ∈ finished
  followed : ∀ v ∈ discovered, ∀ s ∈ succs v, s ∈ discovered ∨ s ∈ stack

namespace Explored

variable {succs : Nat → List Nat} {stack discovered finished : List Nat} {nx : Nat}

theorem pop (explored : Explored succs (nx :: stack) discovered finished) (seen : nx ∈ discovered)
    {finished' : List Nat} (done : nx ∈ finished') (known : ∀ v ∈ finished', v ∈ discovered)
    (more : ∀ v ∈ finished, v ∈ finished') : Explored succs stack discovered finished' where
  known := known
  waiting v old := by
    rcases explored.waiting v old with onStack | already
    · rcases List.mem_cons.mp onStack with rfl | later
      · exact Or.inr done
      · exact Or.inl later
    · exact Or.inr (more v already)
  followed v old s next := by
    rcases explored.followed v old s next with found | onStack
    · exact Or.inl found
    · rcases List.mem_cons.mp onStack with rfl | later
      · exact Or.inl seen
      · exact Or.inr later

theorem push (explored : Explored succs (nx :: stack) discovered finished) :
    Explored succs (((succs nx).filter (· ∉ nx :: discovered)).reverse ++ nx :: stack) (nx :: discovered)
      finished where
  known v done := List.mem_cons_of_mem _ (explored.known v done)
  waiting v old := by
    rcases List.mem_cons.mp old with rfl | old
    · exact Or.inl (List.mem_append_right _ List.mem_cons_self)
    · exact (explored.waiting v old).imp (List.mem_append_right _) id
  followed v old s next := by
    rcases List.mem_cons.mp old with rfl | old
    · by_cases seen : s ∈ v :: discovered
      · exact Or.inl seen
      · exact Or.inr (List.mem_append_left _
          (List.mem_reverse.mpr (List.mem_filter.mpr ⟨next, decide_eq_true seen⟩)))
    · exact (explored.followed v old s next).imp (List.mem_cons_of_mem _) (List.mem_append_right _)

end Explored

/-- With enough turns, the finished nodes are closed under successors. -/
theorem dfsPostOrder_closed {succs : Nat → List Nat} {n : Nat}
    (bounded : ∀ v < n, ∀ s ∈ succs v, s < n) (fuel : Nat) (stack discovered finished : List Nat)
    (inside : ∀ v ∈ stack, v < n) (explored : Explored succs stack discovered finished)
    (enough : dfsWork succs n stack discovered ≤ fuel) :
    ∀ v ∈ dfsPostOrder succs fuel stack discovered finished, ∀ s ∈ succs v,
      s ∈ dfsPostOrder succs fuel stack discovered finished := by
  have ended : Explored succs [] discovered finished → ∀ v ∈ finished, ∀ s ∈ succs v, s ∈ finished := by
    intro explored v done s next
    have seen := (explored.followed v (explored.known v done) s next).resolve_right List.not_mem_nil
    exact (explored.waiting s seen).resolve_left List.not_mem_nil
  cases fuel with
  | zero =>
    have empty : stack = [] := by
      simp only [dfsWork] at enough
      exact List.length_eq_zero_iff.mp (by omega)
    subst empty
    exact ended explored
  | succ fuel =>
    cases stack with
    | nil => exact ended explored
    | cons nx stack =>
      have rest : ∀ v ∈ stack, v < n := fun v present => inside v (by simp [present])
      unfold dfsPostOrder
      by_cases seen : nx ∈ discovered
      · have less : dfsWork succs n stack discovered ≤ fuel := by
          simp only [dfsWork, List.length_cons] at enough ⊢
          omega
        simp only [seen, if_true]
        split
        · rename_i done
          exact dfsPostOrder_closed bounded fuel stack discovered finished rest
            (explored.pop seen done explored.known fun _ => id) less
        · have known : ∀ v ∈ nx :: finished, v ∈ discovered := by
            intro v done
            rcases List.mem_cons.mp done with rfl | earlier
            · exact seen
            · exact explored.known v earlier
          exact dfsPostOrder_closed bounded fuel stack discovered (nx :: finished) rest
            (explored.pop seen List.mem_cons_self known fun _ => List.mem_cons_of_mem _) less
      · simp only [seen, if_false]
        have below := inside nx (by simp)
        have step := dfsWork_discover stack ((succs nx).filter (· ∉ nx :: discovered)) below seen
          (List.length_filter_le _ _)
        refine dfsPostOrder_closed bounded fuel _ _ _ ?_ explored.push (by omega)
        intro v present
        rcases List.mem_append.mp present with fresh | old
        · exact bounded nx below v (List.mem_filter.mp (List.mem_reverse.mp fresh)).1
        · exact inside v old

/-- What holds of the nodes on the stack and is kept along edges holds of the nodes finished. -/
theorem dfsPostOrder_within {succs : Nat → List Nat} {good : Nat → Prop} (closed : ∀ v, good v → ∀ s ∈ succs v, good s)
    (fuel : Nat) (stack discovered finished : List Nat) (waiting : ∀ v ∈ stack, good v)
    (known : ∀ v ∈ finished, good v) : ∀ v ∈ dfsPostOrder succs fuel stack discovered finished, good v := by
  induction fuel generalizing stack discovered finished with
  | zero => exact known
  | succ fuel ih =>
    cases stack with
    | nil => exact known
    | cons nx stack =>
      obtain ⟨here, rest⟩ := List.forall_mem_cons.mp waiting
      unfold dfsPostOrder
      split
      · split
        · exact ih _ _ _ rest known
        · exact ih _ _ _ rest (List.forall_mem_cons.mpr ⟨here, known⟩)
      · refine ih _ _ _ (fun v present => ?_) known
        rcases List.mem_append.mp present with fresh | old
        · exact closed nx here v (List.mem_filter.mp (List.mem_reverse.mp fresh)).1
        · exact waiting v old

theorem dfsPostOrder_nodup {succs : Nat → List Nat} (fuel : Nat) (stack discovered finished : List Nat)
    (once : finished.Nodup) : (dfsPostOrder succs fuel stack discovered finished).Nodup := by
  induction fuel generalizing stack discovered finished with
  | zero => exact once
  | succ fuel ih =>
    cases stack with
    | nil => exact once
    | cons nx stack =>
      unfold dfsPostOrder
      split
      · split
        · exact ih _ _ _ once
        · rename_i fresh
          exact ih _ _ _ (List.nodup_cons.mpr ⟨fresh, once⟩)
      · exact ih _ _ _ once

/-- From one node, the search finishes what that node reaches. -/
theorem mem_dfsPostOrder_iff {succs : Nat → List Nat} {n fuel root v : Nat}
    (bounded : ∀ v < n, ∀ s ∈ succs v, s < n) (inside : root < n) (enough : dfsWork succs n [root] [] ≤ fuel) :
    v ∈ dfsPostOrder succs fuel [root] [] [] ↔ Reached (fun v s => s ∈ succs v) root v := by
  have stack : ∀ v ∈ [root], v < n := fun v here => List.mem_singleton.mp here ▸ inside
  constructor
  · refine dfsPostOrder_within (fun v reached s next => reached.step next) _ _ _ _ (fun v start => ?_) (by simp) v
    rw [List.mem_singleton.mp start]
    exact .root
  · intro reached
    induction reached with
    | root => exact mem_dfsPostOrder bounded _ _ _ _ stack (by simp) enough
    | step _ next ih =>
      exact dfsPostOrder_closed bounded _ _ _ _ stack ⟨by simp, by simp, by simp⟩ enough _ ih _ next

end EbpfLab.Library
