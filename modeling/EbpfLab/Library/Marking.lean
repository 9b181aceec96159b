import Mathlib.Data.List.Basic
import Mathlib.Tactic.Common

/-!
# Mark phases

A worklist that marks what it pushes: every item is pushed at most once, and at the end the marked
items are closed under the successor function.
-/

namespace EbpfLab.Library

variable {α : Type} [DecidableEq α]

/-- Push an item unless it is marked, marking it. -/
def pushUnmarked (state : List α × List α) (x : α) : List α × List α :=
  if x ∈ state.2 then state else (x :: state.1, x :: state.2)

/-- Pop items, pushing their unmarked successors, until the stack is empty. -/
def markFrom (next : α → List α) : Nat → List α → List α → List α
  | 0, _, marked => marked
  | _ + 1, [], marked => marked
  | fuel + 1, x :: stack, marked =>
    let state := (next x).foldl pushUnmarked (stack, marked)
    markFrom next fuel state.1 state.2

/-- The stack that is left. -/
def leftFrom (next : α → List α) : Nat → List α → List α → List α
  | 0, stack, _ => stack
  | _ + 1, [], _ => []
  | fuel + 1, x :: stack, marked =>
    let state := (next x).foldl pushUnmarked (stack, marked)
    leftFrom next fuel state.1 state.2

variable {next : α → List α} {stack marked items : List α}

/-- What the items still to be visited can cost. -/
def pending (items stack marked : List α) : Nat :=
  stack.length + (items.filter (· ∉ marked)).length

theorem pushUnmarked_pending {state : List α × List α} {x : α} (inside : x ∈ items) :
    pending items (pushUnmarked state x).1 (pushUnmarked state x).2 ≤
      pending items state.1 state.2 := by
  unfold pushUnmarked
  split
  · exact Nat.le_refl _
  · rename_i unmarked
    have fewer : (items.filter (· ∉ x :: state.2)).length <
        (items.filter (· ∉ state.2)).length := by
      have split : items.filter (· ∉ x :: state.2) =
          (items.filter (· ∉ state.2)).filter (· ≠ x) := by
        rw [List.filter_filter]
        congr 1
        funext y
        simp [not_or]
      rw [split]
      exact List.length_filter_lt_length_iff_exists.mpr
        ⟨x, List.mem_filter.mpr ⟨inside, by simpa using unmarked⟩, by simp⟩
    simp only [pending, List.length_cons]
    omega

theorem pushAll_pending {xs : List α} (inside : ∀ x ∈ xs, x ∈ items) (state : List α × List α) :
    pending items (xs.foldl pushUnmarked state).1 (xs.foldl pushUnmarked state).2 ≤
      pending items state.1 state.2 := by
  induction xs generalizing state with
  | nil => exact Nat.le_refl _
  | cons x xs ih =>
    exact Nat.le_trans (ih (fun y later => inside y (List.mem_cons_of_mem _ later)) _)
      (pushUnmarked_pending (inside x List.mem_cons_self))

/-- Pushing marks the items and keeps whatever was marked; the new marks are on the stack. -/
theorem pushAll_marks (xs : List α) (state : List α × List α) :
    (∀ x ∈ xs, x ∈ (xs.foldl pushUnmarked state).2) ∧
      (∀ x ∈ state.2, x ∈ (xs.foldl pushUnmarked state).2) ∧
      (∀ x ∈ state.1, x ∈ (xs.foldl pushUnmarked state).1) ∧
      ∀ x ∈ (xs.foldl pushUnmarked state).2,
        x ∈ state.2 ∨ x ∈ xs ∧ x ∈ (xs.foldl pushUnmarked state).1 := by
  induction xs generalizing state with
  | nil => simp
  | cons x xs ih =>
    obtain ⟨marks, keeps, keeps', fresh⟩ := ih (pushUnmarked state x)
    have here : x ∈ (pushUnmarked state x).2 := by
      unfold pushUnmarked
      split
      · assumption
      · exact List.mem_cons_self
    have before : ∀ y ∈ state.2, y ∈ (pushUnmarked state x).2 := by
      intro y present
      unfold pushUnmarked
      split
      · exact present
      · exact List.mem_cons_of_mem _ present
    have before' : ∀ y ∈ state.1, y ∈ (pushUnmarked state x).1 := by
      intro y present
      unfold pushUnmarked
      split
      · exact present
      · exact List.mem_cons_of_mem _ present
    refine ⟨?_, fun y present => keeps y (before y present),
      fun y present => keeps' y (before' y present), ?_⟩
    · intro y present
      rcases List.mem_cons.mp present with rfl | later
      · exact keeps y here
      · exact marks y later
    · intro y present
      rcases fresh y present with old | ⟨later, pushed⟩
      · unfold pushUnmarked at old
        split at old
        · exact Or.inl old
        · rename_i unmarked
          rcases List.mem_cons.mp old with rfl | old
          · refine Or.inr ⟨List.mem_cons_self, keeps' y ?_⟩
            simp [pushUnmarked, unmarked]
          · exact Or.inl old
      · exact Or.inr ⟨List.mem_cons_of_mem _ later, pushed⟩

/-- Marks are never taken back. -/
theorem subset_markFrom (fuel : Nat) (stack marked : List α) :
    ∀ x ∈ marked, x ∈ markFrom next fuel stack marked := by
  induction fuel generalizing stack marked with
  | zero => exact fun _ => id
  | succ fuel ih =>
    cases stack with
    | nil => exact fun _ => id
    | cons x stack =>
      intro y present
      exact ih _ _ y ((pushAll_marks (next x) (stack, marked)).2.1 y present)

/-- With fuel for every item, the marks are closed under successors. -/
theorem markFrom_closed {fuel : Nat} (enough : pending items stack marked ≤ fuel)
    (inside : ∀ x, ∀ y ∈ next x, y ∈ items)
    (settled : ∀ x ∈ marked, x ∈ stack ∨ ∀ y ∈ next x, y ∈ marked) :
    ∀ x ∈ markFrom next fuel stack marked, ∀ y ∈ next x, y ∈ markFrom next fuel stack marked := by
  induction fuel generalizing stack marked with
  | zero =>
    have empty : stack = [] := List.eq_nil_of_length_eq_zero (by unfold pending at enough; omega)
    subst empty
    intro x present
    exact (settled x present).resolve_left List.not_mem_nil
  | succ fuel ih =>
    cases stack with
    | nil =>
      intro x present
      exact (settled x present).resolve_left List.not_mem_nil
    | cons x stack =>
      obtain ⟨marks, keeps, keeps', fresh⟩ := pushAll_marks (next x) (stack, marked)
      refine ih ?_ ?_
      · have := pushAll_pending (inside x) (stack, marked)
        simp only [pending, List.length_cons] at this enough ⊢
        omega
      · intro y present
        rcases fresh y present with old | ⟨_, pushed⟩
        · rcases settled y old with waiting | done
          · rcases List.mem_cons.mp waiting with rfl | later
            · exact Or.inr marks
            · exact Or.inl (keeps' y later)
          · exact Or.inr fun z follows => keeps z (done z follows)
        · exact Or.inl pushed

/-- With fuel for every item, the stack is emptied. -/
theorem leftFrom_empty {fuel : Nat} (enough : pending items stack marked ≤ fuel)
    (inside : ∀ x, ∀ y ∈ next x, y ∈ items) : leftFrom next fuel stack marked = [] := by
  induction fuel generalizing stack marked with
  | zero =>
    have empty : stack = [] := List.eq_nil_of_length_eq_zero (by unfold pending at enough; omega)
    exact empty
  | succ fuel ih =>
    cases stack with
    | nil => rfl
    | cons x stack =>
      refine ih ?_
      have := pushAll_pending (inside x) (stack, marked)
      simp only [pending, List.length_cons] at this enough ⊢
      omega

/-- A property that successors inherit holds of every mark. -/
theorem markFrom_sound {fuel : Nat} {good : α → Prop}
    (inherits : ∀ x, good x → ∀ y ∈ next x, good y) (start : ∀ x ∈ marked, good x)
    (known : ∀ x ∈ stack, good x) : ∀ x ∈ markFrom next fuel stack marked, good x := by
  induction fuel generalizing stack marked with
  | zero => exact start
  | succ fuel ih =>
    cases stack with
    | nil => exact start
    | cons x stack =>
      have successors := inherits x (known x List.mem_cons_self)
      have pushed : ∀ (xs : List α) (state : List α × List α), (∀ y ∈ xs, good y) →
          (∀ y ∈ state.1, good y) → (∀ y ∈ state.2, good y) →
          (∀ y ∈ (xs.foldl pushUnmarked state).1, good y) ∧
            ∀ y ∈ (xs.foldl pushUnmarked state).2, good y := by
        intro xs
        induction xs with
        | nil => exact fun _ _ first second => ⟨first, second⟩
        | cons z xs ih =>
          intro state every first second
          refine ih _ (fun y later => every y (List.mem_cons_of_mem _ later)) ?_ ?_ <;>
            unfold pushUnmarked <;> split
          · exact first
          · exact List.forall_mem_cons.mpr ⟨every z List.mem_cons_self, first⟩
          · exact second
          · exact List.forall_mem_cons.mpr ⟨every z List.mem_cons_self, second⟩
      obtain ⟨first, second⟩ := pushed (next x) (stack, marked) successors
        (fun y later => known y (List.mem_cons_of_mem _ later)) start
      exact ih second first

end EbpfLab.Library
