import EbpfLab.Vm.Flow

/-!
# Runs

A run strings continuing steps together until one of them ends it. The machine after `k` steps is
what invariants are stated on; how a budgeted run ends is read off the machine that could not go on.
-/

namespace EbpfLab.Interp
open Isa

variable {insns : List Insn} {vm vm' u u' : Vm} {insn : Insn}

namespace Vm

/-- The machine a continuing step leaves. -/
def next (vm : Vm) : Option Vm :=
  match vm.step with
  | (vm', .cont) => some vm'
  | _ => none

/-- The machine after `k` continuing steps, if the run gets that far. -/
def after (vm : Vm) : Nat → Option Vm
  | 0 => some vm
  | k + 1 => (vm.after k).bind next

theorem next_eq_some : vm.next = some vm' ↔ vm.step = (vm', .cont) := by
  unfold next
  split
  · rename_i u same
    simp [same]
  · rename_i other
    constructor
    · intro impossible
      cases impossible
    · intro stepped
      exact absurd stepped (other vm')

theorem after_succ_eq_some {k : Nat} :
    vm.after (k + 1) = some vm' ↔ ∃ u, vm.after k = some u ∧ u.step = (vm', .cont) := by
  simp only [after, Option.bind_eq_some_iff, next_eq_some]

/-- The first step of a run can be taken off in front. -/
theorem after_succ_front (stepped : vm.step = (u, .cont)) (k : Nat) :
    vm.after (k + 1) = u.after k := by
  induction k with
  | zero => exact next_eq_some.mpr stepped
  | succ k ih =>
    rw [after, ih]
    rfl

/-- An invariant of continuing steps holds along the run. -/
theorem after_induction (inv : Vm → Prop) {k : Nat} (start : inv vm)
    (keeps : ∀ u u', inv u → u.step = (u', .cont) → inv u') (reached : vm.after k = some vm') :
    inv vm' := by
  induction k generalizing vm' with
  | zero =>
    cases reached
    exact start
  | succ k ih =>
    obtain ⟨u, before, stepped⟩ := after_succ_eq_some.mp reached
    exact keeps u vm' (ih before) stepped

/-- A budgeted run that fails either ran out of steps or reached the step that failed. -/
theorem runFrom_error {limit fuel : Nat} {e : VmError}
    (failed : vm.runFrom limit fuel = (vm', .error e)) :
    e = .stepsExceeded limit ∨ ∃ k u, vm.after k = some u ∧ u.step = (vm', .error e) := by
  induction fuel generalizing vm with
  | zero =>
    cases failed
    exact Or.inl rfl
  | succ fuel ih =>
    unfold runFrom at failed
    split at failed
    · rename_i stepped
      rcases ih failed with exhausted | ⟨k, u, reached, last⟩
      · exact Or.inl exhausted
      · exact Or.inr ⟨k + 1, u, (after_succ_front stepped k).trans reached, last⟩
    · cases failed
    · rename_i stepped
      cases failed
      exact Or.inr ⟨0, vm, rfl, stepped⟩

/-- A failing step ends every run with the budget to reach it. -/
theorem runFrom_of_step (limit : Nat) {k : Nat} {e : VmError} (reached : vm.after k = some u)
    (failed : u.step = (vm', .error e)) : vm.runFrom limit (k + 1) = (vm', .error e) := by
  induction k generalizing vm with
  | zero =>
    cases reached
    simp [runFrom, failed]
  | succ k ih =>
    cases stepped : vm.step with
    | mk v result =>
      cases result with
      | cont =>
        rw [after_succ_front stepped] at reached
        rw [runFrom, stepped]
        exact ih reached
      | exit code | error e' =>
        have stuck : ∀ k, vm.after (k + 1) = none := by
          intro k
          induction k with
          | zero => simp [after, next, stepped]
          | succ k ih => rw [after, ih, Option.bind_none]
        rw [stuck] at reached
        cases reached

end Vm

/-! ### What every run keeps -/

theorem Advance.frame (step : Advance insns vm insn vm') :
    vm'.exec = vm.exec ∧ vm'.helpers = vm.helpers := by
  cases step <;> exact ⟨rfl, rfl⟩

/-- The program and the helpers of a machine never change. -/
theorem Vm.after_frame {k : Nat} (loaded : vm.Loaded insns) (small : slotCount insns < 2 ^ 32)
    (reached : vm.after k = some vm') : vm'.Loaded insns ∧ vm'.helpers = vm.helpers := by
  refine Vm.after_induction (fun u => u.Loaded insns ∧ u.helpers = vm.helpers)
    ⟨loaded, rfl⟩ ?_ reached
  rintro u u' ⟨loaded, helpers⟩ stepped
  obtain ⟨insn, _, step⟩ := (step_cont_iff loaded small).mp stepped
  exact ⟨step.frame.1.trans loaded, step.frame.2.trans helpers⟩

end EbpfLab.Interp
