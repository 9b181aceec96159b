import EbpfLab.Vm.Trace

/-!
# Straight-line code

Code without jumps runs from front to back wherever it stands in a program. What `executeAll` computes
is what the machine does there, step by step.
-/

namespace EbpfLab.Interp
open Isa

variable {code : List Insn} {insn : Insn} {vm vm' vm'' : Vm} {xs ys : List ExecInsn} {x : ExecInsn}

/-- The instructions that the loader resolves by their place. -/
def isJump : Insn → Bool
  | .jump .. => true
  | _ => false

/-- The loaded form of an instruction that is no jump. -/
def loadStraight (insn : Insn) : ExecInsn := lowerOne 0 insn [] []

theorem lowerOne_straight (straight : isJump insn = false) (i : Nat) (slots : List Nat)
    (rev : List (Option Nat)) : lowerOne i insn slots rev = loadStraight insn := by
  cases insn with
  | jump => cases straight
  | alu width op dst src => cases op <;> cases src <;> rfl
  | store size dst base src => cases src <;> rfl
  | _ => rfl

theorem load_straight (straight : ∀ insn ∈ code, isJump insn = false) : load code = code.map loadStraight := by
  refine List.ext_getElem? fun i => ?_
  rw [load_getElem?, List.getElem?_map]
  cases found : code[i]? with
  | none => rfl
  | some insn =>
    exact congrArg some (lowerOne_straight (straight insn (List.mem_of_getElem? found)) _ _ _)

theorem load_append {before behind : List Insn} (straight : ∀ i ∈ before, isJump i = false)
    (straight' : ∀ i ∈ behind, isJump i = false) : load (before ++ behind) = load before ++ load behind := by
  have joint : ∀ i ∈ before ++ behind, isJump i = false := fun i present =>
    (List.mem_append.mp present).elim (straight i) (straight' i)
  rw [load_straight joint, load_straight straight, load_straight straight', List.map_append]

theorem load_length (code : List Insn) : (load code).length = code.length := by
  simp [load]

namespace Vm

/-- Execute instructions one after the other. -/
def executeAll (vm : Vm) : List ExecInsn → Vm × StepResult
  | [] => (vm, .cont)
  | insn :: rest =>
    match vm.execute insn with
    | (vm, .cont) => vm.executeAll rest
    | stopped => stopped

theorem executeAll_cons (cont : vm.execute x = (vm', .cont)) : vm.executeAll (x :: xs) = vm'.executeAll xs := by
  rw [executeAll, cont]

theorem executeAll_single : vm.executeAll [x] = vm.execute x := by
  rw [executeAll]
  split
  · rename_i vm' cont
    rw [cont, executeAll]
  · rfl

theorem executeAll_append (cont : vm.executeAll xs = (vm', .cont)) :
    vm.executeAll (xs ++ ys) = vm'.executeAll ys := by
  induction xs generalizing vm with
  | nil =>
    cases cont
    rfl
  | cons x xs ih =>
    rw [executeAll] at cont
    split at cont
    · rename_i next stepped
      rw [List.cons_append, executeAll_cons stepped]
      exact ih cont
    · rename_i stopped other
      exact absurd cont (fun same => other vm' (by rw [same]))

end Vm

/-- Straight code runs on behind straight code. -/
theorem executeAll_straight {before behind : List Insn} (straight : ∀ i ∈ before, isJump i = false)
    (straight' : ∀ i ∈ behind, isJump i = false) (first : vm.executeAll (load before) = (vm', .cont)) :
    vm.executeAll (load (before ++ behind)) = vm'.executeAll (load behind) := by
  rw [load_append straight straight']
  exact Vm.executeAll_append first

/-! ### In a program -/

def ExecInsn.isStraight : ExecInsn → Bool
  | .jumpReg .. | .jumpImm .. | .jumpAlways _ | .exit => false
  | _ => true

/-- The code stands in a loaded program from an index on. -/
def Stands (exec : List ExecInsn) (pc : Nat) (code : List ExecInsn) : Prop :=
  ∀ i, i < code.length → exec[pc + i]? = code[i]?

theorem Stands.tail (stands : Stands xs n (x :: ys)) : xs[n]? = some x ∧ Stands xs (n + 1) ys := by
  refine ⟨by simpa using stands 0 (by simp), fun i inside => ?_⟩
  have later := stands (i + 1) (by simpa using inside)
  rwa [List.getElem?_cons_succ, Nat.add_comm i, ← Nat.add_assoc] at later

theorem Stands.append {exec : List ExecInsn} {pos : Nat} (stands : Stands exec pos (xs ++ ys)) :
    Stands exec pos xs ∧ Stands exec (pos + xs.length) ys := by
  refine ⟨fun i inside => ?_, fun i inside => ?_⟩
  · rw [stands i (by rw [List.length_append]; omega), List.getElem?_append_left inside]
  · rw [Nat.add_assoc, stands (xs.length + i) (by rw [List.length_append]; omega),
      List.getElem?_append_right (Nat.le_add_right _ _), Nat.add_sub_cancel_left]

theorem execute_straight (straight : x.isStraight) (cont : vm.execute x = (vm', .cont)) :
    vm'.pc = vm.pc + 1 ∧ vm'.exec = vm.exec := by
  cases x with
  | aluReg | aluImm | loadImm64 =>
    cases cont
    exact ⟨rfl, rfl⟩
  | load size dst base offset =>
    unfold Vm.execute at cont
    dsimp only at cont
    split at cont
    · cases cont
      exact ⟨rfl, rfl⟩
    · cases cont
  | storeReg | storeImm =>
    unfold Vm.execute Vm.storeTo at cont
    dsimp only at cont
    split at cont
    · cases cont
      exact ⟨rfl, rfl⟩
    · cases cont
  | call func =>
    unfold Vm.execute Vm.dispatchHelper at cont
    dsimp only at cont
    split at cont
    · cases cont
    · split at cont
      · cases cont
      · cases cont
        exact ⟨rfl, rfl⟩
  | trap => cases cont
  | jumpReg | jumpImm | jumpAlways | exit => cases straight

end EbpfLab.Interp
