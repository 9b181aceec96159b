import EbpfLab.Vm.Exec

/-!
# Steps by decoded instruction

What one step of a loaded machine does, told by the decoded instruction under the program counter,
and what a whole run does, told by the steps it strings together.
-/

namespace EbpfLab.Interp
open Isa

variable {insns : List Insn} {vm vm' : Vm} {insn : Insn}

/-- The value an operand supplies. -/
def Regs.operand (regs : Regs) : Operand → Int64
  | .reg r => regs r
  | .imm k => k.toInt64

/-- The machine runs this program. -/
def Vm.Loaded (vm : Vm) (insns : List Insn) : Prop := vm.exec = load insns

/-- Whether an ALU instruction is one the loader admits: `BPF_END` needs an immediate width. -/
def aluAdmitted (op : AluOp) (src : Operand) : Prop :=
  ∀ endian, op = .byteSwap endian → src = .imm 16 ∨ src = .imm 32 ∨ src = .imm 64

/-! ### Loading -/

theorem load_getElem? (insns : List Insn) (i : Nat) :
    (load insns)[i]? = insns[i]?.map fun insn =>
      lowerOne i insn (slotsFrom 0 insns) (slotTable none some insns) := by
  simp only [load, execSlotTable, List.getElem?_map, List.getElem?_zipIdx]
  cases insns[i]? <;> simp

theorem resolve_eq_ok_iff {i j : Nat} {offset : Int16} (inside : i < insns.length)
    (small : slotCount insns < 2 ^ 32) :
    resolve i offset (slotsFrom 0 insns) (slotTable none some insns) = .ok j ↔
      JumpsTo insns i offset j := by
  obtain ⟨s, source⟩ : ∃ s, (slotsFrom 0 insns)[i]? = some s :=
    ⟨_, List.getElem?_eq_getElem (by simpa using inside)⟩
  have slotOf : (slotsFrom 0 insns).getD i 0 = s := by simp [List.getD, source]
  have inverse : ∀ t, (slotTable none some insns)[t]?.join = some j ↔
      (slotsFrom 0 insns)[j]? = some t := by
    intro t
    rw [← slotTable_eq_some_iff none some (by simp) (by simp)]
    exact Option.join_eq_some_iff
  simp only [resolve, slotOf]
  constructor
  · intro resolved
    split at resolved
    · cases resolved
    · rename_i positive
      split at resolved
      · cases resolved
      · rename_i decoded read
        split at resolved
        · cases resolved
          exact ⟨s, _, source, (inverse _).mp read, by omega⟩
        · cases resolved
  · rintro ⟨s', t, source', target, same⟩
    have sources : s = s' := by simpa [source] using source'
    subst sources
    have bound : j < 2 ^ 32 :=
      Nat.lt_trans (JumpsTo.target_lt_slotCount ⟨s, t, source, target, same⟩) small
    have positive : ¬ (s : Int) + 1 + offset.toInt < 0 := by omega
    have place : ((s : Int) + 1 + offset.toInt).toNat = t := by omega
    simp only [positive, if_false, place, (inverse t).mpr target, bound, if_true]

theorem lowerOne_alu_admitted {i : Nat} {width : Width} {op : AluOp} {dst : Reg} {src : Operand}
    {slots : List Nat} {rev : List (Option Nat)} (admitted : aluAdmitted op src) (vm : Vm) :
    vm.execute (lowerOne i (.alu width op dst src) slots rev) =
      (vm.assign dst (op.apply (vm.regs dst) (vm.regs.operand src) width), .cont) := by
  cases op with
  | byteSwap endian =>
    rcases admitted endian rfl with rfl | rfl | rfl <;> rfl
  | _ => cases src <;> rfl

theorem lowerOne_alu_refused {i : Nat} {width : Width} {op : AluOp} {dst : Reg} {src : Operand}
    {slots : List Nat} {rev : List (Option Nat)} (refused : ¬ aluAdmitted op src) :
    ∃ kind, lowerOne i (.alu width op dst src) slots rev = .trap kind := by
  cases op with
  | byteSwap endian =>
    cases src with
    | reg r => exact ⟨_, rfl⟩
    | imm w =>
      have bad : ¬ (w = 16 ∨ w = 32 ∨ w = 64) := by
        intro good
        apply refused
        intro _ _
        simpa using good
      exact ⟨_, by simp [lowerOne, bad]; rfl⟩
  | _ => exact absurd (fun _ same => by cases same) refused

/-! ### Continuing steps -/

/-- The continuing steps of a loaded machine, one constructor an instruction form. -/
inductive Advance (insns : List Insn) (vm : Vm) : Insn → Vm → Prop where
  | alu {width op dst src} : aluAdmitted op src →
      Advance insns vm (.alu width op dst src)
        (vm.assign dst (op.apply (vm.regs dst) (vm.regs.operand src) width))
  | load {size dst base offset v} : vm.memory.load (vm.regs base + offset.toInt64) size = .ok v →
      Advance insns vm (.load size dst base offset) (vm.assign dst v)
  | store {size base offset src memory} :
      vm.memory.store (vm.regs base + offset.toInt64) size (vm.regs.operand src) = .ok memory →
      Advance insns vm (.store size base offset src) { vm with memory, pc := vm.pc + 1 }
  | loadImm64 {dst imm} : Advance insns vm (.loadImm64 dst imm) (vm.assign dst imm)
  | jump {width op dst src offset target} : JumpsTo insns vm.pc offset target →
      Advance insns vm (.jump width op dst src offset)
        (vm.branch (jumpTaken op (vm.regs dst) (vm.regs.operand src) width) target)
  | call {func helper r0 w} : vm.helpers func = some helper →
      helper vm.regs vm.toWorld = .ok (r0, w) →
      Advance insns vm (.call func)
        { vm with toWorld := w, regs := vm.regs.write 0 r0, pc := vm.pc + 1 }

theorem storeTo_eq {size : MemSize} {base : Reg} {offset : Int16} {value : Int64} :
    vm.storeTo size base offset value = (vm', .cont) ↔
      ∃ memory, vm.memory.store (vm.regs base + offset.toInt64) size value = .ok memory ∧
        vm' = { vm with memory, pc := vm.pc + 1 } := by
  unfold Vm.storeTo
  cases vm.memory.store (vm.regs base + offset.toInt64) size value <;> simp [eq_comm]

theorem step_eq_execute (loaded : vm.Loaded insns) (fetched : insns[vm.pc]? = some insn) :
    vm.step = vm.execute (lowerOne vm.pc insn (slotsFrom 0 insns) (slotTable none some insns)) := by
  rw [Vm.Loaded] at loaded
  simp [Vm.step, loaded, load_getElem?, fetched]

theorem step_past_end (loaded : vm.Loaded insns) (past : insns[vm.pc]? = none) :
    vm.step = (vm, .error (.jumpOutOfBounds vm.pc vm.pc)) := by
  rw [Vm.Loaded] at loaded
  simp [Vm.step, loaded, load_getElem?, past]

section Execute

variable {i : Nat} {width : Width} {dst base : Reg} {src : Operand} {offset : Int16} {slots : List Nat}
  {rev : List (Option Nat)}

theorem execute_alu_cont_iff {op : AluOp} :
    vm.execute (lowerOne i (.alu width op dst src) slots rev) = (vm', .cont) ↔
      Advance insns vm (.alu width op dst src) vm' := by
  by_cases admitted : aluAdmitted op src
  · rw [lowerOne_alu_admitted admitted]
    constructor
    · intro stepped
      cases stepped
      exact .alu admitted
    · rintro ⟨⟩
      rfl
  · obtain ⟨kind, trapped⟩ : ∃ kind, lowerOne i (.alu width op dst src) slots rev = .trap kind :=
      lowerOne_alu_refused admitted
    rw [trapped]
    constructor
    · intro stepped
      simp [Vm.execute] at stepped
    · rintro ⟨held⟩
      exact absurd held admitted

theorem execute_load_cont_iff {size : MemSize} :
    vm.execute (lowerOne i (.load size dst base offset) slots rev) = (vm', .cont) ↔
      Advance insns vm (.load size dst base offset) vm' := by
  simp only [lowerOne, Vm.execute]
  cases read : vm.memory.load (vm.regs base + offset.toInt64) size with
  | error e =>
    refine ⟨fun stepped => by simp at stepped, ?_⟩
    rintro ⟨⟩
    simp_all
  | ok v =>
    constructor
    · intro stepped
      cases stepped
      exact .load read
    · rintro ⟨⟩
      simp_all

theorem execute_store_cont_iff {size : MemSize} :
    vm.execute (lowerOne i (.store size base offset src) slots rev) = (vm', .cont) ↔
      Advance insns vm (.store size base offset src) vm' := by
  have lowered : vm.execute (lowerOne i (.store size base offset src) slots rev) =
      vm.storeTo size base offset (vm.regs.operand src) := by
    cases src <;> rfl
  rw [lowered, storeTo_eq]
  constructor
  · rintro ⟨memory, stored, rfl⟩
    exact .store stored
  · rintro ⟨⟩
    exact ⟨_, ‹_›, rfl⟩

theorem execute_call_cont_iff {func : UInt32} :
    vm.execute (lowerOne i (.call func) slots rev) = (vm', .cont) ↔ Advance insns vm (.call func) vm' := by
  simp only [lowerOne, Vm.execute, Vm.dispatchHelper]
  cases known : vm.helpers func with
  | none =>
    refine ⟨fun stepped => by simp at stepped, ?_⟩
    rintro ⟨⟩
    simp_all
  | some helper =>
    cases called : helper vm.regs vm.toWorld with
    | error e =>
      refine ⟨fun stepped => by simp [called] at stepped, ?_⟩
      rintro ⟨⟩
      simp_all
    | ok out =>
      constructor
      · intro stepped
        simp only [called, Prod.mk.injEq, and_true] at stepped
        subst stepped
        exact .call known called
      · rintro ⟨⟩
        simp_all

/-- A jump whose offset resolves branches, `always` without looking at the operands. -/
theorem execute_jump {op : JumpOp} {target : Nat} (resolved : resolve i offset slots rev = .ok target) :
    vm.execute (lowerOne i (.jump width op dst src offset) slots rev) =
      (vm.branch (jumpTaken op (vm.regs dst) (vm.regs.operand src) width) target, .cont) := by
  simp only [lowerOne, resolved]
  by_cases always : op = .always
  · subst always
    simp [Vm.execute]
  · cases src <;> simp [always, Vm.execute, Regs.operand]

theorem execute_jump_cont_iff {op : JumpOp} (inside : vm.pc < insns.length) (small : slotCount insns < 2 ^ 32) :
    vm.execute (lowerOne vm.pc (.jump width op dst src offset) (slotsFrom 0 insns) (slotTable none some insns)) =
        (vm', .cont) ↔ Advance insns vm (.jump width op dst src offset) vm' := by
  cases resolved : resolve vm.pc offset (slotsFrom 0 insns) (slotTable none some insns) with
  | error kind =>
    refine ⟨fun stepped => by simp [lowerOne, resolved, Vm.execute] at stepped, ?_⟩
    rintro ⟨⟩
    rename_i jump
    rw [(resolve_eq_ok_iff inside small).mpr jump] at resolved
    cases resolved
  | ok target =>
    have jump := (resolve_eq_ok_iff inside small).mp resolved
    rw [execute_jump resolved]
    constructor
    · intro stepped
      cases stepped
      exact .jump jump
    · rintro ⟨⟩
      rename_i other
      rw [JumpsTo.unique other jump]

end Execute

/-- One continuing step is one advance of the fetched instruction. -/
theorem step_cont_iff (loaded : vm.Loaded insns) (small : slotCount insns < 2 ^ 32) :
    vm.step = (vm', .cont) ↔ ∃ insn, insns[vm.pc]? = some insn ∧ Advance insns vm insn vm' := by
  cases fetched : insns[vm.pc]? with
  | none => simp [step_past_end loaded fetched]
  | some insn =>
    have inside := (List.getElem?_eq_some_iff.mp fetched).1
    simp only [step_eq_execute loaded fetched, Option.some.injEq, exists_eq_left']
    cases insn with
    | alu width op dst src => exact execute_alu_cont_iff
    | load size dst base offset => exact execute_load_cont_iff
    | store size base offset src => exact execute_store_cont_iff
    | loadImm64 dst imm =>
      constructor
      · intro stepped
        cases stepped
        exact .loadImm64
      · rintro ⟨⟩
        rfl
    | jump width op dst src offset => exact execute_jump_cont_iff inside small
    | call func => exact execute_call_cont_iff
    | exit =>
      refine ⟨fun stepped => by simp [lowerOne, Vm.execute] at stepped, ?_⟩
      rintro ⟨⟩
    | unknown raw =>
      refine ⟨fun stepped => by simp [lowerOne, Vm.execute] at stepped, ?_⟩
      rintro ⟨⟩

/-! ### Failing steps -/

/-- Instructions the loader turned into traps. -/
inductive Refused (insns : List Insn) (pc : Nat) : Insn → Prop where
  | alu {width : Width} {op : AluOp} {dst : Reg} {src : Operand} (bad : ¬ aluAdmitted op src) :
      Refused insns pc (.alu width op dst src)
  | jump {width : Width} {op : JumpOp} {dst : Reg} {src : Operand} {offset : Int16}
      (bad : ∀ j, ¬ JumpsTo insns pc offset j) : Refused insns pc (.jump width op dst src offset)
  | unknown {raw : RawInsn} : Refused insns pc (.unknown raw)

/-- The failing steps of a loaded machine. -/
inductive Fault (insns : List Insn) (vm : Vm) : Insn → VmError → Prop where
  | trap {insn : Insn} {kind : TrapKind} (refused : Refused insns vm.pc insn) :
      Fault insns vm insn (kind.intoError vm.pc)
  | load {size : MemSize} {dst base : Reg} {offset : Int16} {e : MemError}
      (read : vm.memory.load (vm.regs base + offset.toInt64) size = .error e) :
      Fault insns vm (.load size dst base offset) (.memory e)
  | store {size : MemSize} {base : Reg} {offset : Int16} {src : Operand} {e : MemError}
      (stored : vm.memory.store (vm.regs base + offset.toInt64) size (vm.regs.operand src) =
        .error e) :
      Fault insns vm (.store size base offset src) (.memory e)
  | unknownHelper {func : UInt32} (missing : vm.helpers func = none) :
      Fault insns vm (.call func) (.unknownHelper func)
  | helper {func : UInt32} {helper : HelperFn} {e : VmError} (known : vm.helpers func = some helper)
      (failed : helper vm.regs vm.toWorld = .error e) : Fault insns vm (.call func) e

theorem step_error {e : VmError} (loaded : vm.Loaded insns) (small : slotCount insns < 2 ^ 32)
    (fetched : insns[vm.pc]? = some insn) (stepped : vm.step = (vm', .error e)) :
    Fault insns vm insn e := by
  have inside := (List.getElem?_eq_some_iff.mp fetched).1
  rw [step_eq_execute loaded fetched] at stepped
  cases insn with
  | alu width op dst src =>
    by_cases admitted : aluAdmitted op src
    · rw [lowerOne_alu_admitted admitted] at stepped
      cases stepped
    · obtain ⟨kind, trapped⟩ : ∃ kind, lowerOne vm.pc (.alu width op dst src) (slotsFrom 0 insns)
          (slotTable none some insns) = .trap kind := lowerOne_alu_refused admitted
      rw [trapped] at stepped
      cases stepped
      exact .trap (.alu admitted)
  | load size dst base offset =>
    simp only [lowerOne, Vm.execute] at stepped
    split at stepped
    · cases stepped
    · rename_i failed
      cases stepped
      exact .load failed
  | store size base offset src =>
    have lowered : vm.execute (lowerOne vm.pc (.store size base offset src) (slotsFrom 0 insns)
        (slotTable none some insns)) = vm.storeTo size base offset (vm.regs.operand src) := by
      cases src <;> rfl
    rw [lowered] at stepped
    unfold Vm.storeTo at stepped
    split at stepped
    · cases stepped
    · rename_i failed
      cases stepped
      exact .store failed
  | loadImm64 dst imm => cases stepped
  | jump width op dst src offset =>
    cases resolved : resolve vm.pc offset (slotsFrom 0 insns) (slotTable none some insns) with
    | error kind =>
      simp only [lowerOne, resolved, Vm.execute] at stepped
      cases stepped
      refine .trap (.jump fun j lands => ?_)
      rw [(resolve_eq_ok_iff inside small).mpr lands] at resolved
      cases resolved
    | ok target =>
      simp only [lowerOne, resolved] at stepped
      by_cases always : op = .always
      · simp only [always, if_true] at stepped
        cases stepped
      · cases src <;> simp only [always, if_false] at stepped <;> cases stepped
  | call func =>
    simp only [lowerOne, Vm.execute, Vm.dispatchHelper] at stepped
    split at stepped
    · rename_i missing
      cases stepped
      exact .unknownHelper missing
    · rename_i helper known
      split at stepped
      · rename_i failed
        cases stepped
        exact .helper known failed
      · cases stepped
  | exit => cases stepped
  | unknown raw =>
    cases stepped
    exact .trap .unknown

end EbpfLab.Interp
