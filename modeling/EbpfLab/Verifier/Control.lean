import EbpfLab.Verifier.Annotation
import EbpfLab.Verifier.Checks
import EbpfLab.Vm.Helpers

/-!
# Control faults

Besides memory faults, an accepted program can end in a fault in two ways only: a step that falls
through the last instruction, and a call the verifier knows but the interpreter does not.
-/

namespace EbpfLab.Verifier
open Isa FlowGraph Interp Library

variable {petgraph : Petgraph} {insns : List Insn} {cfg : Cfg} {config : VerifyConfig} {targets : List (Option Nat)}
  {vm vm' : Vm} {insn : Insn}

/-- The faults that tell of lost control. -/
inductive ControlFault : VmError → Prop where
  | jumpOutOfBounds (pc : Nat) (target : Int) : ControlFault (.jumpOutOfBounds pc target)
  | illegalInstruction (pc : Nat) : ControlFault (.illegalInstruction pc)
  | invalidEndWidth (pc : Nat) (width : Int64) : ControlFault (.invalidEndWidth pc width)
  | unknownHelper (func : UInt32) : ControlFault (.unknownHelper func)

/-- Control passes to the next instruction. -/
def PassesOn (regs : Regs) (insn : Insn) : Prop :=
  flowKind regs insn = .fallthrough ∨ flowKind regs insn = .branchFalse

theorem checkEnd_ok {op : AluOp} {src : Operand} {pc : Nat} (passed : checkEnd op src pc = .ok ()) :
    aluAdmitted op src := by
  rintro endian rfl
  cases src with
  | reg r => cases passed
  | imm w =>
    simp only [checkEnd] at passed
    split at passed
    · simpa using ‹w = 16 ∨ w = 32 ∨ w = 64›
    · cases passed

/-- A checked instruction of a built program is none the loader traps. -/
theorem not_refused {pc : Nat} {s s' : VerifierState} (built : Built insns cfg targets)
    (fetched : insns[pc]? = some insn) (checked : checkAndTransfer pc insn s = .ok s') :
    ¬ Refused insns pc insn := by
  intro refused
  cases refused with
  | alu bad =>
    cases checkAndTransfer_ok checked with
    | alu width_ok _ => exact bad (checkEnd_ok width_ok)
  | jump bad =>
    obtain ⟨j, _, lands⟩ := built.resolved.jump fetched
    exact bad j lands
  | unknown => cases checked

/-- Where a step leads: on to the next instruction, or to the target of a jump. -/
theorem advance_pc (step : Advance insns vm insn vm') :
    (PassesOn vm.regs insn ∧ vm'.pc = vm.pc + 1) ∨
      (¬ PassesOn vm.regs insn ∧ vm'.pc < insns.length) := by
  cases step with
  | alu _ | load _ | store _ | loadImm64 | call _ _ => exact Or.inl ⟨Or.inl rfl, rfl⟩
  | @jump width op dst src offset target lands =>
    have inside := lands.target_lt
    by_cases always : op = .always
    · subst always
      right
      simpa [PassesOn, flowKind, Vm.branch] using inside
    · have kind : flowKind vm.regs (.jump width op dst src offset) =
          if jumpTaken op (vm.regs dst) (vm.regs.operand src) width then .branchTrue
          else .branchFalse := by
        cases op <;> first | rfl | exact absurd rfl always
      by_cases taken : jumpTaken op (vm.regs dst) (vm.regs.operand src) width = true
      · right
        simpa [PassesOn, kind, taken, Vm.branch] using inside
      · left
        simp [PassesOn, kind, taken, Vm.branch]

/-- What keeps a run under control. -/
structure Controlled (insns : List Insn) (vm : Vm) : Prop where
  inside : ∀ k u u' insn, vm.after k = some u → insns[u.pc]? = some insn → u.step = (u', .cont) →
    PassesOn u.regs insn → u.pc + 1 < insns.length
  known : ∀ k u func, vm.after k = some u → insns[u.pc]? = some (.call func) →
    func = 1 ∨ func = 2 ∨ func = 3

theorem Controlled.pc_lt (controlled : Controlled insns vm) (built : Built insns cfg targets)
    (loaded : vm.Loaded insns) (starts : vm.pc = 0) {k : Nat} {u : Vm}
    (reached : vm.after k = some u) : u.pc < insns.length := by
  cases k with
  | zero =>
    cases reached
    exact starts ▸ List.length_pos_of_ne_nil built.nonempty
  | succ k =>
    obtain ⟨before, reached', stepped⟩ := Vm.after_succ_eq_some.mp reached
    have frame := Vm.after_frame loaded built.small reached'
    obtain ⟨insn, fetched, step⟩ := (step_cont_iff frame.1 built.small).mp stepped
    rcases advance_pc step with ⟨passes, next⟩ | ⟨_, inside⟩
    · exact next ▸ controlled.inside k before u insn reached' fetched stepped passes
    · exact inside

/-- The faults of a step inside an accepted program. -/
theorem fault_cases {states : Nat → Option VerifierState} {s : VerifierState} {e : VmError}
    (built : Built insns cfg targets) (fixed : PostFixpoint insns cfg config states)
    (annotated : At insns cfg states vm.pc s) (helpers : vm.helpers = .withMapHelpers)
    (fetched : insns[vm.pc]? = some insn) (fault : Fault insns vm insn e) :
    (∃ m, e = .memory m) ∨ ∃ func, insn = .call func ∧ vm.helpers func = none := by
  obtain ⟨s', checked⟩ := annotated.checked fixed fetched
  cases fault with
  | trap refused => exact absurd refused (not_refused built fetched checked)
  | load _ | store _ => exact Or.inl ⟨_, rfl⟩
  | unknownHelper missing => exact Or.inr ⟨_, rfl, missing⟩
  | helper known failed =>
    obtain ⟨pointers, mapHelper⟩ := withMapHelpers_eq_some (helpers ▸ known)
    obtain ⟨_, _, _, _, _, m, _, same⟩ := mapHelper.error failed
    exact Or.inl ⟨m, same⟩

/-- The runs of an accepted program keep control exactly when no step passes on from the last
instruction and every executed call is one the interpreter has. -/
theorem control_safe_iff (documented : petgraph.Documented) (accepted : buildCfg petgraph insns = .ok cfg)
    (accepts : Accepts petgraph insns cfg config) (mapped : config.maps ≠ []) (setup : Setup config) :
    ((∀ budget e, ((setup.vm insns).run budget).2 = .error e → ¬ ControlFault e) ∧
      ∀ k u, (setup.vm insns).after k = some u → u.pc < insns.length) ↔
    Controlled insns (setup.vm insns) := by
  obtain ⟨targets, ordered⟩ := buildCfg_ordered documented accepted
  have built := ordered.toBuilt
  obtain ⟨states, fixed⟩ := accepts.postFixpoint ordered
  have loaded := setup.loaded insns
  have helpers : (setup.vm insns).helpers = .withMapHelpers := by
    rw [setup.helpers_vm]
    exact setup.registered.resolve_right fun bare => mapped bare.1
  constructor
  · rintro ⟨quiet, inside⟩
    refine ⟨?_, ?_⟩
    · intro k u u' insn reached fetched stepped passes
      obtain ⟨insn', fetched', step⟩ :=
        (step_cont_iff (Vm.after_frame loaded built.small reached).1 built.small).mp stepped
      rw [fetched, Option.some.injEq] at fetched'
      subst fetched'
      have next := inside (k + 1) u' (Vm.after_succ_eq_some.mpr ⟨u, reached, stepped⟩)
      rcases advance_pc step with ⟨_, advanced⟩ | ⟨jumps, _⟩
      · omega
      · exact absurd passes jumps
    · intro k u func reached fetched
      have frame := Vm.after_frame loaded built.small reached
      by_contra unknown
      have missing : u.helpers func = none := by
        rw [frame.2, helpers]
        simp only [not_or] at unknown
        simp [HelperRegistry.withMapHelpers, HelperRegistry.insert, HelperRegistry.empty, unknown]
      have failed : u.step = (u, .error (.unknownHelper func)) := by
        rw [step_eq_execute frame.1 fetched]
        simp [lowerOne, Vm.execute, Vm.dispatchHelper, missing]
      have ended := Vm.runFrom_of_step (k + 1) reached failed
      exact quiet (k + 1) _ (congrArg Prod.snd ended) (.unknownHelper func)
  · intro controlled
    have inside := fun k u => @Controlled.pc_lt insns cfg targets _ controlled built loaded
      (setup.pc_vm insns) k u
    refine ⟨?_, inside⟩
    intro budget e failed fault
    have ended : (setup.vm insns).runFrom budget budget =
        (((setup.vm insns).run budget).1, .error e) := Prod.ext rfl failed
    rcases Vm.runFrom_error ended with exhausted | ⟨k, u, reached, stepped⟩
    · subst exhausted
      cases fault
    · have frame := Vm.after_frame loaded built.small reached
      obtain ⟨insn, fetched⟩ : ∃ insn, insns[u.pc]? = some insn :=
        ⟨_, List.getElem?_eq_getElem (inside k u reached)⟩
      obtain ⟨s, annotated, _⟩ := annotated_run fixed built loaded (setup.pc_vm insns)
        (fun _ _ _ => True) trivial (fun _ _ _ _ _ _ => trivial)
        (fun _ _ _ _ _ _ _ _ _ _ _ _ => trivial) reached (inside k u reached)
      rcases fault_cases built fixed annotated (frame.2.trans helpers) fetched
        (step_error frame.1 built.small fetched stepped) with ⟨m, memory⟩ | ⟨func, call, missing⟩
      · subst memory
        cases fault
      · subst call
        rw [frame.2, helpers] at missing
        rcases controlled.known k u func reached fetched with rfl | rfl | rfl <;> cases missing

/-- One hash map behind descriptor 1. -/
def oneMapDesc : MapDesc :=
  { fd := 1, mapType := .hash, keySize := 4, valueSize := 8, maxEntries := 1, initial := .empty, name := none }

def oneMap : VerifyConfig := { VerifyConfig.default with maps := [oneMapDesc] }

def Setup.oneMap : Setup oneMap where
  stores := [none, some ⟨oneMapDesc, .hash []⟩]
  built := rfl
  helpers := .withMapHelpers
  registered := Or.inl rfl
  packet := none
  packetLen := Setup.absent
  data := none
  dataLen := Setup.absent

theorem control_safe_iff_counter :
    ((∀ budget e, ((Setup.oneMap.vm counter).run budget).2 = .error e → ¬ ControlFault e) ∧
      ∀ k u, (Setup.oneMap.vm counter).after k = some u → u.pc < counter.length) ↔
    Controlled counter (Setup.oneMap.vm counter) := by
  have accepted : buildCfg searching counter = .ok counterCfg := by decide +kernel
  have accepts : Accepts searching counter counterCfg oneMap := ⟨20, ⟨4⟩, by decide +kernel⟩
  exact control_safe_iff searching_documented accepted accepts (by decide) Setup.oneMap

/-- Ends without an exit: `r0 = 1`. -/
def endless : List Insn := [.alu .b64 .mov 0 (.imm 1)]

def endlessCfg : Cfg :=
  { blocks := [⟨0, 1⟩], edges := [], entry := 0, blockOfPc := [0], slotOf := [0], rpo := [0] }

/-- The verifier takes a block without successors for an exit block. -/
theorem endless_runs_off :
    buildCfg searching endless = .ok endlessCfg ∧ Accepts searching endless endlessCfg oneMap ∧
      ∃ budget e, ((Setup.oneMap.vm endless).run budget).2 = .error e ∧ ControlFault e := by
  refine ⟨by decide +kernel, ⟨20, ⟨1⟩, by decide +kernel⟩, 2, .jumpOutOfBounds 1 1, ?_, ?_⟩
  · rfl
  · exact .jumpOutOfBounds 1 1

end EbpfLab.Verifier
