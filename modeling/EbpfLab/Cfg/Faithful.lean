import EbpfLab.Cfg.Blocks
import EbpfLab.Cfg.Searching
import EbpfLab.Vm.Flow

/-!
# The graph covers the interpreter

Every continuing step of a loaded machine stays inside its block or follows an edge of the kind that
names what happened.
-/

namespace EbpfLab.FlowGraph
open Isa Interp

variable {petgraph : Petgraph} {insns : List Insn} {cfg : Cfg} {targets : List (Option Nat)} {vm vm' : Vm} {insn : Insn}

/-- How control leaves an instruction in a machine with these registers. -/
def flowKind (regs : Regs) : Insn → EdgeKind
  | .jump _ .always _ _ _ => .unconditional
  | .jump width op dst src _ =>
    if jumpTaken op (regs dst) (regs.operand src) width then .branchTrue else .branchFalse
  | _ => .fallthrough

theorem advance_succession (fetched : insns[vm.pc]? = some insn) (step : Advance insns vm insn vm')
    (inside : vm'.pc < insns.length) : Succession insns vm.pc (flowKind vm.regs insn) vm'.pc := by
  cases step with
  | alu _ | load _ | store _ | loadImm64 | call _ _ => exact .fallthrough fetched rfl inside
  | @jump width op dst src offset target jump =>
    by_cases always : op = .always
    · subst always
      simpa [flowKind, Vm.branch] using Succession.unconditional fetched jump
    · have kind : flowKind vm.regs (.jump width op dst src offset) =
          if jumpTaken op (vm.regs dst) (vm.regs.operand src) width then .branchTrue
          else .branchFalse := by
        cases op <;> first | rfl | exact absurd rfl always
      rw [kind]
      by_cases taken : jumpTaken op (vm.regs dst) (vm.regs.operand src) width = true
      · simpa [Vm.branch, taken] using Succession.branchTrue fetched always jump
      · have more : vm.pc + 1 < insns.length := by simpa [Vm.branch, taken] using inside
        simpa [Vm.branch, taken] using Succession.branchFalse fetched always more

theorem Built.follows (built : Built insns cfg targets) (fetched : insns[vm.pc]? = some insn)
    (step : Advance insns vm insn vm') (inside : vm'.pc < insns.length) :
    (∃ b ∈ cfg.blocks, b.start ≤ vm.pc ∧ vm'.pc = vm.pc + 1 ∧ vm'.pc < b.stop) ∨
      ∃ e ∈ cfg.edges, ∃ b c, cfg.blocks[e.source]? = some b ∧ cfg.blocks[e.target]? = some c ∧
        b.start ≤ vm.pc ∧ vm.pc + 1 = b.stop ∧ c.start = vm'.pc ∧
        e.kind = flowKind vm.regs insn := by
  have next := advance_succession fetched step inside
  obtain ⟨b, at_source, lower, upper⟩ := built.block_at (List.getElem?_eq_some_iff.mp fetched).1
  have present := List.mem_of_getElem? at_source
  by_cases last : vm.pc + 1 = b.stop
  · right
    rw [show vm.pc = b.stop - 1 by omega] at next
    obtain ⟨c, at_target, start⟩ := built.successor_start present next
    refine ⟨⟨_, _, flowKind vm.regs insn⟩, built.edge_iff.mpr ⟨b, c, at_source, at_target, ?_⟩,
      b, c, at_source, at_target, lower, last, start, rfl⟩
    rwa [start]
  · left
    have plain : endsBlock insn = false := by
      by_contra ends
      exact last (built.ends_last present lower upper fetched (by simpa using ends))
    obtain ⟨_, advanced, _⟩ := (succession_plain fetched plain).mp next
    exact ⟨b, present, lower, advanced, by omega⟩

/-- `build_cfg` is faithful: its blocks tile the program and are cut after jumps and exits, each step
that goes on stays in its block or follows a matching edge, and no edge is spurious. -/
theorem buildCfg_faithful (accepted : buildCfg petgraph insns = .ok cfg) :
    Tiles 0 cfg.blocks insns.length ∧
      (∀ b ∈ cfg.blocks, ∀ pc insn, b.start ≤ pc → pc < b.stop → insns[pc]? = some insn →
        endsBlock insn = true → pc + 1 = b.stop) ∧
      (∀ vm vm' : Vm, vm.Loaded insns → vm.step = (vm', .cont) → vm'.pc < insns.length →
        (∃ b ∈ cfg.blocks, b.start ≤ vm.pc ∧ vm'.pc = vm.pc + 1 ∧ vm'.pc < b.stop) ∨
        ∃ e ∈ cfg.edges, ∃ b c insn, cfg.blocks[e.source]? = some b ∧
          cfg.blocks[e.target]? = some c ∧ insns[vm.pc]? = some insn ∧
          b.start ≤ vm.pc ∧ vm.pc + 1 = b.stop ∧ c.start = vm'.pc ∧
          e.kind = flowKind vm.regs insn) ∧
      (∀ e ∈ cfg.edges, ∃ b c, cfg.blocks[e.source]? = some b ∧ cfg.blocks[e.target]? = some c ∧
        Succession insns (b.stop - 1) e.kind c.start) := by
  obtain ⟨targets, built⟩ := buildCfg_built accepted
  refine ⟨built.tiles, ?_, ?_, fun e present => built.edge_iff.mp present⟩
  · intro b present pc insn lower upper fetched ends
    exact built.ends_last present lower upper fetched ends
  · intro vm vm' loaded stepped inside
    obtain ⟨insn, fetched, step⟩ := (step_cont_iff loaded built.small).mp stepped
    rcases built.follows fetched step inside with within |
      ⟨e, edge, b, c, at_source, at_target, lower, last, start, kind⟩
    · exact Or.inl within
    · exact Or.inr ⟨e, edge, b, c, insn, at_source, at_target, fetched, lower, last, start, kind⟩

/-- A loop over a wide load: `r1 = 2; do r0 = 7; r1 -= 1 while r1 != 0; exit`. -/
def countdown : List Insn :=
  [.alu .b64 .mov 1 (.imm 2), .loadImm64 0 7, .alu .b64 .sub 1 (.imm 1),
    .jump .b64 .ne 1 (.imm 0) (-4), .exit]

def countdownCfg : Cfg :=
  { blocks := [⟨0, 1⟩, ⟨1, 4⟩, ⟨4, 5⟩]
    edges := [⟨0, 1, .fallthrough⟩, ⟨1, 1, .branchTrue⟩, ⟨1, 2, .branchFalse⟩]
    entry := 0, blockOfPc := [0, 1, 1, 1, 2], slotOf := [0, 1, 3, 4, 5], rpo := [0, 1, 2] }

theorem buildCfg_faithful_countdown :
    buildCfg searching countdown = .ok countdownCfg ∧ Tiles 0 countdownCfg.blocks countdown.length ∧
      ∀ e ∈ countdownCfg.edges, ∃ b c, countdownCfg.blocks[e.source]? = some b ∧
        countdownCfg.blocks[e.target]? = some c ∧ Succession countdown (b.stop - 1) e.kind c.start :=
  have accepted : buildCfg searching countdown = .ok countdownCfg := by decide +kernel
  have faithful := buildCfg_faithful accepted
  ⟨accepted, faithful.1, faithful.2.2.2⟩

end EbpfLab.FlowGraph
