import EbpfLab.Ssa.Built
import EbpfLab.Ssa.Homes
import EbpfLab.Ssa.Lower

/-!
# What lowering starts from

Collecting phi moves leaves the allocation and the layout alone, and what is emitted stands in live
blocks.
-/

namespace EbpfLab.Ssa
open Isa FlowGraph Library

variable {petgraph : Petgraph}
  {prog : SsaProgram} {lower lower' : Lower} {block pos : Nat} {insn : SsaInsn} {v : SsaValue}
  {home : Reg}

/-- The program, its allocation and its layout. -/
structure Prepared (petgraph : Petgraph) (prog : SsaProgram) (lower : Lower) : Prop where
  prog_eq : lower.prog = prog
  allocated : allocate prog (.compute petgraph prog) = .ok lower.homes
  ranges : lower.ranges = (Liveness.compute petgraph prog).ranges
  live : lower.live = Lower.liveBlocks prog
  layout : lower.layout = layoutOf prog (Lower.liveBlocks prog)

namespace Prepared

theorem pushTramp {pred : Nat} {placed : PlacedMove} (prepared : Prepared petgraph prog lower) :
    Prepared petgraph prog (lower.pushTramp pred block placed) := by
  unfold Lower.pushTramp
  split <;> exact ⟨prepared.prog_eq, prepared.allocated, prepared.ranges, prepared.live, prepared.layout⟩

theorem placeInput {input : Pred × SsaValue} (prepared : Prepared petgraph prog lower)
    (placed : lower.placeInput block home input = .ok lower') : Prepared petgraph prog lower' := by
  unfold Lower.placeInput at placed
  split at placed
  · obtain ⟨src, _, placed⟩ := bind_eq_ok.mp placed
    split at placed
    · cases placed
      exact prepared
    · cases placed
  · split at placed
    · cases placed
      exact prepared
    · obtain ⟨src, _, placed⟩ := bind_eq_ok.mp placed
      dsimp only at placed
      split at placed
      · cases placed
        exact prepared.pushTramp
      · cases placed
        exact ⟨prepared.prog_eq, prepared.allocated, prepared.ranges, prepared.live, prepared.layout⟩

theorem placePhi (prepared : Prepared petgraph prog lower) (placed : lower.placePhi block insn = .ok lower') :
    Prepared petgraph prog lower' := by
  cases insn with
  | phi dst inputs =>
    unfold Lower.placePhi at placed
    dsimp only at placed
    split at placed
    · cases placed
      exact prepared
    · exact foldlM_keeps (fun _ _ _ _ good step => good.placeInput step) prepared placed
  | _ =>
    cases placed
    exact prepared

end Prepared

theorem prepare_prepared (ok : prepare petgraph prog = .ok lower) : Prepared petgraph prog lower := by
  obtain ⟨homes, allocated, collected⟩ := bind_eq_ok.mp ok
  have start : Prepared petgraph prog (.new prog homes (.compute petgraph prog)) := ⟨rfl, allocated, rfl, rfl, rfl⟩
  exact foldlM_keeps
    (fun _ _ _ _ good step => foldlM_keeps (fun _ _ _ _ good step => good.placePhi step) good step)
    start collected

namespace Prepared

variable (prepared : Prepared petgraph prog lower)
include prepared

/-- What is emitted stands in a reached block. -/
theorem reaches (emitted : lower.isLive block = true) : prog.Reaches block := by
  unfold Lower.isLive at emitted
  rw [prepared.live, Lower.liveBlocks, List.getD_eq_getElem?_getD, List.getElem?_map] at emitted
  cases found : (List.range prog.blocks.length)[block]? with
  | none =>
    rw [found] at emitted
    cases emitted
  | some k =>
    obtain ⟨_, same⟩ := List.getElem?_eq_some_iff.mp found
    rw [List.getElem_range] at same
    subst same
    rw [found] at emitted
    exact reached_reaches (by simpa using emitted)

/-- The straight-line instructions of an emitted block are those of its places. -/
theorem place (regular : Regular prog) (emitted : lower.isLive block = true)
    (there : (insn, pos) ∈ lower.straightLine block) :
    ∃ i, ((block, i), insn) ∈ prog.liveSites ∧ pos = prog.flat (block, i) := by
  have live := regular.live block (prepared.reaches emitted)
  unfold Lower.straightLine at there
  rw [prepared.prog_eq] at there
  obtain ⟨low, found⟩ := List.mem_zipIdx_iff_le_and_getElem?_sub.mp there
  refine ⟨pos - prog.blockStart block, mem_liveSites.mpr ⟨live, ?_⟩, ?_⟩
  · obtain ⟨rest, split⟩ := List.takeWhile_prefix (l := prog.insnsOf block) fun insn => !insn.isControl
    obtain ⟨inside, _⟩ := List.getElem?_eq_some_iff.mp found
    rw [← split, List.getElem?_append_left inside]
    exact found
  · have same : pos = prog.blockStart block + (pos - prog.blockStart block) := by omega
    exact same

end Prepared

/-- A version an instruction reads is a recorded use. -/
theorem mem_regUses {site : Site} (there : (site, insn) ∈ prog.liveSites) (plain : insn.isPhi = false)
    (read : v ∈ insn.uses) : (prog.flat site, v) ∈ prog.regUses := by
  refine List.mem_flatMap.mpr ⟨(site, insn), there, ?_⟩
  cases insn with
  | phi => cases plain
  | _ => exact List.mem_map.mpr ⟨v, read, rfl⟩

end EbpfLab.Ssa
