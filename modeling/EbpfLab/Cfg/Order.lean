import EbpfLab.Cfg.Blocks

/-!
# Reverse postorder

The depth-first visit from the entry, reversed, lists the blocks that are reached. The worklist is
seeded with it, and the SSA builder fills the blocks in its order.
-/

namespace EbpfLab.FlowGraph
open Isa

variable {petgraph : Petgraph} {insns : List Insn} {cfg : Cfg} {targets : List (Option Nat)}

/-- Blocks reached from the entry along edges. -/
def Cfg.Reaches (cfg : Cfg) : Nat → Prop := Library.Reached (fun v s => s ∈ neighbors cfg.edges v) cfg.entry

namespace Built

variable (built : Built insns cfg targets)
include built

theorem blocks_pos : 0 < cfg.blocks.length := by
  have tiles := built.tiles
  have some := List.length_pos_of_ne_nil built.nonempty
  cases blocks : cfg.blocks with
  | nil =>
    rw [blocks] at tiles
    have : 0 = insns.length := tiles
    omega
  | cons b rest => simp

theorem entry_inside : cfg.entry < cfg.blocks.length := built.entry_eq ▸ built.blocks_pos

theorem edge_inside {e : Edge} (present : e ∈ cfg.edges) :
    e.source < cfg.blocks.length ∧ e.target < cfg.blocks.length := by
  obtain ⟨_, _, source, target, _⟩ := built.edge_iff.mp present
  exact ⟨(List.getElem?_eq_some_iff.mp source).1, (List.getElem?_eq_some_iff.mp target).1⟩

theorem neighbors_inside {v s : Nat} (next : s ∈ neighbors cfg.edges v) : s < cfg.blocks.length := by
  obtain ⟨e, present, _, rfl⟩ := mem_neighbors.mp next
  exact (built.edge_inside present).2

end Built

/-- A successful build, with the blocks that are reached in its reverse postorder, each once. -/
structure Ordered (insns : List Insn) (cfg : Cfg) (targets : List (Option Nat)) : Prop
    extends Built insns cfg targets where
  mem_rpo : ∀ v, v ∈ cfg.rpo ↔ cfg.Reaches v
  rpo_nodup : cfg.rpo.Nodup

theorem buildCfg_rpo (accepted : buildCfg petgraph insns = .ok cfg) :
    cfg.rpo = (petgraph.dfsPostOrder cfg.blocks.length cfg.edges cfg.entry).reverse := by
  unfold buildCfg at accepted
  split at accepted
  · cases accepted
  split at accepted
  · cases accepted
  simp only [slotMaps] at accepted
  split at accepted
  · cases accepted
  · cases accepted
    dsimp only

theorem buildCfg_ordered (documented : petgraph.Documented) (accepted : buildCfg petgraph insns = .ok cfg) :
    ∃ targets, Ordered insns cfg targets := by
  obtain ⟨targets, built⟩ := buildCfg_built accepted
  obtain ⟨once, visited⟩ :=
    documented.visited cfg.blocks.length cfg.edges cfg.entry (fun _ => built.edge_inside) built.entry_inside
  rw [joins_eq] at visited
  refine ⟨targets, { built with mem_rpo := fun v => ?_, rpo_nodup := ?_ }⟩
  · rw [buildCfg_rpo accepted, List.mem_reverse]
    exact visited v
  · rw [buildCfg_rpo accepted]
    exact List.nodup_reverse.mpr once

namespace Ordered

variable (ordered : Ordered insns cfg targets)
include ordered

/-- The entry block is in the reverse postorder. -/
theorem entry_mem_rpo : cfg.entry ∈ cfg.rpo := (ordered.mem_rpo _).mpr .root

theorem rpo_inside {v : Nat} (listed : v ∈ cfg.rpo) : v < cfg.blocks.length := by
  rcases (ordered.mem_rpo v).mp listed with _ | ⟨_, next⟩
  · exact ordered.entry_inside
  · exact ordered.neighbors_inside next

end Ordered

end EbpfLab.FlowGraph
