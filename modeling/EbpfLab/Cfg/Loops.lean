import EbpfLab.Cfg.Build

/-!
# Cycles and dominance

What the verifier asks petgraph of a control-flow graph: whether a cycle exists, and which nodes
dominate a reachable node.
-/

namespace EbpfLab.FlowGraph
open Library Relation

/-- Every turn of a search marks a node or drops an entry pushed for an edge. -/
def Cfg.searchFuel (cfg : Cfg) : Nat := 2 * (cfg.blocks.length + cfg.edges.length) + 2

/-- `has_back_edge`. -/
def hasBackEdge (petgraph : Petgraph) (cfg : Cfg) : Bool := petgraph.isCyclicDirected cfg.blocks.length cfg.edges

/-- `a` is among `dominators(b)`. -/
def dominates (petgraph : Petgraph) (cfg : Cfg) (a b : Nat) : Bool :=
  (petgraph.dominators cfg.blocks.length cfg.edges cfg.entry b).any fun found => found.contains a

variable {petgraph : Petgraph} {cfg : Cfg} {a b : Nat}

/-- An edge leads from `a` to `b`. -/
def Cfg.Joins (cfg : Cfg) (a b : Nat) : Prop := ∃ e ∈ cfg.edges, e.source = a ∧ e.target = b

/-- `dominates` answers for the paths from the entry. -/
theorem dominates_iff (documented : petgraph.Documented) :
    dominates petgraph cfg a b = true ↔ Reached cfg.Joins cfg.entry b ∧ Dominates cfg.Joins cfg.entry a b := by
  have unreached := documented.unreached cfg.blocks.length cfg.edges cfg.entry b
  have dominators := documented.dominators cfg.blocks.length cfg.edges cfg.entry b
  unfold dominates
  cases answer : petgraph.dominators cfg.blocks.length cfg.edges cfg.entry b with
  | none => exact iff_of_false (by simp) fun both => unreached.mp answer both.1
  | some found =>
    have reached : Reached cfg.Joins cfg.entry b := by
      by_contra away
      rw [unreached.mpr away] at answer
      cases answer
    rw [Option.any_some, List.contains_iff_mem]
    exact (dominators found answer a).trans (and_iff_right reached).symm

/-- Without a back edge in the sense of `has_back_edge` the graph has no cycle. -/
theorem acyclic_of_hasBackEdge (documented : petgraph.Documented)
    (inside : ∀ e ∈ cfg.edges, e.source < cfg.blocks.length) (none : hasBackEdge petgraph cfg = false) (v : Nat) :
    ¬ TransGen cfg.Joins v v := by
  intro cycle
  obtain ⟨s, ⟨e, present, source, _⟩, _⟩ := TransGen.head'_iff.mp cycle
  have some := (documented.cyclic cfg.blocks.length cfg.edges).mpr ⟨v, source ▸ inside e present, cycle⟩
  rw [hasBackEdge, some] at none
  cases none

end EbpfLab.FlowGraph
