import Mathlib.Data.List.Dedup
import EbpfLab.Cfg.Petgraph
import EbpfLab.Library.PostOrder
import EbpfLab.Library.Search

/-!
# Searching a graph

Algorithms that search: what petgraph documents holds of them, since the fuel of a search covers every
edge once.
-/

namespace EbpfLab.FlowGraph
open Library Relation

variable {edges : List Edge} {nodes root a b x : Nat}

/-- The nodes with an outgoing edge. -/
def sources (edges : List Edge) : Finset Nat := (edges.map Edge.source).toFinset

theorem neighbors_leaf (v : Nat) (leaf : v ∉ sources edges) : neighbors edges v = [] := by
  apply List.eq_nil_iff_forall_not_mem.mpr
  intro s edge
  obtain ⟨e, present, source, _⟩ := mem_neighbors.mp edge
  exact leaf (List.mem_toFinset.mpr (List.mem_map.mpr ⟨e, present, source⟩))

theorem sum_outDegree_le (edges : List Edge) (nodes : Finset Nat) :
    ∑ v ∈ nodes, (neighbors edges v).length ≤ edges.length := by
  induction edges with
  | nil => simp [neighbors]
  | cons e edges ih =>
    have split : ∀ v, (neighbors (e :: edges) v).length =
        (if e.source = v then 1 else 0) + (neighbors edges v).length := by
      intro v
      by_cases here : e.source = v <;> simp [neighbors, here, Nat.add_comm]
    have once : ∑ v ∈ nodes, (if e.source = v then 1 else 0) ≤ 1 := by
      rw [Finset.sum_ite_eq]
      split <;> omega
    simp only [split, Finset.sum_add_distrib, List.length_cons]
    omega

/-- Every turn of a search marks a node or drops an entry pushed for an edge. -/
def searchFuel (edges : List Edge) : Nat := 2 * edges.length + 2

theorem mem_search {stack seen : List Nat} (short : stack.length ≤ edges.length + 1) :
    x ∈ explore (neighbors edges) (searchFuel edges) stack seen ↔
      x ∈ seen ∨ ∃ s ∈ stack, s ∉ seen ∧ ReflTransGen (Clear (neighbors edges) seen) s x := by
  have degree := sum_outDegree_le edges (sources edges \ seen.toFinset)
  have work : searchWork (neighbors edges) (sources edges) stack seen ≤ stack.length + edges.length :=
    Nat.add_le_add_left degree _
  exact mem_explore_iff neighbors_leaf (by rw [searchFuel]; omega)

theorem clear_nil : Clear (neighbors edges) [] = Joins edges := by
  funext a b
  simp [Clear, mem_neighbors]

/-- Nodes reachable from `node` along edges, `node` included. -/
def reachableFrom (edges : List Edge) (node : Nat) : List Nat :=
  explore (neighbors edges) (searchFuel edges) [node] []

theorem mem_reachableFrom : b ∈ reachableFrom edges a ↔ ReflTransGen (Joins edges) a b := by
  rw [reachableFrom, mem_search (by simp), clear_nil]
  simp

/-- `node` is reached from the root without passing `a`. -/
def avoids (edges : List Edge) (root a node : Nat) : Bool :=
  a != node && (explore (neighbors edges) (searchFuel edges) [root] [a]).contains node

theorem avoids_iff : avoids edges root a b = true ↔ Avoiding (Joins edges) root a b := by
  have clear : Clear (neighbors edges) [a] = fun p b => Joins edges p b ∧ b ≠ a := by
    funext p b
    simp [Clear, mem_neighbors]
  rw [avoids, Bool.and_eq_true, List.contains_iff_mem, mem_search (by simp), avoiding_iff_chain, clear]
  by_cases same : a = b
  · subst same
    simp only [bne_self_eq_false, Bool.false_eq_true, false_and, false_iff]
    exact fun path => (avoiding_iff_chain.mpr path).ne rfl
  · simp [same, Ne.symm same]

/-- A `Petgraph` that searches. -/
def searching : Petgraph where
  isCyclicDirected nodes edges :=
    (List.range nodes).any fun node =>
      (explore (neighbors edges) (searchFuel edges) (neighbors edges node) []).contains node
  dominators _ edges root node :=
    let reached := reachableFrom edges root
    if node ∈ reached then some (reached.filter fun a => !avoids edges root a node) else none
  dfsPostOrder nodes edges root := (dfsPostOrder (neighbors edges) (nodes + edges.length + 2) [root] [] []).reverse
  tarjanScc nodes edges :=
    ((List.range nodes).map fun a => (List.range nodes).filter fun b =>
      decide (b ∈ reachableFrom edges a) && decide (a ∈ reachableFrom edges b)).dedup

theorem searching_cyclic : searching.isCyclicDirected nodes edges = true ↔ ∃ v < nodes, TransGen (Joins edges) v v := by
  have short : ∀ v, (neighbors edges v).length ≤ edges.length + 1 := by
    intro v
    have degree := sum_outDegree_le edges {v}
    simp only [Finset.sum_singleton] at degree
    exact Nat.le_succ_of_le degree
  simp only [searching, List.any_eq_true, List.mem_range, List.contains_iff_mem]
  refine exists_congr fun v => and_congr_right fun _ => ?_
  rw [mem_search (short v), clear_nil, TransGen.head'_iff]
  simp [mem_neighbors]

theorem searching_visited (inside : ∀ e ∈ edges, e.source < nodes ∧ e.target < nodes) (start : root < nodes) :
    (searching.dfsPostOrder nodes edges root).Nodup ∧
      ∀ v, v ∈ searching.dfsPostOrder nodes edges root ↔ Reached (Joins edges) root v := by
  have bounded : ∀ v < nodes, ∀ s ∈ neighbors edges v, s < nodes := by
    intro v _ s next
    obtain ⟨e, present, _, rfl⟩ := mem_neighbors.mp next
    exact (inside e present).2
  have enough : dfsWork (neighbors edges) nodes [root] [] ≤ nodes + edges.length + 2 := by
    have degree := sum_outDegree_le edges (Finset.range nodes)
    simp only [dfsWork, List.toFinset_nil, Finset.sdiff_empty, Finset.sum_add_distrib, ← Finset.card_eq_sum_ones,
      Finset.card_range, List.length_singleton]
    omega
  refine ⟨List.nodup_reverse.mpr (dfsPostOrder_nodup _ _ _ _ List.nodup_nil), fun v => ?_⟩
  rw [joins_eq]
  exact List.mem_reverse.trans (mem_dfsPostOrder_iff bounded start enough)

theorem mem_component {scc : List Nat} (present : scc ∈ searching.tarjanScc nodes edges) :
    scc.Nodup ∧ ∀ a ∈ scc, ∀ b,
      b ∈ scc ↔ b < nodes ∧ ReflTransGen (Joins edges) a b ∧ ReflTransGen (Joins edges) b a := by
  simp only [searching, List.mem_dedup, List.mem_map] at present
  obtain ⟨c, _, rfl⟩ := present
  refine ⟨List.nodup_range.filter _, fun a among b => ?_⟩
  simp only [List.mem_filter, List.mem_range, Bool.and_eq_true, decide_eq_true_eq, mem_reachableFrom] at among ⊢
  obtain ⟨_, out, back⟩ := among
  exact and_congr_right fun _ =>
    ⟨fun both => ⟨back.trans both.1, both.2.trans out⟩, fun both => ⟨out.trans both.1, both.2.trans back⟩⟩

theorem searching_documented : searching.Documented where
  cyclic _ _ := searching_cyclic
  unreached nodes edges root b := by
    simp only [searching, reached_iff_chain, ← mem_reachableFrom]
    split <;> simp_all
  dominators nodes edges root b found answer a := by
    simp only [searching] at answer
    split at answer
    · rename_i reached
      cases answer
      rw [mem_reachableFrom, ← reached_iff_chain] at reached
      rw [List.mem_filter, mem_reachableFrom, ← reached_iff_chain, Bool.not_eq_true', ← Bool.not_eq_true, avoids_iff]
      exact and_iff_right_of_imp fun dominated => (reached.cases_avoiding a).resolve_left dominated
    · cases answer
  visited _ _ _ := searching_visited
  component _ _ _ := mem_component
  covered nodes edges v inside := by
    refine ⟨_, List.mem_dedup.mpr (List.mem_map.mpr ⟨v, List.mem_range.mpr inside, rfl⟩), ?_⟩
    simp [inside, mem_reachableFrom, ReflTransGen.refl]

end EbpfLab.FlowGraph
