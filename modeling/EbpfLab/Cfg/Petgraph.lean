import Mathlib.Logic.Relation
import EbpfLab.Library.Cycles

/-!
# Graphs

The edges of petgraph's `DiGraph`, and the algorithms of petgraph that are run on it. Their code is not
part of the repository, so they are a parameter; `Documented` is what petgraph documents of them.
-/

namespace EbpfLab.FlowGraph
open Library Relation

inductive EdgeKind where
  | fallthrough | branchTrue | branchFalse | unconditional
  deriving DecidableEq, Repr

structure Edge where
  source : Nat
  target : Nat
  kind : EdgeKind
  deriving DecidableEq, Repr

/-- `graph.neighbors(node)`, latest first. -/
def neighbors (edges : List Edge) (node : Nat) : List Nat :=
  (edges.filter (fun e => e.source == node)).reverse.map Edge.target

/-- An edge leads from `a` to `b`. -/
def Joins (edges : List Edge) (a b : Nat) : Prop := ∃ e ∈ edges, e.source = a ∧ e.target = b

theorem mem_neighbors {edges : List Edge} {a b : Nat} : b ∈ neighbors edges a ↔ Joins edges a b := by
  simp [neighbors, Joins, and_assoc]

theorem joins_eq (edges : List Edge) : Joins edges = fun a b => b ∈ neighbors edges a := by
  funext a b
  exact propext mem_neighbors.symm

/-- petgraph's algorithms, on a graph of so many nodes. -/
structure Petgraph where
  /-- `is_cyclic_directed`. -/
  isCyclicDirected (nodes : Nat) (edges : List Edge) : Bool
  /-- `simple_fast`, asked for the dominators of a node. -/
  dominators (nodes : Nat) (edges : List Edge) (root node : Nat) : Option (List Nat)
  /-- What `DfsPostOrder` emits. -/
  dfsPostOrder (nodes : Nat) (edges : List Edge) (root : Nat) : List Nat
  /-- `tarjan_scc`. -/
  tarjanScc (nodes : Nat) (edges : List Edge) : List (List Nat)

/-- What petgraph documents: whether there is a cycle, the dominators of the nodes that are reached, a
depth-first visit of each node that is reached, and the strongly connected components. -/
structure Petgraph.Documented (petgraph : Petgraph) : Prop where
  cyclic (nodes : Nat) (edges : List Edge) :
    petgraph.isCyclicDirected nodes edges = true ↔ ∃ v < nodes, TransGen (Joins edges) v v
  unreached (nodes : Nat) (edges : List Edge) (root b : Nat) :
    petgraph.dominators nodes edges root b = none ↔ ¬ Reached (Joins edges) root b
  dominators (nodes : Nat) (edges : List Edge) (root b : Nat) (found : List Nat) :
    petgraph.dominators nodes edges root b = some found → ∀ a, a ∈ found ↔ Dominates (Joins edges) root a b
  visited (nodes : Nat) (edges : List Edge) (root : Nat) :
    (∀ e ∈ edges, e.source < nodes ∧ e.target < nodes) → root < nodes →
      (petgraph.dfsPostOrder nodes edges root).Nodup ∧
        ∀ v, v ∈ petgraph.dfsPostOrder nodes edges root ↔ Reached (Joins edges) root v
  component (nodes : Nat) (edges : List Edge) :
    ∀ scc ∈ petgraph.tarjanScc nodes edges, scc.Nodup ∧
      ∀ a ∈ scc, ∀ b, b ∈ scc ↔ b < nodes ∧ ReflTransGen (Joins edges) a b ∧ ReflTransGen (Joins edges) b a
  covered (nodes : Nat) (edges : List Edge) : ∀ v < nodes, ∃ scc ∈ petgraph.tarjanScc nodes edges, v ∈ scc

end EbpfLab.FlowGraph
