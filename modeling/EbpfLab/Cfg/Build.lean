import Mathlib.Data.List.Dedup
import Mathlib.Data.List.Sort
import EbpfLab.Cfg.Petgraph
import EbpfLab.Isa.Slots

/-!
# Control-flow graph construction

`build_cfg` of `ebpf-cfg`. Jump offsets count 8-byte slots while a wide load is one decoded
instruction, so targets are resolved in slot space and translated back. Nodes are block numbers in
program order; edges are kept in insertion order and read, as petgraph does, latest first.
-/

namespace EbpfLab.FlowGraph
open Isa

/-- A half-open range of decoded instruction indices. -/
structure BasicBlock where
  start : Nat
  stop : Nat
  deriving DecidableEq, Repr

inductive CfgError where
  | emptyProgram
  | jumpOutOfBounds (pc : Nat) (target : Int)
  | jumpIntoWide (pc target : Nat)
  /-- The `u32` slot counter overflows, which panics before a graph is built. -/
  | slotOverflow
  deriving DecidableEq, Repr

structure Cfg where
  blocks : List BasicBlock
  edges : List Edge
  entry : Nat
  blockOfPc : List Nat
  slotOf : List Nat
  rpo : List Nat
  deriving DecidableEq, Repr

/-- `graph.edges(node)`: outgoing edges, latest first. -/
def Cfg.outEdges (cfg : Cfg) (node : Nat) : List Edge :=
  (cfg.edges.filter (fun e => e.source == node)).reverse

/-- `graph.edges_directed(node, Incoming)`, latest first. -/
def Cfg.inEdges (cfg : Cfg) (node : Nat) : List Edge :=
  (cfg.edges.filter (fun e => e.target == node)).reverse

def Cfg.succs (cfg : Cfg) (node : Nat) : List Nat := neighbors cfg.edges node

/-- `graph.neighbors_directed(node, Incoming)`, latest first. -/
def Cfg.preds (cfg : Cfg) (node : Nat) : List Nat := (cfg.inEdges node).map Edge.source

/-- Some path of edges leads from the entry block to `block`. -/
def Cfg.Reachable (cfg : Cfg) (block : Nat) : Prop :=
  Relation.ReflTransGen (fun a b => ∃ e ∈ cfg.edges, e.source = a ∧ e.target = b) cfg.entry block

theorem Cfg.mem_outEdges {cfg : Cfg} {node : Nat} {e : Edge} :
    e ∈ cfg.outEdges node ↔ e ∈ cfg.edges ∧ e.source = node := by
  simp [Cfg.outEdges]

theorem Cfg.mem_inEdges {cfg : Cfg} {node : Nat} {e : Edge} :
    e ∈ cfg.inEdges node ↔ e ∈ cfg.edges ∧ e.target = node := by
  simp [Cfg.inEdges]

/-! ### Slots -/

/-- `slot_maps`: the slot of each instruction and the inverse map, which is one-based with 0 for the
second slot of a wide load. -/
def slotMaps (insns : List Insn) : List Nat × List Nat :=
  (slotsFrom 0 insns, slotTable 0 (· + 1) insns)

/-- Resolve the jump at decoded index `i` to a decoded target index. -/
def resolveTarget (slotOf decodedOfSlot : List Nat) (i : Nat) (offset : Int16) :
    Except CfgError Nat :=
  let pc := slotOf.getD i 0
  let target : Int := pc + 1 + offset.toInt
  if target < 0 then .error (.jumpOutOfBounds pc target)
  else
    match decodedOfSlot[target.toNat]? with
    | none => .error (.jumpOutOfBounds pc target)
    | some 0 => .error (.jumpIntoWide pc target.toNat)
    | some (decoded + 1) => .ok decoded

/-- The resolved target of every jump site; the first invalid target in instruction order fails. -/
def jumpTargets (insns : List Insn) (slotOf decodedOfSlot : List Nat) :
    Except CfgError (List (Option Nat)) :=
  insns.zipIdx.mapM fun (insn, i) =>
    match insn with
    | .jump _ _ _ _ offset => (resolveTarget slotOf decodedOfSlot i offset).map some
    | _ => .ok none

/-! ### Blocks and edges -/

/-- Whether an instruction ends a block. -/
def endsBlock : Insn → Bool
  | .jump .. | .exit => true
  | _ => false

/-- The block starts pushed for instruction `i`: its target, and what follows a jump or an exit. -/
def leadersAt (n : Nat) (insn : Insn) (target : Option Nat) (i : Nat) : List Nat :=
  target.toList ++ if endsBlock insn ∧ i + 1 < n then [i + 1] else []

/-- Block entry points, sorted and deduplicated. -/
def collectLeaders (insns : List Insn) (targets : List (Option Nat)) : List Nat :=
  ((0 :: ((insns.zip targets).zipIdx.flatMap fun ((insn, target), i) =>
    leadersAt insns.length insn target i)).insertionSort (· ≤ ·)).dedup

/-- Consecutive leaders, the last one paired with the end of the program. -/
def blockRanges (leaders : List Nat) (n : Nat) : List BasicBlock :=
  (leaders.zip (leaders.drop 1 ++ [n])).map fun (start, stop) => ⟨start, stop⟩

/-- The block whose range holds a decoded index. -/
def blockIndex (blocks : List BasicBlock) (pc : Nat) : Nat :=
  blocks.findIdx fun b => b.start ≤ pc ∧ pc < b.stop

/-- The edges out of block `idx`, decided by its last instruction. -/
def blockEdges (insns : List Insn) (targets : List (Option Nat)) (blocks : List BasicBlock)
    (idx : Nat) (b : BasicBlock) : List Edge :=
  let last := b.stop - 1
  let next := fun kind =>
    if b.stop < insns.length then [(⟨idx, blockIndex blocks b.stop, kind⟩ : Edge)] else []
  match insns[last]?, targets[last]?.join with
  | some (.jump _ .always _ _ _), some target =>
    [⟨idx, blockIndex blocks target, .unconditional⟩]
  | some (.jump ..), some target =>
    ⟨idx, blockIndex blocks target, .branchTrue⟩ :: next .branchFalse
  | some .exit, _ => []
  | _, _ => next .fallthrough

/-- `build_cfg`. -/
def buildCfg (petgraph : Petgraph) (insns : List Insn) : Except CfgError Cfg :=
  if insns = [] then .error .emptyProgram
  else if slotCount insns ≥ 2 ^ 32 then .error .slotOverflow
  else
    let (slotOf, decodedOfSlot) := slotMaps insns
    match jumpTargets insns slotOf decodedOfSlot with
    | .error e => .error e
    | .ok targets =>
      let blocks := blockRanges (collectLeaders insns targets) insns.length
      let edges := blocks.zipIdx.flatMap fun (b, idx) => blockEdges insns targets blocks idx b
      .ok
        { blocks, edges, slotOf, entry := 0
          blockOfPc := (List.range insns.length).map (blockIndex blocks)
          rpo := (petgraph.dfsPostOrder blocks.length edges 0).reverse }

end EbpfLab.FlowGraph
