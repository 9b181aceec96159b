import EbpfLab.Verifier.Bound

/-!
# The worklist

`verify_core`: block states seeded in reverse postorder and merged into successors until nothing
changes, then the iteration bounds. Generations count the changes of a block's state; they are
natural numbers here because a block is popped, and its processed generation renewed, long before
its `u32` counter could come round.
-/

namespace EbpfLab.Verifier
open Isa Interp FlowGraph

structure VerifyConfig where
  wideningThreshold : Nat
  maps : List MapDesc
  packetLen : Option Nat
  dataLen : Option Nat
  maxLoopSteps : Option Nat

def VerifyConfig.default : VerifyConfig :=
  { wideningThreshold := 16, maps := [], packetLen := none, dataLen := none, maxLoopSteps := none }

/-- What an accepted program reports. The trace renders states for display and is left out. -/
structure VerifiedProgram where
  totalPc : Nat
  deriving DecidableEq, Repr

/-- Install a descriptor of `build_map_table`, keeping an earlier claim of its fd. -/
def installDesc (table : MapTable) (desc : MapDesc) : MapTable :=
  match usizeOf desc.fd with
  | some i => if table[i]? = some none then table.set i (some desc) else table
  | none => table

/-- `build_map_table`. -/
def buildMapTable (config : VerifyConfig) : MapTable :=
  let maxFd := match config.maps with
    | [] => 0
    | first :: rest => rest.foldl (fun m d => if m < d.fd then d.fd else m) first.fd
  let capped := if maxFd < 0 then 0 else if maxFd > maxMapFd then maxMapFd else maxFd
  config.maps.foldl installDesc (List.replicate (capped.toInt.toNat + 1) none)

/-- The state at the entry block. -/
def entryState (config : VerifyConfig) : VerifierState :=
  let table := buildMapTable config
  let s : VerifierState :=
    if config.packetLen.isSome then .initialXdp config.packetLen table
    else .initialWithMaps table
  { s with dataLen := config.dataLen }

/-- The mutable state of the worklist loop, indexed by block. -/
structure Worklist where
  states : List (Option VerifierState)
  statesGen : List Nat
  processedGen : List (Option Nat)
  blockIterations : List Nat
  snapshots : List (Option Snapshot)
  queue : List Nat
  visited : List Bool

namespace Worklist

def stateAt (w : Worklist) (block : Nat) : Option VerifierState := w.states[block]?.join

/-- The current generation of a block. -/
def genAt (w : Worklist) (block : Nat) : Nat := w.statesGen.getD block 0

/-- Whether the block was already processed with its present input. -/
def upToDate (w : Worklist) (block : Nat) : Bool :=
  w.processedGen[block]?.join == some (w.genAt block)

/-- Record that the block is processed at its present generation. -/
def markProcessed (w : Worklist) (block : Nat) : Worklist :=
  { w with processedGen := w.processedGen.set block (some (w.genAt block)) }

/-- `BlockWorklist::push`: a queued block stays where it is. -/
def push (w : Worklist) (block : Nat) : Worklist :=
  if block ∈ w.queue then w else { w with queue := w.queue ++ [block] }

/-- Bump a block's generation and queue it. -/
def bump (w : Worklist) (block : Nat) : Worklist :=
  push { w with statesGen := w.statesGen.set block (w.genAt block + 1) } block

/-- Mark the instructions of a block visited. -/
def visit (w : Worklist) (b : BasicBlock) : Worklist :=
  { w with visited := (List.range' b.start (b.stop - b.start)).foldl (·.set · true) w.visited }

/-- `merge_successor`. -/
def mergeSuccessor (threshold : Nat) (w : Worklist) (target : Nat) (incoming : VerifierState) :
    Worklist :=
  match w.stateAt target with
  | none =>
    bump
      { w with
        snapshots := w.snapshots.set target (some incoming.regs)
        states := w.states.set target (some incoming) } target
  | some existing =>
    let iterations := w.blockIterations.getD target 0 + 1
    let (merged, changed) :=
      if iterations > threshold then existing.widenAssign incoming
      else existing.joinAssign incoming
    let w := { w with
      blockIterations := w.blockIterations.set target iterations
      states := w.states.set target (some merged) }
    if changed then w.bump target else w

/-- Merge every output of a block into its successor. -/
def propagate (threshold : Nat) (w : Worklist) (outs : List (Nat × VerifierState)) : Worklist :=
  outs.foldl (fun w (target, out) => w.mergeSuccessor threshold target out) w

end Worklist

/-- The instructions of a block. -/
def blockInsns (insns : List Insn) (b : BasicBlock) : List Insn :=
  (insns.drop b.start).take (b.stop - b.start)

/-- The refined exit states of a block, one per out-edge. -/
def blockOutputs (insns : List Insn) (cfg : Cfg) (block : Nat) (s : VerifierState) :
    Except VerifyError (List (Nat × VerifierState)) :=
  match cfg.blocks[block]? with
  | none => .ok []
  | some b => do
    let current ← transferFrom b.start (blockInsns insns b) s
    .ok ((cfg.outEdges block).map fun e =>
      (e.target, refineEdge current e.kind insns[b.stop - 1]?))

/-- Process a popped block. -/
def processBlock (insns : List Insn) (cfg : Cfg) (threshold : Nat) (w : Worklist) (block : Nat) :
    Except VerifyError Worklist :=
  if w.upToDate block then .ok w
  else
    let w := w.markProcessed block
    match w.stateAt block, cfg.blocks[block]? with
    | some s, some b => do
      let outs ← blockOutputs insns cfg block s
      .ok ((w.visit b).propagate threshold outs)
    | _, _ => .ok w

/-- The worklist loop. -/
def drain (insns : List Insn) (cfg : Cfg) (threshold : Nat) :
    Nat → Worklist → Option (Except VerifyError Worklist)
  | 0, _ => none
  | fuel + 1, w =>
    match w.queue with
    | [] => some (.ok w)
    | block :: queue =>
      match processBlock insns cfg threshold { w with queue } block with
      | .error e => some (.error e)
      | .ok w => drain insns cfg threshold fuel w

/-- The worklist before its first pop. -/
def seed (petgraph : Petgraph) (insns : List Insn) (cfg : Cfg) (config : VerifyConfig) : Worklist :=
  let n := cfg.blocks.length
  let entry := entryState config
  cfg.rpo.foldl Worklist.push
    { states := (List.replicate n none).set cfg.entry (some entry)
      statesGen := (List.replicate n 0).set cfg.entry 1
      processedGen := List.replicate n none
      blockIterations := List.replicate n 0
      snapshots := if hasBackEdge petgraph cfg then (List.replicate n none).set cfg.entry (some entry.regs)
        else List.replicate n none
      queue := []
      visited := List.replicate insns.length false }

/-- `verify_core`, `none` only when `fuel` pops do not drain the queue. -/
def verifyCore (petgraph : Petgraph) (insns : List Insn) (cfg : Cfg) (config : VerifyConfig) (fuel : Nat) :
    Option (Except VerifyError VerifiedProgram) :=
  (drain insns cfg config.wideningThreshold fuel (seed petgraph insns cfg config)).map fun drained => do
    let w ← drained
    let _ ← enforceLoopBounds petgraph cfg insns w.snapshots config.maxLoopSteps
    .ok { totalPc := w.visited.count true }

/-- `verify_with_config` accepts the program. -/
def Accepts (petgraph : Petgraph) (insns : List Insn) (cfg : Cfg) (config : VerifyConfig) : Prop :=
  ∃ fuel report, verifyCore petgraph insns cfg config fuel = some (.ok report)

end EbpfLab.Verifier
