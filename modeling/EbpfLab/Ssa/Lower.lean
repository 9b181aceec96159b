import EbpfLab.Ssa.Emit
import EbpfLab.Ssa.Opt
import EbpfLab.Ssa.WellFormed

/-!
# Lowering

`lower`: block layout, phi moves at predecessor ends or in trampolines, control ops with
layout-aware jump selection, and jump offsets in slot space. An emitted jump carries the target its
offset is filled in for.
-/

namespace EbpfLab.Ssa
open Isa FlowGraph Library

/-- A lowered jump target. -/
inductive Target where
  | block (block : Nat)
  | tramp (i : Nat)
  | fallOff
  deriving DecidableEq, Repr

/-- An emitted instruction, with its target when its offset is still to be filled in. -/
abbrev Emitted := Insn × Option Target

def plain (insns : List Insn) : List Emitted := insns.map fun insn => (insn, none)

/-- `invert`. -/
def invert : JumpOp → Option JumpOp
  | .eq => some .ne
  | .ne => some .eq
  | .gt => some .le
  | .ge => some .lt
  | .lt => some .ge
  | .le => some .gt
  | .sgt => some .sle
  | .sge => some .slt
  | .slt => some .sge
  | .sle => some .sgt
  | .set | .always | .call | .exit => none

/-! ### Layout -/

/-- The live block a chain continues with. -/
def preferred (prog : SsaProgram) (live : List Bool) (block : Nat) : Option Nat :=
  let edges := (prog.outEdges block).filter fun e => live.getD e.target false
  let first (kinds : List EdgeKind) : Option Nat :=
    (edges.find? fun e => kinds.contains e.kind).map Edge.target
  (first [.fallthrough]).or ((first [.branchFalse]).or (first [.branchTrue, .unconditional]))

/-- A fallthrough chain, behind the blocks already placed. -/
def followChain (prog : SsaProgram) (live : List Bool) : Nat → Option Nat → List Nat → List Nat
  | 0, _, order => order
  | _ + 1, none, order => order
  | fuel + 1, some block, order =>
    if !live.getD block false || order.contains block then order
    else
      let order := order ++ [block]
      followChain prog live fuel ((preferred prog live block).filter fun n => !order.contains n) order

/-- `layout`: the entry's chain first, then the others in index order. -/
def layoutOf (prog : SsaProgram) (live : List Bool) : List Nat :=
  let starts := prog.entry :: (List.range prog.blocks.length).filter (· ≠ prog.entry)
  starts.foldl
    (fun order start =>
      if !live.getD start false || order.contains start then order
      else followChain prog live (prog.blocks.length + 1) (some start) order)
    []

/-! ### Phi moves -/

namespace Lower

/-- The reachable blocks. -/
def liveBlocks (prog : SsaProgram) : List Bool :=
  (List.range prog.blocks.length).map fun block => (reached prog).contains block

/-- `Lower::new`. -/
def new (prog : SsaProgram) (homes : Homes) (live : Liveness) : Lower :=
  { prog, homes, ranges := live.ranges, live := liveBlocks prog
    layout := layoutOf prog (liveBlocks prog)
    endMoves := List.replicate prog.blocks.length [], tramps := [], trampOf := [] }

variable (lower : Lower)

def isLive (block : Nat) : Bool := lower.live.getD block false

def succCount (block : Nat) : Nat :=
  if lower.isLive block then (lower.prog.liveSuccessors block).length else 0

def predCount (block : Nat) : Nat :=
  (((List.range lower.prog.blocks.length).filter lower.isLive).flatMap lower.prog.liveSuccessors).count
    block

/-- `is_critical`. -/
def isCritical (pred block : Nat) : Bool := decide (lower.succCount pred > 1 ∧ lower.predCount block > 1)

/-- The trampoline of an edge. -/
def trampIndex (pred block : Nat) : Option Nat :=
  (lower.trampOf.find? fun entry => entry.1 == (pred, block)).map Prod.snd

/-- Append a move to the trampoline of an edge, made when there is none. -/
def pushTramp (pred block : Nat) (placed : PlacedMove) : Lower :=
  match lower.trampIndex pred block with
  | some i =>
    { lower with tramps := lower.tramps.modify i fun t => { t with moves := t.moves ++ [placed] } }
  | none =>
    { lower with
      tramps := lower.tramps ++ [{ moves := [placed], target := block }]
      trampOf := lower.trampOf ++ [((pred, block), lower.tramps.length)] }

/-- Append a move to the end of a block. -/
def pushEnd (pred : Nat) (placed : PlacedMove) : Lower :=
  { lower with endMoves := lower.endMoves.modify pred (· ++ [placed]) }

/-- Place the move of one phi input. A start inflow must elide. -/
def placeInput (block : Nat) (home : Reg) (input : Pred × SsaValue) : Except SsaError Lower :=
  match input.1 with
  | none => do
    let src ← lower.moveSrc input.2
    if src = .reg home then .ok lower else throw .phiCycle
  | some pred =>
    if !lower.isLive pred then .ok lower
    else do
      let src ← lower.moveSrc input.2
      let placed : PlacedMove := { dst := home, src }
      let selfEdge := pred == block && !sameHome placed
      if selfEdge || lower.isCritical pred block then .ok (lower.pushTramp pred block placed)
      else .ok (lower.pushEnd pred placed)

/-- Place the moves of one phi. -/
def placePhi (block : Nat) : SsaInsn → Except SsaError Lower
  | .phi dst inputs =>
    match lower.homeOf dst with
    | none => .ok lower
    | some home => inputs.foldlM (fun lower input => lower.placeInput block home input) lower
  | _ => .ok lower

/-- `collect_phi_moves`. -/
def collectPhiMoves : Except SsaError Lower :=
  ((List.range lower.prog.blocks.length).filter lower.isLive).foldlM
    (fun lower block =>
      (lower.prog.insnsOf block).foldlM (fun lower insn => lower.placePhi block insn) lower)
    lower

/-! ### Control -/

/-- `block_emits`: every path of the source answers yes. -/
def blockEmits (_ : Nat) : Bool := true

/-- `fallthrough_target`. -/
def fallthroughTarget (pos : Nat) : Option Nat := (lower.layout.drop (pos + 1)).find? blockEmits

/-- `resolve_edge`. -/
def resolveEdge (pred : Nat) (succ : Option Nat) : Target :=
  match succ with
  | none => .fallOff
  | some succ =>
    match lower.trampIndex pred succ with
    | some i => .tramp i
    | none => .block succ

/-- `emit_jump`. -/
def emitJump (target : Target) : List Emitted :=
  [(.jump .b64 .always 0 (.imm 0) 0, some target)]

/-- `emit_cond`. -/
def emitCond (width : Width) (op : JumpOp) (lhs rhs : SsaOperand) (target : Target) :
    Except SsaError (List Emitted) :=
  match lhs with
  | .imm _ => .error .outOfRegisters
  | .value v => do
    let dst ← lower.requireHome v
    let src ← lower.operandOf rhs
    .ok [(.jump width op dst src 0, some target)]

/-- A jump that is elided when its target is fallen into. -/
def jumpUnless (fallthrough : Option Target) (target : Target) : List Emitted :=
  if some target = fallthrough then [] else emitJump target

/-- The conditional branch of `emit_control`. -/
def emitBranch (fallthrough : Option Target) (width : Width) (op : JumpOp) (lhs rhs : SsaOperand)
    (taken untaken : Target) : Except SsaError (List Emitted) :=
  if taken = untaken then .ok (jumpUnless fallthrough taken)
  else if some untaken = fallthrough then lower.emitCond width op lhs rhs taken
  else
    match invert op with
    | some inv =>
      if some taken = fallthrough ∧ untaken ≠ .fallOff then lower.emitCond width inv lhs rhs untaken
      else do
        let cond ← lower.emitCond width op lhs rhs taken
        .ok (cond ++ emitJump untaken)
    | none => do
      let cond ← lower.emitCond width op lhs rhs taken
      .ok (cond ++ emitJump untaken)

/-- The false target of the first branch of a block, or the target of its first jump. -/
def untakenOf (block : Nat) : Option Nat :=
  ((lower.prog.insnsOf block).findSome? fun insn =>
    match insn with
    | .br _ _ _ _ _ falseTarget => some falseTarget
    | .ja target => some (some target)
    | _ => none).join

/-- `emit_control` for the block at a place of the layout. -/
def emitControl (block pos : Nat) : Except SsaError (List Emitted) :=
  let succs := lower.prog.liveSuccessors block
  let fallthrough := ((lower.fallthroughTarget pos).filter succs.contains).map Target.block
  match lower.prog.terminator block with
  | none => .ok (jumpUnless fallthrough (lower.resolveEdge block succs.head?))
  | some (.ja target) => .ok (jumpUnless fallthrough (lower.resolveEdge block (some target)))
  | some (.br width op lhs rhs trueTarget falseTarget) =>
    if op = .call ∨ op = .exit then
      .ok (jumpUnless fallthrough (lower.resolveEdge block (lower.untakenOf block)))
    else
      lower.emitBranch fallthrough width op lhs rhs (lower.resolveEdge block trueTarget)
        (lower.resolveEdge block falseTarget)
  | some (.exit r0) => do
    let home ← lower.requireHome r0
    .ok (plain ((if home = 0 then [] else [mov64 0 home]) ++ [.exit]))
  | some _ => .ok []

/-! ### Blocks -/

/-- The instructions of a block up to its first control op, each with its flat position. -/
def straightLine (block : Nat) : List (SsaInsn × Nat) :=
  ((lower.prog.insnsOf block).takeWhile fun insn => !insn.isControl).zipIdx (lower.prog.blockStart block)

/-- The data operations of a block. -/
def emitData (block : Nat) : Except SsaError (List Insn) :=
  (lower.straightLine block).foldlM
    (fun code place => (lower.emitInsn place.2 place.1).map (code ++ ·)) []

/-- `emit_block`: data operations, the moves at the block's end, control. -/
def emitBlock (block pos : Nat) : Except SsaError (List Emitted) := do
  let data ← lower.emitData block
  let moves ← orderMoves (lower.endMoves.getD block []) .phiCycle
  let control ← lower.emitControl block pos
  .ok (plain (data ++ moves.flatMap emitMove) ++ control)

/-- A trampoline: its moves, then a jump to its target. -/
def emitTramp (tramp : Trampoline) : Except SsaError (List Emitted) := do
  let moves ← orderMoves tramp.moves .phiCycle
  .ok (plain (moves.flatMap emitMove) ++ emitJump (.block tramp.target))

end Lower

/-! ### Offsets -/

/-- What is emitted: the code of the blocks in layout order, then that of the trampolines. -/
structure Output where
  layout : List Nat
  blocks : List (List Emitted)
  tramps : List (List Emitted)

namespace Output

def items (out : Output) : List Emitted := out.blocks.flatten ++ out.tramps.flatten

/-- `emitted_at` of the block at a place of the layout. -/
def startAt (out : Output) (pos : Nat) : Nat := (out.blocks.take pos).flatten.length

/-- `tramp_at`. -/
def trampAt (out : Output) (i : Nat) : Nat :=
  out.blocks.flatten.length + (out.tramps.take i).flatten.length

/-- `emitted_at`; a block that is not emitted has no index. -/
def emittedAt (out : Output) (block : Nat) : Option Nat :=
  (out.layout.idxOf? block).map out.startAt

/-- The slots of the emitted instructions, without the overflow of the source's `u32` counter at 2^32 slots. -/
def slots (out : Output) : List Nat := slotsFrom 0 (out.items.map Prod.fst)

/-- The number of slots. -/
def total (out : Output) : Nat := (out.items.map fun item => slotWidth item.1).sum

def targetSlot (out : Output) : Target → Nat
  | .block block => ((out.emittedAt block).bind fun i => out.slots[i]?).getD out.total
  | .tramp i => out.slots.getD (out.trampAt i) out.total
  | .fallOff => out.total

/-- Fill in the offset of the jump at an index. -/
def fixup (out : Output) (idx : Nat) (item : Emitted) : Except SsaError Insn :=
  match item.2 with
  | none => .ok item.1
  | some target =>
    let offset : Int := out.targetSlot target - out.slots.getD idx 0 - 1
    if -2 ^ 15 ≤ offset ∧ offset < 2 ^ 15 then
      match item.1 with
      | .jump width op dst src _ => .ok (.jump width op dst src (Int16.ofInt offset))
      | insn => .ok insn
    else .error (.jumpTooFar idx)

/-- `resolve_fixups`. -/
def resolveFixups (out : Output) : Except SsaError (List Insn) :=
  out.items.zipIdx.mapM fun place => out.fixup place.2 place.1

end Output

/-- Allocation, layout and phi moves. -/
def prepare (petgraph : Petgraph) (prog : SsaProgram) : Except SsaError Lower := do
  let live := Liveness.compute petgraph prog
  let homes ← allocate prog live
  (Lower.new prog homes live).collectPhiMoves

/-- `emit_all` before offsets are filled in. -/
def Lower.emitAll (lower : Lower) : Except SsaError Output := do
  let blocks ← lower.layout.zipIdx.mapM fun place => lower.emitBlock place.1 place.2
  let tramps ← lower.tramps.mapM Lower.emitTramp
  .ok { layout := lower.layout, blocks, tramps }

/-- `lower`. -/
def lower (petgraph : Petgraph) (prog : SsaProgram) : Except SsaError (List Insn) := do
  let lower ← prepare petgraph prog
  let out ← lower.emitAll
  out.resolveFixups

end EbpfLab.Ssa
