import EbpfLab.Library.Marking
import EbpfLab.Ssa.Syntax
import Mathlib.Data.List.Destutter

/-!
# Optimization passes

Constant folding, copy propagation, dead-code elimination and unreachable-block elimination, run
until a round changes nothing.
-/

namespace EbpfLab.Ssa
open Isa FlowGraph Library

/-! ### Constant folding -/

/-- Version to known constant. -/
abbrev ConstTable := List (Option Int64)

namespace ConstTable

/-- `ConstTable::record`; an id past the table is not recorded. -/
def record (consts : ConstTable) (dst : SsaValue) (value : Int64) : ConstTable :=
  consts.set dst (some value)

/-- `ConstTable::resolve`. -/
def resolve (consts : ConstTable) : SsaOperand → Option Int64
  | .imm k => some k.toInt64
  | .value v => consts[v]?.join

def recordInsn (consts : ConstTable) : SsaInsn → ConstTable
  | .const dst value => consts.record dst value
  | .loadImm64 dst imm => consts.record dst imm
  | _ => consts

/-- `ConstTable::build`. -/
def build (prog : SsaProgram) : ConstTable :=
  (prog.blocks.flatMap SsaBlock.insns).foldl recordInsn (List.replicate prog.defSites.length none)

end ConstTable

/-- The constant an instruction folds to. -/
def foldValue (consts : ConstTable) : SsaInsn → Option (SsaValue × Int64)
  | .binOp dst width op lhs rhs =>
    match op with
    | .mov => (consts.resolve rhs).map fun r => (dst, op.apply 0 r width)
    | .neg => (consts.resolve lhs).map fun l => (dst, op.apply l 0 width)
    | .byteSwap _ =>
      match consts.resolve lhs, consts.resolve rhs with
      | some l, some r => if validEndWidth r then some (dst, op.apply l r width) else none
      | _, _ => none
    | _ =>
      match consts.resolve lhs, consts.resolve rhs with
      | some l, some r => some (dst, op.apply l r width)
      | _, _ => none
  | _ => none

/-- Fold the instructions of a block, recording each fold. -/
def foldInsns : ConstTable → List SsaInsn → List SsaInsn × ConstTable × Bool
  | consts, [] => ([], consts, false)
  | consts, insn :: rest =>
    match foldValue consts insn with
    | some (dst, value) =>
      let (rest, consts, _) := foldInsns (consts.record dst value) rest
      (.const dst value :: rest, consts, true)
    | none =>
      let (rest, consts, changed) := foldInsns consts rest
      (insn :: rest, consts, changed)

/-- Fold the live blocks. -/
def foldBlocks : ConstTable → List SsaBlock → List SsaBlock × ConstTable × Bool
  | consts, [] => ([], consts, false)
  | consts, b :: rest =>
    let (insns, consts, here) := if b.live then foldInsns consts b.insns else (b.insns, consts, false)
    let (rest, consts, later) := foldBlocks consts rest
    ({ b with insns } :: rest, consts, here || later)

/-- `constant_fold`. -/
def constantFold (prog : SsaProgram) (consts : ConstTable) : SsaProgram × ConstTable × Bool :=
  let (blocks, consts, changed) := foldBlocks consts prog.blocks
  ({ prog with blocks }, consts, changed)

/-! ### Copy propagation -/

/-- The operands of a phi that vote: live inflows other than the phi itself. -/
def votes (prog : SsaProgram) (dst : SsaValue) (inputs : List (Pred × SsaValue)) : List SsaValue :=
  ((inputs.filter fun input => prog.predLive input.1).map Prod.snd).filter (· ≠ dst)

/-- A version and the one it copies. -/
def copyOf (prog : SsaProgram) : SsaInsn → Option (SsaValue × SsaValue)
  | .copy dst src => some (dst, src)
  | .binOp dst .b64 .mov _ (.value u) => some (dst, u)
  | .phi dst inputs =>
    match (votes prog dst inputs).destutter (· ≠ ·) with
    | [only] => some (dst, only)
    | _ => none
  | _ => none

def rewrites (prog : SsaProgram) : List (SsaValue × SsaValue) :=
  prog.liveSites.filterMap fun (_, insn) => copyOf prog insn

/-- `rewrite_uses`, with whether a use was there. -/
def rewriteUses (old new : SsaValue) (insn : SsaInsn) : SsaInsn × Bool :=
  (insn.mapUses fun v => if v = old then new else v, insn.uses.contains old)

/-- Apply every rewrite to an instruction, in order. -/
def rewriteInsn (pairs : List (SsaValue × SsaValue)) (insn : SsaInsn) : SsaInsn × Bool :=
  pairs.foldl
    (fun (insn, changed) (old, new) =>
      let (insn, here) := rewriteUses old new insn
      (insn, changed || here))
    (insn, false)

/-- Replace the instructions of the live blocks. -/
def SsaProgram.mapLive (prog : SsaProgram) (f : SsaInsn → SsaInsn) : SsaProgram :=
  { prog with
    blocks := prog.blocks.map fun b => if b.live then { b with insns := b.insns.map f } else b }

/-- `copy_propagate`. -/
def copyPropagate (prog : SsaProgram) : SsaProgram × Bool :=
  let pairs := rewrites prog
  if pairs.isEmpty then (prog, false)
  else
    (prog.mapLive fun insn => (rewriteInsn pairs insn).1,
      prog.liveSites.any fun (_, insn) => (rewriteInsn pairs insn).2)

/-! ### Dead-code elimination -/

/-- The effectful and faulting instructions; a `BPF_END` unless its width is known to be valid. -/
def rooted (prog : SsaProgram) : SsaInsn → Bool
  | .load .. | .store .. | .call .. | .br .. | .ja _ | .exit _ => true
  | .binOp _ _ (.byteSwap _) _ rhs => !((prog.constValue rhs).any validEndWidth)
  | _ => false

/-- The definitions an instruction uses. -/
def usedSites (prog : SsaProgram) (site : Site) : List Site :=
  match prog.insnAt site with
  | some insn => insn.uses.filterMap prog.defIndex
  | none => []

def SsaProgram.size (prog : SsaProgram) : Nat := (prog.blocks.map fun b => b.insns.length).sum

/-- The mark phase. -/
def marks (prog : SsaProgram) : List Site :=
  let roots := (prog.liveSites.filter fun (_, insn) => rooted prog insn).map Prod.fst
  markFrom (usedSites prog) prog.size roots.reverse roots

/-- The marked instructions of a live block; nothing of a dead one. -/
def sweepBlock (marked : List Site) (b : SsaBlock) (block : Nat) : SsaBlock :=
  { b with
    insns :=
      if b.live then
        ((b.insns.zipIdx.filter fun (_, i) => marked.contains (block, i)).map Prod.fst)
      else [] }

/-- `dead_code_eliminate`. -/
def deadCodeEliminate (prog : SsaProgram) : SsaProgram × Bool :=
  let marked := marks prog
  let deadInsns := ((prog.blocks.filter fun b => !b.live).map fun b => b.insns.length).sum
  if deadInsns = 0 ∧ prog.liveSites.all (fun (site, _) => marked.contains site) then (prog, false)
  else
    let kept := { prog with
      blocks := prog.blocks.zipIdx.map fun (b, block) => sweepBlock marked b block }
    if prog.size - kept.size = 0 then (kept, false) else (kept.rebuildDefSites, true)

/-! ### Unreachable-block elimination -/

/-- Blocks reached from the entry over live successors. -/
def reached (prog : SsaProgram) : List Nat :=
  markFrom prog.liveSuccessors prog.blocks.length [prog.entry] [prog.entry]

/-- Drop a phi's inputs from dead blocks. -/
def pruneInputs (prog : SsaProgram) : SsaInsn → SsaInsn
  | .phi dst inputs => .phi dst (inputs.filter fun input => prog.predLive input.1)
  | insn => insn

def cutBlock (seen : List Nat) (b : SsaBlock) (block : Nat) : SsaBlock :=
  { b with live := b.live && seen.contains block }

/-- `unreachable_block_eliminate`. -/
def unreachableBlockEliminate (prog : SsaProgram) : SsaProgram × Bool :=
  let seen := reached prog
  let kept := { prog with
    blocks := prog.blocks.zipIdx.map fun (b, block) => cutBlock seen b block }
  let pruned := kept.mapLive (pruneInputs kept)
  let killed := prog.blocks.zipIdx.any fun (b, block) => b.live && !seen.contains block
  let dropped := kept.liveSites.any fun (_, insn) => pruneInputs kept insn != insn
  if killed || dropped then (pruned.rebuildDefSites, true) else (pruned, false)

/-! ### The driver -/

/-- One round of the passes. -/
def optimizeRound (prog : SsaProgram) (consts : ConstTable) : SsaProgram × ConstTable × Bool :=
  let (prog, consts, folded) := constantFold prog consts
  let (prog, copied) := copyPropagate prog
  let (prog, swept) := deadCodeEliminate prog
  let (prog, cut) := unreachableBlockEliminate prog
  (prog, consts, folded || copied || swept || cut)

/-- Rounds until one changes nothing. -/
def optimizeFrom : Nat → SsaProgram → ConstTable → Option SsaProgram
  | 0, _, _ => none
  | fuel + 1, prog, consts =>
    let (prog, consts, changed) := optimizeRound prog consts
    if changed then optimizeFrom fuel prog consts else some prog

/-- `optimize`, `none` only when `fuel` rounds do not reach the fixed point. -/
def optimize (fuel : Nat) (prog : SsaProgram) : Option SsaProgram :=
  optimizeFrom fuel prog (.build prog)

end EbpfLab.Ssa
