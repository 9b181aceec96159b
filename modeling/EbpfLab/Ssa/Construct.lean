import EbpfLab.Ssa.Syntax

/-!
# SSA construction

`build_ssa`. Blocks are filled in reverse post-order; a block is sealed once its predecessors are, a
read in an unsealed block leaves a phi to be completed, and inputs read from a block not yet filled
are repaired at the end. The builder is passed along explicitly, and reads recur on fuel.
-/

namespace EbpfLab.Ssa
open Isa FlowGraph

inductive SsaError where
  | illegalInstruction (pc : Nat)
  | emptyProgram | outOfRegisters | phiCycle | callArgCycle
  | jumpTooFar (pc : Nat)
  | r10FaultingLoad
  deriving DecidableEq, Repr

/-- A phi input read from a block that was not filled. -/
structure StaleInput where
  block : Nat
  pos : Nat
  idx : Nat
  pred : Nat
  reg : Reg
  deriving DecidableEq, Repr

/-- Where a version was emitted: in the head or the body of a block. -/
structure DefOrder where
  value : SsaValue
  block : Nat
  isHead : Bool
  pos : Nat
  deriving DecidableEq, Repr

/-- The builder's state, indexed by block. -/
structure Builder where
  cur : List (Vector (Option SsaValue) 11)
  «sealed» : List Bool
  filled : List Bool
  live : List Bool
  heads : List (List SsaInsn)
  bodies : List (List SsaInsn)
  incomplete : List (List (Nat × Reg))
  stale : List StaleInput
  entryEnv : Reg → SsaValue
  next : Nat
  defOrder : List DefOrder
  resolving : List (Nat × Reg)
  sealing : List Bool

namespace Builder

/-- Some edge leads back to the entry. -/
def entryLoop (cfg : Cfg) : Bool := !(cfg.preds cfg.entry).isEmpty

/-- `Builder::new`, with the entry versions of the prelude. -/
def new (cfg : Cfg) : Builder :=
  let blocks := cfg.blocks.length
  { cur := List.replicate blocks (Vector.replicate 11 none)
    «sealed» := List.replicate blocks false
    filled := List.replicate blocks false
    live := List.replicate blocks false
    heads := List.replicate blocks []
    bodies := List.replicate blocks []
    incomplete := List.replicate blocks []
    stale := []
    entryEnv := fun r => if r.isFramePtr then 1 else if r = 1 then 2 else 0
    next := 0
    defOrder := []
    resolving := []
    sealing := List.replicate blocks false }

def isSealed (b : Builder) (block : Nat) : Bool := b.sealed.getD block false

def isFilled (b : Builder) (block : Nat) : Bool := b.filled.getD block false

def isSealing (b : Builder) (block : Nat) : Bool := b.sealing.getD block false

def current (b : Builder) (block : Nat) (reg : Reg) : Option SsaValue :=
  b.cur[block]?.bind fun versions => versions.get reg

def setCurrent (b : Builder) (block : Nat) (reg : Reg) (v : SsaValue) : Builder :=
  { b with cur := b.cur.modify block fun versions => versions.setIfInBounds reg (some v) }

/-- `fresh`, without the overflow of the source's `u32` counter at 2^32 versions. -/
def fresh (b : Builder) : SsaValue × Builder := (b.next, { b with next := b.next + 1 })

/-- Record where the version of an instruction is defined. -/
def record (b : Builder) (block : Nat) (isHead : Bool) (pos : Nat) (insn : SsaInsn) : Builder :=
  match insn.defDst with
  | some value => { b with defOrder := b.defOrder ++ [{ value, block, isHead, pos }] }
  | none => b

def emitHead (b : Builder) (block : Nat) (insn : SsaInsn) : Builder :=
  let b := b.record block true (b.heads.getD block []).length insn
  { b with heads := b.heads.modify block (· ++ [insn]) }

def emitBody (b : Builder) (block : Nat) (insn : SsaInsn) : Builder :=
  let b := b.record block false (b.bodies.getD block []).length insn
  { b with bodies := b.bodies.modify block (· ++ [insn]) }

def define (b : Builder) (block : Nat) (dst : Reg) (make : SsaValue → SsaInsn) : Builder :=
  let (value, b) := b.fresh
  (b.emitBody block (make value)).setCurrent block dst value

/-- `prelude`. An entry that is jumped back to keeps only its frame pointer. -/
def prelude (cfg : Cfg) (b : Builder) : Builder :=
  let (zero, b) := b.fresh
  let b := b.emitHead cfg.entry (.const zero 0)
  let (frame, b) := b.fresh
  let b := b.emitHead cfg.entry (.framePtr frame)
  let (ctx, b) := b.fresh
  let b := b.emitHead cfg.entry (.entryCtx ctx)
  (List.finRange 11).foldl
    (fun b r =>
      if !entryLoop cfg || r.isFramePtr then b.setCurrent cfg.entry r (b.entryEnv r) else b)
    b

def allPredsSealed (cfg : Cfg) (b : Builder) (node : Nat) : Bool := (cfg.preds node).all b.isSealed

/-- Append an input to the phi at a head position, with its place among the inputs. -/
def pushInput (input : Pred × SsaValue) : SsaInsn → SsaInsn
  | .phi dst inputs => .phi dst (inputs ++ [input])
  | insn => insn

def addInput (b : Builder) (block pos : Nat) (input : Pred × SsaValue) : Builder :=
  { b with heads := b.heads.modify block fun head => head.modify pos (pushInput input) }

/-- The inputs of the phi at a head position. -/
def inputsAt (b : Builder) (block pos : Nat) : List (Pred × SsaValue) :=
  match (b.heads.getD block [])[pos]? with
  | some (.phi _ inputs) => inputs
  | _ => []

/-- `mint_phi`: the version and its head position. -/
def mintPhi (cfg : Cfg) (b : Builder) (block : Nat) (reg : Reg) : SsaValue × Nat × Builder :=
  let (value, b) := b.fresh
  let b := b.setCurrent block reg value
  let pos := (b.heads.getD block []).length
  let b := b.emitHead block (.phi value [])
  let b :=
    if block = cfg.entry ∧ entryLoop cfg then b.addInput block pos (none, b.entryEnv reg) else b
  (value, pos, b)

section

/-- A read of a register in a block: its version there and the builder behind the read, unless the
fuel ran out. -/
abbrev Read := Builder → Nat → Reg → Option (SsaValue × Builder)

variable (cfg : Cfg) (read : Read)

/-- `complete_phi`. -/
def completePhi (b : Builder) (block pos : Nat) (reg : Reg) : Option Builder :=
  (cfg.preds block).foldlM
    (fun b pred => do
      let (operand, b) ← read b pred reg
      let idx := (b.inputsAt block pos).length
      let b := b.addInput block pos (some pred, operand)
      if b.isFilled pred then some b
      else some { b with stale := b.stale ++ [{ block, pos, idx, pred, reg }] })
    b

/-- Name the merge with a phi and complete it. -/
def merge (b : Builder) (block : Nat) (reg : Reg) : Option (SsaValue × Builder) := do
  let (value, pos, b) := b.mintPhi cfg block reg
  let b ← completePhi cfg read b block pos reg
  some (value, b)

/-- Read in a predecessor and remember the version. -/
def follow (b : Builder) (block pred : Nat) (reg : Reg) : Option (SsaValue × Builder) := do
  let (value, b) ← read b pred reg
  some (value, b.setCurrent block reg value)

/-- `resolve_uncached`. -/
def resolveUncached (b : Builder) (block : Nat) (reg : Reg) : Option (SsaValue × Builder) :=
  if !b.isSealed block then
    let (value, pos, b) := b.mintPhi cfg block reg
    some (value, { b with incomplete := b.incomplete.modify block (· ++ [(pos, reg)]) })
  else
    match cfg.preds block with
    | [pred] =>
      if pred = block then some (b.entryEnv reg, b.setCurrent block reg (b.entryEnv reg))
      else if b.isFilled pred && !b.isSealing pred then follow read b block pred reg
      else merge cfg read b block reg
    | _ => merge cfg read b block reg

/-- `read_recursive`. -/
def readRecursive (b : Builder) (block : Nat) (reg : Reg) : Option (SsaValue × Builder) :=
  if b.resolving.contains (block, reg) then merge cfg read b block reg
  else do
    let (value, b) ← resolveUncached cfg read { b with resolving := (block, reg) :: b.resolving } block reg
    some (value, { b with resolving := b.resolving.tail })

end

/-- `read`. -/
def read (cfg : Cfg) : Nat → Read
  | 0 => fun _ _ _ => none
  | fuel + 1 => fun b block reg =>
    match b.current block reg with
    | some value => some (value, b)
    | none => readRecursive cfg (read cfg fuel) b block reg

section

variable (cfg : Cfg) (fuel : Nat)

/-- `seal`. -/
def «seal» (b : Builder) (block : Nat) : Option Builder := do
  let pending := b.incomplete.getD block []
  let b := { b with
    sealing := b.sealing.set block true
    incomplete := b.incomplete.set block [] }
  let b ← pending.foldlM (fun b (pos, reg) => completePhi cfg (read cfg fuel) b block pos reg) b
  some { b with sealing := b.sealing.set block false, «sealed» := b.sealed.set block true }

/-- Read an operand; immediates stay inline. -/
def operand (b : Builder) (block : Nat) : Operand → Option (SsaOperand × Builder)
  | .reg r => do
    let (v, b) ← read cfg fuel b block r
    some (.value v, b)
  | .imm k => some (.imm k, b)

/-- `jump_targets`: the last edge of each kind. -/
def jumpTargets (block : Nat) : Option Nat × Option Nat :=
  let target (kind : EdgeKind) : Option Nat :=
    ((cfg.outEdges block).filter fun e => e.kind == kind).getLast?.map Edge.target
  (target .branchTrue, target .branchFalse)

/-- `is_bad_end`. -/
def isBadEnd (op : AluOp) (src : Operand) : Bool :=
  match op, src with
  | .byteSwap _, .imm w => !(w == 16 || w == 32 || w == 64)
  | .byteSwap _, .reg _ => true
  | _, _ => false

/-- An ALU instruction. -/
def fillAlu (b : Builder) (block : Nat) (width : Width) (op : AluOp) (dst : Reg) (src : Operand) :
    Option Builder :=
  if dst.isFramePtr ∧ !isBadEnd op src then some b
  else
    let binOp : Option Builder := do
      let (lhs, b) ← read cfg fuel b block dst
      let (rhs, b) ← operand cfg fuel b block src
      if dst.isFramePtr then
        let (value, b) := b.fresh
        some (b.emitBody block (.binOp value width op (.value lhs) rhs))
      else some (b.define block dst fun v => .binOp v width op (.value lhs) rhs)
    match op, width, src with
    | .mov, .b64, .reg src => do
      let (v, b) ← read cfg fuel b block src
      some (b.define block dst fun d => .copy d v)
    | _, _, _ => binOp

/-- One instruction of `fill`. A jump without the edge it needs does not return, nor does a read out
of fuel. -/
def fillInsn (b : Builder) (block pc : Nat) (insn : Insn) : Option (Except SsaError Builder) :=
  match insn with
  | .alu width op dst src => (fillAlu cfg fuel b block width op dst src).map .ok
  | .loadImm64 dst imm =>
    some (.ok (if dst.isFramePtr then b else b.define block dst fun v => .loadImm64 v imm))
  | .load size dst base offset => do
    let (base, b) ← read cfg fuel b block base
    if dst.isFramePtr then some (.ok (b.emitBody block (.load none size base offset)))
    else some (.ok (b.define block dst fun v => .load (some v) size base offset))
  | .store size base offset src => do
    let (base, b) ← read cfg fuel b block base
    let (src, b) ← operand cfg fuel b block src
    some (.ok (b.emitBody block (.store size base offset src)))
  | .jump _ .always _ _ _ => do
    let e ← (cfg.outEdges block).find? fun e => e.kind == .unconditional
    some (.ok (b.emitBody block (.ja e.target)))
  | .jump width op dst src _ => do
    let (lhs, b) ← read cfg fuel b block dst
    let (rhs, b) ← operand cfg fuel b block src
    let (trueTarget, falseTarget) := jumpTargets cfg block
    some (.ok (b.emitBody block (.br width op (.value lhs) rhs trueTarget falseTarget)))
  | .call func => do
    let (a1, b) ← read cfg fuel b block 1
    let (a2, b) ← read cfg fuel b block 2
    let (a3, b) ← read cfg fuel b block 3
    let (a4, b) ← read cfg fuel b block 4
    let (a5, b) ← read cfg fuel b block 5
    some (.ok (b.define block 0 fun v => .call v func #v[a1, a2, a3, a4, a5]))
  | .exit => do
    let (r0, b) ← read cfg fuel b block 0
    some (.ok (b.emitBody block (.exit r0)))
  | .unknown _ => some (.error (.illegalInstruction pc))

/-- `fill` from `pc` on. -/
def fillFrom (b : Builder) (block : Nat) : Nat → List Insn → Option (Except SsaError Builder)
  | _, [] => some (.ok b)
  | pc, insn :: rest => do
    match ← fillInsn cfg fuel b block pc insn with
    | .error e => some (.error e)
    | .ok b => fillFrom b block (pc + 1) rest

/-- One block of the reverse post-order. -/
def visit (insns : List Insn) (b : Builder) (node : Nat) : Option (Except SsaError Builder) := do
  let b := { b with live := b.live.set node true }
  let b := if b.allPredsSealed cfg node then { b with «sealed» := b.sealed.set node true } else b
  let range := cfg.blocks.getD node ⟨0, 0⟩
  match ← fillFrom cfg fuel b node range.start ((insns.drop range.start).take (range.stop - range.start)) with
  | .error e => some (.error e)
  | .ok b =>
    let b := { b with filled := b.filled.set node true }
    let b ← «seal» cfg fuel b node
    some (.ok b)

def visitAll (insns : List Insn) (b : Builder) : List Nat → Option (Except SsaError Builder)
  | [] => some (.ok b)
  | node :: rest => do
    match ← visit cfg fuel insns b node with
    | .error e => some (.error e)
    | .ok b => visitAll insns b rest

end

/-- Replace one input of a phi. -/
def setInput (idx : Nat) (value : SsaValue) : SsaInsn → SsaInsn
  | .phi dst inputs => .phi dst (inputs.modify idx fun input => (input.1, value))
  | insn => insn

/-- `repair`. -/
def repair (b : Builder) : Builder :=
  b.stale.foldl
    (fun b s =>
      if b.isFilled s.pred then
        match b.current s.pred s.reg with
        | some value =>
          { b with heads := b.heads.modify s.block fun head => head.modify s.pos (setInput s.idx value) }
        | none => b
      else b)
    { b with stale := [] }

/-- `finish`. -/
def finish (cfg : Cfg) (b : Builder) : SsaProgram :=
  { blocks := (List.range cfg.blocks.length).map fun i =>
      { insns := b.heads.getD i [] ++ b.bodies.getD i [], live := b.live.getD i false }
    edges := cfg.edges
    entry := cfg.entry
    defSites := b.defOrder.foldl
      (fun sites d =>
        let pos := if d.isHead then d.pos else (b.heads.getD d.block []).length + d.pos
        sites.set d.value (some (d.block, pos)))
      (List.replicate b.next none) }

end Builder

/-- `build_ssa`, with reads at most `fuel` deep. -/
def buildSsaWith (fuel : Nat) (insns : List Insn) (cfg : Cfg) : Option (Except SsaError SsaProgram) :=
  if insns.isEmpty then some (.error .emptyProgram)
  else do
    let b := (Builder.new cfg).prelude cfg
    match ← b.visitAll cfg fuel insns cfg.rpo with
    | .error e => some (.error e)
    | .ok b => some (.ok (b.repair.finish cfg))

/-- `build_ssa`. A read visits a block at most twice on its way. -/
def buildSsa (insns : List Insn) (cfg : Cfg) : Option (Except SsaError SsaProgram) :=
  buildSsaWith (2 * cfg.blocks.length + 2) insns cfg

end EbpfLab.Ssa
