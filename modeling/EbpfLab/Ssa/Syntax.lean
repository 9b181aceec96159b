import EbpfLab.Cfg.Build

/-!
# SSA programs

`SsaProgram` of `ebpf-ssa`. The flat instruction vector with a range per block is a list per block
here, so an instruction's place is a block and a position in it; `defSites` records the place of
each version's definition, as the source's table records flat indices.
-/

namespace EbpfLab.Ssa
open Isa FlowGraph

/-- A version number. The source counts in `u32`, which 2^32 versions overflow; here it is unbounded. -/
abbrev SsaValue := Nat

inductive SsaOperand where
  | value (v : SsaValue)
  | imm (k : Int32)
  deriving DecidableEq, Repr

/-- A phi input's predecessor: a block, or `none` for the start sentinel. -/
abbrev Pred := Option Nat

inductive SsaInsn where
  | const (dst : SsaValue) (value : Int64)
  | framePtr (dst : SsaValue)
  | entryCtx (dst : SsaValue)
  | copy (dst src : SsaValue)
  | binOp (dst : SsaValue) (width : Width) (op : AluOp) (lhs rhs : SsaOperand)
  | loadImm64 (dst : SsaValue) (imm : Int64)
  | load (dst : Option SsaValue) (size : MemSize) (base : SsaValue) (offset : Int16)
  | store (size : MemSize) (base : SsaValue) (offset : Int16) (src : SsaOperand)
  | call (dst : SsaValue) (func : UInt32) (args : Vector SsaValue 5)
  | phi (dst : SsaValue) (inputs : List (Pred × SsaValue))
  | br (width : Width) (op : JumpOp) (lhs rhs : SsaOperand) (trueTarget falseTarget : Option Nat)
  | ja (target : Nat)
  | exit (r0 : SsaValue)
  deriving DecidableEq, Repr

namespace SsaOperand

def uses : SsaOperand → List SsaValue
  | .value v => [v]
  | .imm _ => []

def map (f : SsaValue → SsaValue) : SsaOperand → SsaOperand
  | .value v => .value (f v)
  | .imm k => .imm k

end SsaOperand

namespace SsaInsn

/-- `def_dst`. -/
def defDst : SsaInsn → Option SsaValue
  | .const dst _ | .framePtr dst | .entryCtx dst | .copy dst _ | .binOp dst _ _ _ _
  | .loadImm64 dst _ | .call dst _ _ | .phi dst _ => some dst
  | .load dst _ _ _ => dst
  | .store .. | .br .. | .ja _ | .exit _ => none

/-- The value-position uses that `for_each_use` visits and `rewrite_uses` rewrites. -/
def uses : SsaInsn → List SsaValue
  | .const .. | .framePtr _ | .entryCtx _ | .loadImm64 .. | .ja _ => []
  | .copy _ src => [src]
  | .binOp _ _ _ lhs rhs | .br _ _ lhs rhs _ _ => lhs.uses ++ rhs.uses
  | .load _ _ base _ => [base]
  | .store _ base _ src => base :: src.uses
  | .call _ _ args => args.toList
  | .phi _ inputs => inputs.map Prod.snd
  | .exit r0 => [r0]

/-- Replace every use. -/
def mapUses (f : SsaValue → SsaValue) : SsaInsn → SsaInsn
  | .copy dst src => .copy dst (f src)
  | .binOp dst width op lhs rhs => .binOp dst width op (lhs.map f) (rhs.map f)
  | .load dst size base offset => .load dst size (f base) offset
  | .store size base offset src => .store size (f base) offset (src.map f)
  | .call dst func args => .call dst func (args.map f)
  | .phi dst inputs => .phi dst (inputs.map fun (pred, v) => (pred, f v))
  | .br width op lhs rhs trueTarget falseTarget =>
    .br width op (lhs.map f) (rhs.map f) trueTarget falseTarget
  | .exit r0 => .exit (f r0)
  | insn => insn

def isPhi : SsaInsn → Bool
  | .phi .. => true
  | _ => false

/-- The control ops, which close their block. -/
def isControl : SsaInsn → Bool
  | .br .. | .ja _ | .exit _ => true
  | _ => false

end SsaInsn

structure SsaBlock where
  insns : List SsaInsn
  live : Bool
  deriving DecidableEq, Repr

/-- A block and a position in it. -/
abbrev Site := Nat × Nat

structure SsaProgram where
  blocks : List SsaBlock
  edges : List Edge
  entry : Nat
  defSites : List (Option Site)
  deriving DecidableEq, Repr

namespace SsaProgram

def insnAt (prog : SsaProgram) (site : Site) : Option SsaInsn :=
  prog.blocks[site.1]?.bind fun b => b.insns[site.2]?

/-- `def_index`: the recorded site of a version, when an instruction is there. -/
def defIndex (prog : SsaProgram) (v : SsaValue) : Option Site :=
  prog.defSites[v]?.join.filter fun site => (prog.insnAt site).isSome

/-- `def_of`. -/
def defOf (prog : SsaProgram) (v : SsaValue) : Option SsaInsn :=
  prog.defSites[v]?.join.bind prog.insnAt

/-- `const_value`. -/
def constValue (prog : SsaProgram) : SsaOperand → Option Int64
  | .imm k => some k.toInt64
  | .value v =>
    match prog.defOf v with
    | some (.const _ value) => some value
    | some (.loadImm64 _ imm) => some imm
    | _ => none

def isLive (prog : SsaProgram) (block : Nat) : Bool :=
  (prog.blocks[block]?.map SsaBlock.live).getD false

/-- Whether a phi input counts: the start sentinel, or a live block. -/
def predLive (prog : SsaProgram) : Pred → Bool
  | none => true
  | some block => prog.isLive block

/-- The places of the instructions of a block. -/
def blockSites (block : Nat) (b : SsaBlock) : List (Site × SsaInsn) :=
  b.insns.zipIdx.map fun (insn, i) => ((block, i), insn)

/-- The places of the instructions of the live blocks, in order. -/
def liveSites (prog : SsaProgram) : List (Site × SsaInsn) :=
  prog.blocks.zipIdx.flatMap fun (b, block) => if b.live then blockSites block b else []

/-- `rebuild_def_sites`. -/
def rebuildDefSites (prog : SsaProgram) : SsaProgram :=
  { prog with
    defSites := prog.liveSites.foldl
      (fun sites (site, insn) =>
        match insn.defDst with
        | some dst => sites.set dst (some site)
        | none => sites)
      (List.replicate prog.defSites.length none) }

/-- `terminator`: the first control op. -/
def terminator (prog : SsaProgram) (block : Nat) : Option SsaInsn :=
  prog.blocks[block]?.bind fun b => b.insns.find? SsaInsn.isControl

/-- Whether a block ends in a branch that is never taken. -/
def deadTaken (prog : SsaProgram) (block : Nat) : Bool :=
  match prog.terminator block with
  | some (.br _ .call _ _ _ _) | some (.br _ .exit _ _ _ _) => true
  | _ => false

/-- `graph.edges(block)`, latest first. -/
def outEdges (prog : SsaProgram) (block : Nat) : List Edge :=
  (prog.edges.filter fun e => e.source == block).reverse

/-- `live_successors`. -/
def liveSuccessors (prog : SsaProgram) (block : Nat) : List Nat :=
  (prog.outEdges block).filterMap fun e =>
    if prog.deadTaken block && e.kind == .branchTrue then none else some e.target

end SsaProgram

end EbpfLab.Ssa
