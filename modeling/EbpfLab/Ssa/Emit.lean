import EbpfLab.Library.Moves
import EbpfLab.Ssa.Alloc

/-!
# Emission of data operations and calls

The part of `lower` that turns the straight-line operations of a block into instructions over the
allocated homes.
-/

namespace EbpfLab.Ssa
open Isa FlowGraph Library

inductive MoveSrc where
  | reg (r : Reg)
  | imm (k : Int32)
  | wide (k : Int64)
  deriving DecidableEq, Repr

/-- The register a source reads. -/
def MoveSrc.reads : MoveSrc → Option Reg
  | .reg r => some r
  | .imm _ | .wide _ => none

abbrev PlacedMove := Move Reg MoveSrc

/-- A same-home copy, which is elided. -/
def sameHome (m : PlacedMove) : Bool := m.src == .reg m.dst

structure Trampoline where
  moves : List PlacedMove
  target : Nat
  deriving DecidableEq, Repr

/-- What emission reads: the program, its homes and ranges, the reachable blocks and their layout, and
the collected phi moves. -/
structure Lower where
  prog : SsaProgram
  homes : Homes
  ranges : List (Nat × Nat)
  live : List Bool
  layout : List Nat
  endMoves : List (List PlacedMove)
  tramps : List Trampoline
  trampOf : List ((Nat × Nat) × Nat)

/-- `order_moves` over what is still pending. -/
def orderPending (cycle : SsaError) : Nat → List PlacedMove → Except SsaError (List PlacedMove)
  | 0, _ => .ok []
  | fuel + 1, pending =>
    if pending.isEmpty then .ok []
    else
      match pending.findIdx? fun m => !pending.any fun other => other.src == .reg m.dst with
      | none => .error cycle
      | some i => do
        let rest ← orderPending cycle fuel (pending.eraseIdx i)
        .ok (pending[i]?.toList ++ rest)

/-- `order_moves`: a move goes when no pending one reads its destination; same-home copies drop. -/
def orderMoves (moves : List PlacedMove) (cycle : SsaError) : Except SsaError (List PlacedMove) :=
  let pending := moves.filter (!sameHome ·)
  orderPending cycle pending.length pending

/-- `i32::try_from`. -/
def narrow (k : Int64) : Option Int32 :=
  if -2 ^ 31 ≤ k.toInt ∧ k.toInt < 2 ^ 31 then some k.toInt32 else none

def mov64 (dst src : Reg) : Insn := .alu .b64 .mov dst (.reg src)

/-- `emit_const`. -/
def emitConst (home : Reg) (value : Int64) : List Insn :=
  match narrow value with
  | some k => [.alu .b64 .mov home (.imm k)]
  | none => [.loadImm64 home value]

/-- `emit_move`. -/
def emitMove (placed : PlacedMove) : List Insn :=
  match placed.src with
  | .reg src => if src = placed.dst then [] else [mov64 placed.dst src]
  | .imm k => [.alu .b64 .mov placed.dst (.imm k)]
  | .wide k => [.loadImm64 placed.dst k]

/-- The conventional register of a call argument. -/
def convention (i : Nat) : Reg := Fin.ofNat 11 (i + 1)

namespace Lower

variable (lower : Lower)

/-- `home_of`. -/
def homeOf (v : SsaValue) : Option Reg := lower.homes.home v

/-- `require_home`. -/
def requireHome (v : SsaValue) : Except SsaError Reg :=
  match lower.homeOf v with
  | some home => .ok home
  | none => .error .outOfRegisters

/-- `move_src`: a home, or the constant of a version without one. -/
def moveSrc (v : SsaValue) : Except SsaError MoveSrc :=
  match lower.homeOf v with
  | some home => .ok (.reg home)
  | none =>
    match lower.prog.defOf v with
    | some (.const _ k) => .ok ((narrow k).elim (.wide k) .imm)
    | _ => .error .outOfRegisters

/-- `move_src_of`. -/
def moveSrcOf : SsaOperand → Except SsaError MoveSrc
  | .value v => lower.moveSrc v
  | .imm k => .ok (.imm k)

/-- `operand_of`. -/
def operandOf : SsaOperand → Except SsaError Operand
  | .value v => (lower.requireHome v).map .reg
  | .imm k => .ok (.imm k)

/-- Whether some input of a phi can define it. -/
def anchored (dst : SsaValue) (inputs : List (Pred × SsaValue)) : Bool :=
  inputs.any fun input =>
    match input.1 with
    | none => true
    | some pred => lower.live.getD pred false && input.2 != dst

/-- The move an ALU `mov` becomes; a same-home one is elided at any width. -/
def emitMov (width : Width) (home : Reg) (rhs : SsaOperand) : Except SsaError (List Insn) := do
  match ← lower.moveSrcOf rhs with
  | .reg r => .ok (if r = home then [] else [.alu width .mov home (.reg r)])
  | .imm k => .ok [.alu width .mov home (.imm k)]
  | .wide _ => .error .outOfRegisters

/-- The other ALU operations: the left operand moves to the result's home first. -/
def emitAlu (width : Width) (op : AluOp) (home : Reg) (lhs rhs : SsaOperand) :
    Except SsaError (List Insn) := do
  match lhs with
  | .imm _ => .error .outOfRegisters
  | .value v => do
    let lhs ← lower.moveSrc v
    let src ← lower.operandOf rhs
    .ok (emitMove { dst := home, src := lhs } ++ [.alu width op home src])

/-- `live_homes_at`. -/
def liveHomesAt (pos : Nat) : List Reg :=
  (lower.ranges.zipIdx.filter fun range => range.1.1 ≤ pos && decide (pos < range.1.2)).filterMap
    fun range => lower.homeOf range.2

/-- The moves of the arguments that are not in their conventional registers. -/
def shuffle (homes : List Reg) : List PlacedMove :=
  homes.zipIdx.filterMap fun arg =>
    if arg.1 = convention arg.2 then none
    else some { dst := convention arg.2, src := .reg arg.1 }

/-- The free home a shuffle destination is saved to. -/
def saveHome (liveHomes srcHomes : List Reg) (saves : List (Reg × Reg)) : Option Reg :=
  (pool ++ [1]).find? fun temp =>
    temp != 0 && !liveHomes.contains temp && !srcHomes.contains temp &&
      !saves.any fun save => save.2 == temp

/-- The shuffle destinations that hold live homes, each with the home it is saved to. -/
def callSaves (liveHomes srcHomes : List Reg) :
    List PlacedMove → List (Reg × Reg) → Except SsaError (List (Reg × Reg))
  | [], saves => .ok saves
  | placed :: rest, saves =>
    if liveHomes.contains placed.dst then
      match saveHome liveHomes srcHomes saves with
      | none => .error .callArgCycle
      | some temp => callSaves liveHomes srcHomes rest (saves ++ [(placed.dst, temp)])
    else callSaves liveHomes srcHomes rest saves

/-- `emit_call` up to the call, with the saves to restore. -/
def beforeCall (args : List SsaValue) (pos : Nat) : Except SsaError (List Insn × List (Reg × Reg)) := do
  let homes ← args.mapM lower.requireHome
  let shuffle := shuffle homes
  let srcHomes := shuffle.filterMap fun m => m.src.reads
  let saves ← callSaves (lower.liveHomesAt pos) srcHomes shuffle []
  let ordered ← orderMoves shuffle .callArgCycle
  .ok ((saves.map fun save => mov64 save.2 save.1) ++ ordered.flatMap emitMove, saves)

/-- `emit_call` behind the call: the result's move out of `r0`, then the restores. -/
def afterCall (dst : SsaValue) (saves : List (Reg × Reg)) : List Insn :=
  (match lower.homeOf dst with
    | some home => if home = 0 then [] else [mov64 home 0]
    | none => []) ++ saves.map fun save => mov64 save.1 save.2

/-- `emit_call`. -/
def emitCall (dst : SsaValue) (func : UInt32) (args : List SsaValue) (pos : Nat) :
    Except SsaError (List Insn) := do
  let (before, saves) ← lower.beforeCall args pos
  .ok (before ++ .call func :: lower.afterCall dst saves)

/-- The instruction at a flat position; control ops are emitted with their block. -/
def emitInsn (pos : Nat) : SsaInsn → Except SsaError (List Insn)
  | .phi dst inputs =>
    match lower.homeOf dst with
    | some home => .ok (if lower.anchored dst inputs then [] else emitConst home 0)
    | none => .ok []
  | .framePtr _ | .entryCtx _ | .br .. | .ja _ | .exit _ => .ok []
  | .const dst value =>
    match lower.homeOf dst with
    | some home => .ok (emitConst home value)
    | none => .ok []
  | .loadImm64 dst imm =>
    match lower.homeOf dst with
    | some home => .ok [.loadImm64 home imm]
    | none => .ok []
  | .copy dst src =>
    match lower.homeOf dst with
    | some home => do
      let src ← lower.moveSrc src
      .ok (emitMove { dst := home, src })
    | none => .ok []
  | .binOp dst width op lhs rhs =>
    match lower.homeOf dst with
    | some home =>
      match op with
      | .mov => lower.emitMov width home rhs
      | _ => lower.emitAlu width op home lhs rhs
    | none => .ok []
  | .load dst size base offset => do
    let base ← lower.requireHome base
    match dst with
    | some v => do
      let home ← lower.requireHome v
      .ok [.load size home base offset]
    | none => .error .r10FaultingLoad
  | .store size base offset src => do
    let base ← lower.requireHome base
    let src ← lower.operandOf src
    .ok [.store size base offset src]
  | .call dst func args => lower.emitCall dst func args.toList pos

end Lower

end EbpfLab.Ssa
