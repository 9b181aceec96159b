import EbpfLab.Ssa.Syntax
import EbpfLab.Vm.Exec

/-!
# Running SSA programs

A run starts at the entry block, arriving from the start sentinel. The phis of a block are evaluated
in parallel from the inputs of the edge it was entered by; reading a version that was never
assigned, or a phi without an input for that edge, is stuck. What a run shows is the list of the
worlds its stores and calls left, and how it ended.
-/

namespace EbpfLab.Ssa
open Isa FlowGraph Interp

/-- A `VmError` without the places it names. -/
inductive Fault where
  | illegalInstruction | jumpOutOfBounds
  | unknownHelper (func : UInt32)
  | invalidEndWidth (width : Int64)
  | stepsExceeded (limit : Nat)
  | memory (e : MemError)
  deriving DecidableEq, Repr

def Fault.of : VmError → Fault
  | .illegalInstruction _ => .illegalInstruction
  | .jumpOutOfBounds _ _ => .jumpOutOfBounds
  | .unknownHelper func => .unknownHelper func
  | .invalidEndWidth _ width => .invalidEndWidth width
  | .stepsExceeded limit => .stepsExceeded limit
  | .memory e => .memory e

inductive Ending where
  | exit (code : Int64)
  | fault (kind : Fault)
  | fallOff
  deriving DecidableEq, Repr

/-- What a run is given: the helpers and the initial `r1`. -/
structure Machine where
  helpers : HelperRegistry
  ctx : Int64

abbrev Env := SsaValue → Option Int64

namespace Env

def set (env : Env) (v : SsaValue) (x : Int64) : Env := fun w => if w = v then some x else env w

def operand (env : Env) : SsaOperand → Option Int64
  | .value v => env v
  | .imm k => some k.toInt64

/-- The registers a helper sees: the arguments in `r1`–`r5`. -/
def argRegs (env : Env) (args : Vector SsaValue 5) : Option Regs :=
  (args.toList.mapM env).map fun xs r => if r = 0 then 0 else xs.getD (r.val - 1) 0

end Env

/-- How control leaves a block. -/
inductive Leave where
  | goto (block : Nat)
  | ended (ending : Ending)
  | stuck
  deriving DecidableEq, Repr

inductive InsnResult where
  | next (env : Env)
  | effect (env : Env) (world : World)
  | leave (how : Leave)

/-- Read a value or be stuck. -/
def reading {α : Type} (x : Option α) (use : α → InsnResult) : InsnResult :=
  match x with
  | none => .leave .stuck
  | some x => use x

/-- Go to a target, or off the end without one. -/
def goto : Option Nat → Leave
  | some block => .goto block
  | none => .ended .fallOff

/-- Whether an operation traps on its right-hand side. -/
def badEnd (op : AluOp) (rhs : Int64) : Bool :=
  match op with
  | .byteSwap _ => !validEndWidth rhs
  | _ => false

/-- One instruction; phis are evaluated at the block's entry. -/
def execInsn (m : Machine) (insn : SsaInsn) (env : Env) (world : World) : InsnResult :=
  match insn with
  | .const dst value => .next (env.set dst value)
  | .framePtr dst => .next (env.set dst stackBase)
  | .entryCtx dst => .next (env.set dst m.ctx)
  | .loadImm64 dst imm => .next (env.set dst imm)
  | .copy dst src => reading (env src) fun x => .next (env.set dst x)
  | .binOp dst width op lhs rhs =>
    reading (env.operand lhs) fun l => reading (env.operand rhs) fun r =>
      if badEnd op r then .leave (.ended (.fault (.invalidEndWidth r)))
      else .next (env.set dst (op.apply l r width))
  | .load dst size base offset =>
    reading (env base) fun addr =>
      match world.memory.load (addr + offset.toInt64) size with
      | .error e => .leave (.ended (.fault (.memory e)))
      | .ok x =>
        match dst with
        | some dst => .next (env.set dst x)
        | none => .next env
  | .store size base offset src =>
    reading (env base) fun addr => reading (env.operand src) fun x =>
      match world.memory.store (addr + offset.toInt64) size x with
      | .error e => .leave (.ended (.fault (.memory e)))
      | .ok memory => .effect env { world with memory }
  | .call dst func args =>
    reading (env.argRegs args) fun regs =>
      match m.helpers func with
      | none => .leave (.ended (.fault (.unknownHelper func)))
      | some helper =>
        match helper regs world with
        | .error e => .leave (.ended (.fault (.of e)))
        | .ok (r0, world) => .effect (env.set dst r0) world
  | .phi .. => .leave .stuck
  | .br width op lhs rhs trueTarget falseTarget =>
    reading (env.operand lhs) fun l => reading (env.operand rhs) fun r =>
      .leave (goto (if jumpTaken op l r width then trueTarget else falseTarget))
  | .ja target => .leave (.goto target)
  | .exit r0 => reading (env r0) fun code => .leave (.ended (.exit code))

/-- The worlds left by effects, the state at the end, and how control left if it did. -/
structure ListResult where
  effects : List World
  env : Env
  world : World
  how : Option Leave

def execList (m : Machine) : List SsaInsn → Env → World → ListResult
  | [], env, world => { effects := [], env, world, how := none }
  | insn :: rest, env, world =>
    match execInsn m insn env world with
    | .next env => execList m rest env world
    | .effect env world =>
      let r := execList m rest env world
      { r with effects := world :: r.effects }
    | .leave how => { effects := [], env, world, how := some how }

/-- The version a phi takes when its block is entered from `pred`. -/
def phiInput (pred : Pred) (inputs : List (Pred × SsaValue)) : Option SsaValue :=
  (inputs.find? fun input => input.1 == pred).map Prod.snd

/-- Assign phis, reading their inputs in `before`. -/
def evalPhis (pred : Pred) (before : Env) : List SsaInsn → Env → Option Env
  | .phi dst inputs :: rest, env =>
    ((phiInput pred inputs).bind before).bind fun x => evalPhis pred before rest (env.set dst x)
  | _ :: rest, env => evalPhis pred before rest env
  | [], env => some env

/-- A block's instructions before its phis, its phis, and those after. -/
def SsaBlock.prelude (b : SsaBlock) : List SsaInsn := b.insns.takeWhile (!·.isPhi)

def SsaBlock.phis (b : SsaBlock) : List SsaInsn :=
  (b.insns.dropWhile (!·.isPhi)).takeWhile SsaInsn.isPhi

def SsaBlock.body (b : SsaBlock) : List SsaInsn :=
  (b.insns.dropWhile (!·.isPhi)).dropWhile SsaInsn.isPhi

/-- The block control falls through to. -/
def SsaProgram.fallsTo (prog : SsaProgram) (block : Nat) : Option Nat :=
  ((prog.outEdges block).find? fun e => e.kind == .fallthrough).map Edge.target

structure BlockResult where
  effects : List World
  env : Env
  world : World
  how : Leave

/-- Close a list's result: without a control op, fall through. -/
def ListResult.close (r : ListResult) (prog : SsaProgram) (block : Nat) : BlockResult :=
  { effects := r.effects, env := r.env, world := r.world
    how := r.how.getD (goto (prog.fallsTo block)) }

/-- Run the block `b`, entered from `pred`. -/
def execBlock (m : Machine) (prog : SsaProgram) (pred : Pred) (block : Nat) (b : SsaBlock) (env : Env)
    (world : World) : BlockResult :=
  let first := execList m b.prelude env world
  if first.how.isSome then first.close prog block
  else
    match evalPhis pred first.env b.phis first.env with
    | none => { effects := first.effects, env := first.env, world := first.world, how := .stuck }
    | some env =>
      let second := execList m b.body env first.world
      { second with effects := first.effects ++ second.effects }.close prog block

inductive RunEnd where
  | ended (ending : Ending)
  | stuck
  | running
  deriving DecidableEq, Repr

/-- Run `fuel` blocks. -/
def runFrom (m : Machine) (prog : SsaProgram) : Nat → Pred → Nat → Env → World → List World × RunEnd
  | 0, _, _, _, _ => ([], .running)
  | fuel + 1, pred, block, env, world =>
    match prog.blocks[block]? with
    | none => ([], .stuck)
    | some b =>
      let r := execBlock m prog pred block b env world
      match r.how with
      | .goto next =>
        let rest := runFrom m prog fuel (some block) next r.env r.world
        (r.effects ++ rest.1, rest.2)
      | .ended ending => (r.effects, .ended ending)
      | .stuck => (r.effects, .stuck)

/-- The run from the start, over `fuel` blocks. -/
def run (m : Machine) (prog : SsaProgram) (world : World) (fuel : Nat) : List World × RunEnd :=
  runFrom m prog fuel none prog.entry (fun _ => none) world

end EbpfLab.Ssa
