import EbpfLab.Cfg.Loops
import EbpfLab.Library.Search
import EbpfLab.Verifier.Transfer

/-!
# Iteration bounds

Trip counts of the natural loops, after the worklist has converged: each back edge by dominance, its
counter's stride, the init range of the counter at the header's first visit, and the total step cost.
Every shape the analysis cannot attribute is `UnboundedLoop` at the condition.
-/

namespace EbpfLab.Verifier
open Isa FlowGraph Library

abbrev Snapshot := Vector RegType 11

/-- A back edge and its attributed body. -/
structure NaturalLoop where
  header : Nat
  latch : Nat
  body : List Nat
  deriving DecidableEq, Repr

/-- A proven loop. -/
structure LoopBound where
  header : Nat
  latch : Nat
  condPc : Nat
  trips : Nat
  steps : Nat
  deriving DecidableEq, Repr

/-- Continue-condition after taken-ness normalization. -/
inductive Cc where
  | below (bound : Int64) (strict signed : Bool)
  | above (bound : Int64) (strict signed : Bool)
  | eq (bound : Int64) (hold : Bool)
  deriving DecidableEq, Repr

def Cc.bound : Cc → Int64
  | .below bound _ _ => bound
  | .above bound _ _ => bound
  | .eq bound _ => bound

def Cc.signed : Cc → Bool
  | .below _ _ signed => signed
  | .above _ _ signed => signed
  | .eq _ _ => false

/-! ### Natural loops -/

/-- The latch and everything that reaches it without passing the header, and the header. -/
def loopBody (cfg : Cfg) (header latch : Nat) : List Nat :=
  explore cfg.preds cfg.searchFuel [latch] [header]

/-- `natural_loops`: sorted by header and latch, one entry a pair. -/
def naturalLoops (petgraph : Petgraph) (cfg : Cfg) : List NaturalLoop :=
  let pairs := (cfg.edges.filter fun e =>
    e.source == e.target || dominates petgraph cfg e.target e.source).map fun e => (e.target, e.source)
  let sorted := pairs.insertionSort fun p q => p.1 < q.1 ∨ (p.1 = q.1 ∧ p.2 ≤ q.2)
  sorted.dedup.map fun (header, latch) => ⟨header, latch, loopBody cfg header latch⟩

def blockLen (cfg : Cfg) (node : Nat) : Nat :=
  match cfg.blocks[node]? with
  | some b => b.stop - b.start
  | none => 0

def blockStop (cfg : Cfg) (node : Nat) : Nat := (cfg.blocks[node]?.map BasicBlock.stop).getD 0

def blockStart (cfg : Cfg) (node : Nat) : Nat := (cfg.blocks[node]?.map BasicBlock.start).getD 0

/-- The last instruction of a block. -/
def lastInsn (cfg : Cfg) (insns : List Insn) (node : Nat) : Option Insn :=
  insns[blockStop cfg node - 1]?

/-! ### Counters -/

/-- The effect of one instruction of a loop body on the stride found so far. -/
def strideStep (counter : Reg) (pc : Nat) (insn : Insn) (stride : Option (Int64 × Nat)) :
    Option (Option (Int64 × Nat)) :=
  match insn with
  | .alu _ .add dst (.imm k) =>
    if dst = counter then if stride.isSome then none else some (some (k.toInt64, pc))
    else some stride
  | .alu _ .sub dst (.imm k) =>
    if dst = counter then if stride.isSome then none else some (some (-k.toInt64, pc))
    else some stride
  | .alu _ _ dst _ | .loadImm64 dst _ | .load _ dst _ _ =>
    if dst = counter then none else some stride
  | .call _ => if counter.val ≤ 5 then none else some stride
  | _ => some stride

/-- The instructions of a list of blocks with their indices. -/
def bodyInsns (cfg : Cfg) (insns : List Insn) (body : List Nat) : List (Nat × Insn) :=
  body.flatMap fun node =>
    (List.range' (blockStart cfg node) (blockLen cfg node)).filterMap fun pc =>
      insns[pc]?.map fun insn => (pc, insn)

/-- `find_stride`: the single constant update of the counter and its place. -/
def findStride (cfg : Cfg) (insns : List Insn) (body : List Nat) (counter : Reg) :
    Option (Int64 × Nat) :=
  let found := (bodyInsns cfg insns body).foldl
    (fun stride (pc, insn) => stride.bind (strideStep counter pc insn)) (some none)
  match found with
  | some (some (stride, site)) => if stride = 0 then none else some (stride, site)
  | _ => none

/-- `writes_counter`. -/
def writesCounter (insn : Insn) (counter : Reg) : Bool :=
  match insn with
  | .alu _ _ dst _ | .loadImm64 dst _ | .load _ dst _ _ => dst == counter
  | .call _ => counter.val ≤ 5
  | _ => false

/-- Whether block `node` holds instruction `pc`. -/
def holdsPc (cfg : Cfg) (pc node : Nat) : Bool :=
  blockStart cfg node ≤ pc && pc < blockStop cfg node

/-- `check_counter_provenance`: the stride block dominates the latch, and no other write of the
counter sits in a loop body. -/
def checkCounterProvenance (petgraph : Petgraph) (cfg : Cfg) (insns : List Insn) (loops : List NaturalLoop)
    (desc : NaturalLoop) (counter : Reg) (site : Nat) : Bool :=
  let live := match desc.body.find? (holdsPc cfg site) with
    | some node => dominates petgraph cfg node desc.latch
    | none => false
  live && insns.zipIdx.all fun (insn, pc) =>
    pc == site || !writesCounter insn counter ||
      !(loops.any fun l => l.body.any (holdsPc cfg pc))

def divCeil (a b : Int) : Int := (a + b - 1) / b

/-- `count_traversals`. -/
def countTraversals (cc : Cc) (stride lo hi : Int64) : Option Int :=
  match cc with
  | .below bound strict _ =>
    let edge := if strict then bound else saturatingAdd bound 1
    if !strict ∧ bound = Int64.maxValue then none
    else if stride ≤ 0 then if lo < edge then none else some 0
    else if lo ≥ edge then some 0
    else some (divCeil (edge.toInt - lo.toInt) stride.toInt)
  | .above bound strict _ =>
    let edge := if strict then bound else saturatingSub bound 1
    if !strict ∧ bound = Int64.minValue then none
    else if stride ≥ 0 then if hi > edge then none else some 0
    else if hi ≤ edge then some 0
    else some (divCeil (hi.toInt - edge.toInt) (-stride.toInt))
  | .eq bound hold =>
    if lo ≠ hi then none
    else
      match decide (lo = bound), hold with
      | true, true => some 1
      | true, false | false, true => some 0
      | false, false =>
        if stride ≠ 1 ∧ stride ≠ -1 then none else some (bound.toInt - lo.toInt).natAbs

/-- The canonical continue-condition of a comparison taken on the back edge or not. -/
def continueCondition (op : JumpOp) (k : Int64) (backTaken : Bool) : Option Cc :=
  match op, backTaken with
  | .always, _ | .set, _ | .call, _ | .exit, _ => none
  | .eq, taken => some (.eq k taken)
  | .ne, taken => some (.eq k !taken)
  | .lt, true | .ge, false => some (.below k true false)
  | .lt, false | .ge, true => some (.above k false false)
  | .gt, true | .le, false => some (.above k true false)
  | .gt, false | .le, true => some (.below k false false)
  | .slt, true | .sge, false => some (.below k true true)
  | .slt, false | .sge, true => some (.above k false true)
  | .sgt, true | .sle, false => some (.above k true true)
  | .sgt, false | .sle, true => some (.below k false true)

/-- The traversals of `trips_from_cond`, `none` for every shape it refuses. -/
def traversalsFrom (petgraph : Petgraph) (cfg : Cfg) (insns : List Insn) (snapshots : List (Option Snapshot))
    (loops : List NaturalLoop) (desc : NaturalLoop) (op : JumpOp) (counter : Reg) (k : Int32)
    (backTaken : Bool) : Option Nat := do
  let cc ← continueCondition op k.toInt64 backTaken
  if counter.isFramePtr then none
  let (stride, site) ← findStride cfg insns desc.body counter
  if !checkCounterProvenance petgraph cfg insns loops desc counter site then none
  match snapshots[desc.header]?.join with
  | none => some 0
  | some snapshot =>
    match snapshot.get counter with
    | .scalar (.interval lo hi) => do
      if !cc.signed ∧ (lo < 0 ∨ cc.bound < 0) then none
      let traversals ← countTraversals cc stride lo hi
      if 0 ≤ traversals ∧ traversals < 2 ^ 64 then some traversals.toNat else none
    | _ => none

/-- `trips_from_cond`: the condition's place and the back-edge traversals. -/
def tripsFromCond (petgraph : Petgraph) (cfg : Cfg) (insns : List Insn) (snapshots : List (Option Snapshot))
    (loops : List NaturalLoop) (desc : NaturalLoop) (op : JumpOp) (counter : Reg) (k : Int32)
    (backTaken : Bool) : Except VerifyError (Nat × Nat) :=
  let condPc := blockStop cfg desc.latch - 1
  match traversalsFrom petgraph cfg insns snapshots loops desc op counter k backTaken with
  | none => .error (.unboundedLoop condPc)
  | some traversals => .ok (condPc, traversals)

/-- The header-conditioned half of `infer_traversals`: an unconditional latch, and a header whose
condition enters the body. -/
def inferFromHeader (petgraph : Petgraph) (cfg : Cfg) (insns : List Insn) (snapshots : List (Option Snapshot))
    (loops : List NaturalLoop) (desc : NaturalLoop) : Except VerifyError (Nat × Nat) :=
  match lastInsn cfg insns desc.latch with
  | some (.jump _ .always _ _ _) =>
    match lastInsn cfg insns desc.header with
    | some (.jump _ op dst (.imm k) _) =>
      match (cfg.outEdges desc.header).find? fun e => desc.body.contains e.target with
      | some e => tripsFromCond petgraph cfg insns snapshots loops desc op dst k (e.kind == .branchTrue)
      | none => .error (.unboundedLoop (blockStart cfg desc.header))
    | _ => .error (.unboundedLoop (blockStart cfg desc.header))
  | _ => .error (.unboundedLoop (blockStart cfg desc.latch))

/-- `infer_traversals`. -/
def inferTraversals (petgraph : Petgraph) (cfg : Cfg) (insns : List Insn) (snapshots : List (Option Snapshot))
    (loops : List NaturalLoop) (desc : NaturalLoop) : Except VerifyError (Nat × Nat) :=
  match lastInsn cfg insns desc.latch with
  | some (.jump _ op dst (.imm k) _) =>
    match (cfg.outEdges desc.latch).find? fun e => op != .always && e.target == desc.header with
    | some e => tripsFromCond petgraph cfg insns snapshots loops desc op dst k (e.kind == .branchTrue)
    | none => inferFromHeader petgraph cfg insns snapshots loops desc
  | _ => inferFromHeader petgraph cfg insns snapshots loops desc

/-! ### Totals -/

/-- Whether `inner` is a strictly smaller loop inside `outer` headed by `node`. -/
def headsInner (outer inner : NaturalLoop) (node : Nat) : Bool :=
  inner.body.length < outer.body.length && inner.body.all outer.body.contains &&
    inner.header == node

/-- The cost of one block of a loop: an inner loop's total at its header, else its length. -/
def bodyCost (cfg : Cfg) (loops : List NaturalLoop) (totals : List (Option Nat)) (index : Nat)
    (desc : NaturalLoop) (node : Nat) : Nat :=
  match loops.zipIdx.find? fun (inner, j) => j != index && headsInner desc inner node with
  | some (_, j) => (totals[j]?.join).getD (blockLen cfg node)
  | none => blockLen cfg node

/-- `loop_total`. -/
def loopTotal (petgraph : Petgraph) (cfg : Cfg) (insns : List Insn) (snapshots : List (Option Snapshot))
    (loops : List NaturalLoop) (totals : List (Option Nat)) (index : Nat) (desc : NaturalLoop) :
    Except VerifyError LoopBound := do
  let (condPc, traversals) ← inferTraversals petgraph cfg insns snapshots loops desc
  let body := (desc.body.map (bodyCost cfg loops totals index desc)).sum
  let steps := (traversals + 1) * body
  if steps < 2 ^ 64 then
    .ok { header := desc.header, latch := desc.latch, condPc, trips := traversals + 1, steps }
  else .error (.unboundedLoop condPc)

/-- The loop of `enforce_loop_bounds` over loop numbers, smaller bodies first. -/
def enforceFrom (petgraph : Petgraph) (cfg : Cfg) (insns : List Insn) (snapshots : List (Option Snapshot))
    (loops : List NaturalLoop) (maxSteps : Option Nat) :
    List Nat → List (Option Nat) → List LoopBound → Except VerifyError (List LoopBound)
  | [], _, out => .ok out
  | i :: order, totals, out =>
    match loops[i]? with
    | none => enforceFrom petgraph cfg insns snapshots loops maxSteps order totals out
    | some desc => do
      let total ← loopTotal petgraph cfg insns snapshots loops totals i desc
      match maxSteps with
      | some limit =>
        if total.steps > limit then
          throw (.loopBudgetExceeded total.condPc total.trips limit)
      | none => pure ()
      enforceFrom petgraph cfg insns snapshots loops maxSteps order (totals.set i (some total.steps))
        (out ++ [total])

/-- `enforce_loop_bounds`. -/
def enforceLoopBounds (petgraph : Petgraph) (cfg : Cfg) (insns : List Insn) (snapshots : List (Option Snapshot))
    (maxSteps : Option Nat) : Except VerifyError (List LoopBound) :=
  if !hasBackEdge petgraph cfg then .ok []
  else
    let loops := naturalLoops petgraph cfg
    let size (i : Nat) : Nat := (loops[i]?.map fun l => l.body.length).getD 0
    let order := (List.range loops.length).insertionSort fun i j => size i ≤ size j
    do
      let out ← enforceFrom petgraph cfg insns snapshots loops maxSteps order
        (List.replicate loops.length none) []
      .ok (out.insertionSort fun a b =>
        a.header < b.header ∨ (a.header = b.header ∧ a.latch ≤ b.latch))

end EbpfLab.Verifier
