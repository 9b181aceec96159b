import EbpfLab.Ssa.Construct
import Mathlib.Data.List.Sort

/-!
# Register allocation

`allocate`: a linear scan over the flat program order, with `r10` and `r1` pinned for the pseudos.
A live range runs from a version's definition to behind its last use; a use inside a cycle or before
the definition keeps the home to the end of the program.
-/

namespace EbpfLab.Ssa
open Isa FlowGraph Library

/-! ### Flat positions -/

namespace SsaProgram

/-- The flat index of a block's first instruction. -/
def blockStart (prog : SsaProgram) (block : Nat) : Nat :=
  ((prog.blocks.take block).map fun b => b.insns.length).sum

def blockEnd (prog : SsaProgram) (block : Nat) : Nat :=
  prog.blockStart block + (prog.blocks[block]?.map fun b => b.insns.length).getD 0

def flat (prog : SsaProgram) (site : Site) : Nat := prog.blockStart site.1 + site.2

/-- `len`. -/
def len (prog : SsaProgram) : Nat := (prog.blocks.map fun b => b.insns.length).sum

/-- The entry of `def_sites`; an unresolved one is `usize::MAX`. -/
def defPos (prog : SsaProgram) (v : SsaValue) : Nat :=
  match prog.defSites[v]?.join with
  | some site => prog.flat site
  | none => 2 ^ 64 - 1

/-- Where a phi's inputs from live blocks are used: at the ends of the blocks. -/
def inputUses (prog : SsaProgram) (inputs : List (Pred × SsaValue)) : List (Nat × SsaValue) :=
  inputs.filterMap fun input =>
    input.1.bind fun p => if prog.isLive p then some (prog.blockEnd p, input.2) else none

/-- `reg_uses`. -/
def regUses (prog : SsaProgram) : List (Nat × SsaValue) :=
  prog.liveSites.flatMap fun place =>
    match place.2 with
    | .phi _ inputs => prog.inputUses inputs
    | insn => insn.uses.map fun v => (prog.flat place.1, v)

/-- `start_uses`. -/
def startUses (prog : SsaProgram) : List (Nat × SsaValue) :=
  prog.liveSites.flatMap fun place =>
    match place.2 with
    | .phi _ inputs =>
      (inputs.filter fun input => input.1.isNone).map fun input => (prog.flat place.1, input.2)
    | _ => []

/-- `cyclic_blocks`: blocks in a component of several, and blocks with an edge to themselves. -/
def cyclic (petgraph : Petgraph) (prog : SsaProgram) (block : Nat) : Bool :=
  (petgraph.tarjanScc prog.blocks.length prog.edges).any fun scc =>
    match scc with
    | [node] => node == block && prog.edges.any fun e => e.source == node && e.target == node
    | _ => scc.contains block

/-- Whether a flat position lies in a live block on a cycle. -/
def inCycle (petgraph : Petgraph) (prog : SsaProgram) (pos : Nat) : Bool :=
  prog.blocks.zipIdx.any fun place =>
    place.1.live && (prog.blockStart place.2 ≤ pos && pos < prog.blockEnd place.2) &&
      prog.cyclic petgraph place.2

/-- Whether a version is `FramePtr` or `EntryCtx`, which emit nothing. -/
def isPseudo (prog : SsaProgram) (v : SsaValue) : Bool :=
  match prog.defOf v with
  | some (.framePtr _) | some (.entryCtx _) => true
  | _ => false

/-- The end a use at `pos` asks of a range that starts at `start`. -/
def useEnd (petgraph : Petgraph) (prog : SsaProgram) (start pos : Nat) : Nat :=
  if prog.inCycle petgraph pos || decide (pos < start) then prog.len else pos + 1

/-- The end a start inflow at `pos` asks for. -/
def startEnd (petgraph : Petgraph) (prog : SsaProgram) (v : SsaValue) (start pos : Nat) : Nat :=
  if prog.inCycle petgraph pos && !prog.isPseudo v || decide (pos < start) then prog.len else pos

/-- `live_ranges`: the definition of a version and the end of its range. -/
def liveRange (petgraph : Petgraph) (prog : SsaProgram) (v : SsaValue) : Nat × Nat :=
  let start := prog.defPos v
  let ends := ((prog.regUses.filter fun use => use.2 == v).map fun use => prog.useEnd petgraph start use.1) ++
    ((prog.startUses.filter fun use => use.2 == v).map fun use => prog.startEnd petgraph v start use.1)
  (start, ends.foldl max start)

def isCall : SsaInsn → Bool
  | .call .. => true
  | _ => false

/-- The flat positions of the calls in live blocks. -/
def calls (prog : SsaProgram) : List Nat :=
  (prog.liveSites.filter fun place => isCall place.2).map fun place => prog.flat place.1

end SsaProgram

/-- What allocation and lowering share. -/
structure Liveness where
  uses : List (Nat × SsaValue)
  starts : List (Nat × SsaValue)
  ranges : List (Nat × Nat)
  calls : List Nat

/-- `Liveness::compute`. -/
def Liveness.compute (petgraph : Petgraph) (prog : SsaProgram) : Liveness :=
  { uses := prog.regUses
    starts := prog.startUses
    ranges := (List.range prog.defSites.length).map (prog.liveRange petgraph)
    calls := prog.calls }

namespace Liveness

def range (live : Liveness) (v : SsaValue) : Nat × Nat := live.ranges.getD v (0, 0)

end Liveness

/-! ### Homes -/

/-- `POOL`. -/
def pool : List Reg := [0, 2, 3, 4, 5, 6, 7, 8, 9]

/-- A held home, until when, and by which version. -/
structure Holding where
  home : Reg
  stop : Nat
  holder : SsaValue
  deriving DecidableEq, Repr

/-- Homes by version; `none` means no location is needed. -/
abbrev Homes := List (Option Reg)

def Homes.home (homes : Homes) (v : SsaValue) : Option Reg := homes[v]?.join

/-- What the pass over all instructions collects. -/
structure Demand where
  used : List Bool
  argPrefs : List (List Reg)
  homes : Homes
  active : List Holding

/-- `r0_available`: no call lies strictly inside. -/
def r0Available (calls : List Nat) (start stop : Nat) : Bool :=
  !calls.any fun call => start < call && call < stop

namespace Demand

def isUsed (d : Demand) (v : SsaValue) : Bool := d.used.getD v false

def use (d : Demand) (v : SsaValue) : Demand := { d with used := d.used.set v true }

/-- Give a pinned pseudo its home when it is used. -/
def pin (d : Demand) (ranges : Liveness) (v : SsaValue) (home : Reg) : Demand :=
  if d.isUsed v then
    { d with
      homes := d.homes.set v (some home)
      active := d.active ++ [{ home, stop := (ranges.range v).2, holder := v }] }
  else d

/-- Prefer the conventional register of each argument. -/
def prefer (d : Demand) (args : List SsaValue) : Demand :=
  args.zipIdx.foldl
    (fun d (arg, i) => { d with argPrefs := d.argPrefs.modify arg (· ++ [Fin.ofNat 11 (i + 1)]) }) d

/-- One instruction of the pass. -/
def scan (prog : SsaProgram) (live : Liveness) (d : Demand) : SsaInsn → Demand
  | .load (some v) _ _ _ => d.use v
  | .binOp dst _ (.byteSwap _) _ rhs =>
    if (prog.constValue rhs).any validEndWidth then d else d.use dst
  | .call _ _ args => d.prefer args.toList
  | .framePtr dst => d.pin live dst 10
  | .entryCtx dst => d.pin live dst 1
  | _ => d

/-- The demand of a program. -/
def collect (prog : SsaProgram) (live : Liveness) : Demand :=
  let count := prog.defSites.length
  let none : Demand :=
    { used := List.replicate count false, argPrefs := List.replicate count []
      homes := List.replicate count none, active := [] }
  let read := (live.uses ++ live.starts).foldl (fun d use => d.use use.2) none
  (prog.blocks.flatMap SsaBlock.insns).foldl (scan prog live) read

end Demand

/-- `coalesce_phi_home`: the first free home of an input. -/
def coalescePhiHome (prog : SsaProgram) (homes : Homes) (active : List Holding) (v : SsaValue) :
    Option Reg :=
  match prog.defOf v with
  | some (.phi _ inputs) =>
    inputs.findSome? fun input =>
      (homes.home input.2).filter fun home =>
        home != 10 && active.all fun held => held.home != home
  | _ => none

/-- `coalesce_binop_lhs`: the home of a left operand that dies here. -/
def coalesceBinopLhs (prog : SsaProgram) (homes : Homes) (active : List Holding) (live : Liveness)
    (v : SsaValue) (start : Nat) : Option Reg :=
  match prog.defOf v with
  | some (.binOp _ _ _ (.value lhs) _) =>
    (homes.home lhs).filter fun home =>
      home != 10 && active.all fun held =>
        held.home != home ||
          (held.holder == lhs && held.stop == start + 1 && (live.range lhs).1 ≤ start &&
            decide (start < held.stop))
  | _ => none

/-- The home the scan chooses for a version. -/
def chooseHome (prog : SsaProgram) (live : Liveness) (prefs : List Reg) (homes : Homes)
    (active : List Holding) (v : SsaValue) : Option Reg :=
  let (start, stop) := live.range v
  let unclobbered (home : Reg) : Bool := home != 0 || r0Available live.calls start stop
  let allowed (home : Reg) : Bool := (active.all fun held => held.home != home) && unclobbered home
  ((coalescePhiHome prog homes active v).filter unclobbered).or <|
    ((coalesceBinopLhs prog homes active live v start).filter unclobbered).or <|
      (prefs.find? fun pref => (pref == 1 || pool.contains pref) && allowed pref).or <|
        pool.find? allowed

/-- Assign homes in definition order. -/
def assignHomes (prog : SsaProgram) (live : Liveness) (argPrefs : List (List Reg)) :
    List SsaValue → Homes → List Holding → Except SsaError Homes
  | [], homes, _ => .ok homes
  | v :: rest, homes, active =>
    let range := live.range v
    let active := active.filter fun held => held.stop > range.1
    match chooseHome prog live (argPrefs.getD v []) homes active v with
    | none => .error .outOfRegisters
    | some home =>
      assignHomes prog live argPrefs rest (homes.set v (some home))
        (active ++ [{ home, stop := range.2, holder := v }])

/-- The used versions without a pinned home, by the start of their ranges. -/
def scanOrder (prog : SsaProgram) (live : Liveness) (d : Demand) : List SsaValue :=
  ((List.range prog.defSites.length).filter fun v => d.isUsed v && (d.homes.home v).isNone).insertionSort
    fun a b => (live.range a).1 ≤ (live.range b).1

/-- `allocate`. -/
def allocate (prog : SsaProgram) (live : Liveness) : Except SsaError Homes :=
  let d := Demand.collect prog live
  assignHomes prog live d.argPrefs (scanOrder prog live d) d.homes d.active

end EbpfLab.Ssa
