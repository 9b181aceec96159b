import EbpfLab.Library.Outcome
import EbpfLab.Library.Bitset
import EbpfLab.Library.Cells
import EbpfLab.Library.Search
import EbpfLab.Library.PostOrder
import EbpfLab.Library.Worklist
import EbpfLab.Library.Marking
import EbpfLab.Library.Dominance
import EbpfLab.Library.Cycles
import EbpfLab.Library.OrdMap
import EbpfLab.Library.Simulation
import EbpfLab.Library.Mutating
import EbpfLab.Library.Residues
import EbpfLab.Library.Bits
import EbpfLab.Isa.Insn
import EbpfLab.Isa.Num
import EbpfLab.Isa.Slots
import EbpfLab.Isa.Image
import EbpfLab.Isa.Places
import EbpfLab.Isa.Patch
import EbpfLab.Isa.Swap
import EbpfLab.Isa.Words
import EbpfLab.Vm.Reload
import EbpfLab.Vm.Memory
import EbpfLab.Vm.Access
import EbpfLab.Vm.StackMap
import EbpfLab.Vm.Bulk
import EbpfLab.Vm.Maps
import EbpfLab.Vm.MapNew
import EbpfLab.Vm.MapOps
import EbpfLab.Vm.MapSpec
import EbpfLab.Vm.MapRefine
import EbpfLab.Vm.HexMap
import EbpfLab.Vm.LruRefine
import EbpfLab.Vm.Exec
import EbpfLab.Vm.Helpers
import EbpfLab.Vm.Serves
import EbpfLab.Vm.Frame
import EbpfLab.Vm.Flow
import EbpfLab.Vm.Trace
import EbpfLab.Cfg.Petgraph
import EbpfLab.Cfg.Searching
import EbpfLab.Cfg.Build
import EbpfLab.Cfg.Blocks
import EbpfLab.Cfg.Order
import EbpfLab.Cfg.Faithful
import EbpfLab.Cfg.Slots
import EbpfLab.Cfg.Loops
import EbpfLab.Verifier.Range
import EbpfLab.Verifier.State
import EbpfLab.Verifier.Lattice
import EbpfLab.Verifier.JoinLaws
import EbpfLab.Verifier.Contains
import EbpfLab.Verifier.WellFormed
import EbpfLab.Verifier.RangeKept
import EbpfLab.Verifier.Transfer
import EbpfLab.Verifier.Checks
import EbpfLab.Verifier.StackBytes
import EbpfLab.Verifier.StackAgree
import EbpfLab.Verifier.TraceStack
import EbpfLab.Verifier.Bound
import EbpfLab.Verifier.Trips
import EbpfLab.Verifier.Verify
import EbpfLab.Verifier.Frame
import EbpfLab.Verifier.Rank
import EbpfLab.Verifier.PostFixpoint
import EbpfLab.Verifier.Termination
import EbpfLab.Verifier.Annotation
import EbpfLab.Verifier.Models
import EbpfLab.Verifier.MemorySafe
import EbpfLab.Verifier.RegionChecks
import EbpfLab.Verifier.HelperSound
import EbpfLab.Verifier.StepSound
import EbpfLab.Verifier.RangeSound
import EbpfLab.Verifier.EdgeSound
import EbpfLab.Verifier.CallSound
import EbpfLab.Verifier.Initialised
import EbpfLab.Verifier.Control
import EbpfLab.Verifier.MapFds
import EbpfLab.Verifier.MemoryRun
import EbpfLab.Verifier.LoopCover
import EbpfLab.Ssa.Syntax
import EbpfLab.Ssa.Semantics
import EbpfLab.Ssa.MoveOrder
import EbpfLab.Ssa.Opt
import EbpfLab.Ssa.WellFormed
import EbpfLab.Ssa.Visits
import EbpfLab.Ssa.PhiInputs
import EbpfLab.Ssa.Known
import EbpfLab.Ssa.Answers
import EbpfLab.Ssa.Arrival
import EbpfLab.Ssa.Pass
import EbpfLab.Ssa.PassRun
import EbpfLab.Ssa.Fixups
import EbpfLab.Ssa.Fold
import EbpfLab.Ssa.CopyProp
import EbpfLab.Ssa.DeadCode
import EbpfLab.Ssa.Cut
import EbpfLab.Ssa.Weight
import EbpfLab.Ssa.Optimize
import EbpfLab.Library.Moves
import EbpfLab.Ssa.Alloc
import EbpfLab.Ssa.Phis
import EbpfLab.Ssa.Reads
import EbpfLab.Ssa.Regular
import EbpfLab.Ssa.Construct
import EbpfLab.Ssa.Emit
import EbpfLab.Ssa.Homes
import EbpfLab.Ssa.Lower
import EbpfLab.Ssa.Built
import EbpfLab.Vm.Straight
import EbpfLab.Ssa.Prepare
import EbpfLab.Ssa.DataOps
import EbpfLab.Ssa.Points
import EbpfLab.Ssa.BuiltForm
import EbpfLab.Ssa.CallCode
import EbpfLab.Ssa.Inbound
import EbpfLab.Ssa.Rendering
import EbpfLab.Ssa.Assembled
import EbpfLab.Ssa.Meaning
import EbpfLab.Ssa.Logged
import EbpfLab.Ssa.Pins
import EbpfLab.Ssa.EdgeMoves
import EbpfLab.Ssa.Suited
import EbpfLab.Ssa.InsnCode
import EbpfLab.Ssa.Informed
import EbpfLab.Ssa.BlockCode
import EbpfLab.Ssa.Sharing
import EbpfLab.Elf.Program
import EbpfLab.Elf.Staging
import EbpfLab.Elf.Link
import EbpfLab.Elf.Bounds
import EbpfLab.Elf.Keeps
import EbpfLab.Elf.Retry
