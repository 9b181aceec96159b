import EbpfLab.Verifier.Range
import EbpfLab.Vm.Maps

/-!
# Abstract states

What the verifier knows at one program point: a type per register, the written stack bytes, and the
immutable configuration every state carries. States are merged in place, with a flag telling whether
anything changed.
-/

namespace EbpfLab.Verifier
open Isa Library Interp

/-- What a register holds. -/
inductive RegType where
  | notInit
  | scalar (range : Range)
  | stackPtr (offset : Int32)
  | mapPtr (fd : Int64)
  | maybeMapPtr (fd : Int64)
  | xdpMdPtr
  | packetPtr (offset : Range)
  | dataPtr (offset : Range)
  deriving DecidableEq, Repr

namespace RegType

def join : RegType → RegType → RegType
  | .notInit, _ | _, .notInit => .notInit
  | .xdpMdPtr, .xdpMdPtr => .xdpMdPtr
  | .scalar r1, .scalar r2 => .scalar (r1.join r2)
  | .stackPtr o1, .stackPtr o2 => if o1 = o2 then .stackPtr o1 else .scalar .top
  | .mapPtr f1, .mapPtr f2 => if f1 = f2 then .mapPtr f1 else .scalar .top
  | .maybeMapPtr f1, .maybeMapPtr f2 | .mapPtr f1, .maybeMapPtr f2 | .maybeMapPtr f2, .mapPtr f1 =>
    if f1 = f2 then .maybeMapPtr f1 else .scalar .top
  | .packetPtr o1, .packetPtr o2 => .packetPtr (o1.join o2)
  | .dataPtr o1, .dataPtr o2 => .dataPtr (o1.join o2)
  | _, _ => .scalar .top

/-- The register step of `widen_assign`. -/
def widen : RegType → RegType → RegType
  | .scalar r1, .scalar r2 => .scalar (r1.widen r2)
  | .packetPtr o1, .packetPtr o2 => .packetPtr (o1.widen o2)
  | .dataPtr o1, .dataPtr o2 => .dataPtr (o1.widen o2)
  | a, b => join a b

/-- The scalar range; `top` for a pointer and `bottom` before any write. -/
def scalarRange : RegType → Range
  | .scalar r => r
  | .notInit => .bottom
  | _ => .top

def stackOffset : RegType → Option Int32
  | .stackPtr offset => some offset
  | _ => none

end RegType

/-- The fd-indexed descriptor table of a configuration. -/
abbrev MapTable := List (Option MapDesc)

structure VerifierState where
  regs : Vector RegType 11
  stackInit : Bitset 8
  maps : MapTable
  packetLen : Option Nat
  dataLen : Option Nat
  deriving DecidableEq

namespace VerifierState

def reg (s : VerifierState) (r : Reg) : RegType := s.regs[r.val]

def setReg (s : VerifierState) (r : Reg) (t : RegType) : VerifierState :=
  { s with regs := s.regs.set r.val t }

/-- Write through an instruction; `r10` keeps the frame pointer. -/
def assign (s : VerifierState) (dst : Reg) (t : RegType) : VerifierState :=
  if dst.isFramePtr then s else s.setReg dst t

/-- `initial_with_maps`. -/
def initialWithMaps (maps : MapTable) : VerifierState :=
  { regs := (Vector.replicate 11 .notInit).set 10 (.stackPtr 0), stackInit := .empty, maps
    packetLen := none, dataLen := none }

/-- `initial_xdp`. -/
def initialXdp (packetLen : Option Nat) (maps : MapTable) : VerifierState :=
  let s := initialWithMaps maps
  { s with regs := s.regs.set 1 .xdpMdPtr, packetLen }

/-- `mark_stack_byte`. -/
def markStackByte (s : VerifierState) (byte : Nat) : VerifierState :=
  { s with stackInit := s.stackInit.orWord (byte / 64) (1#64 <<< (byte % 64)) }

/-- `mark_stack_range`, over `lo..=hi`. -/
def markStackRange (s : VerifierState) (lo hi : Nat) : VerifierState :=
  (List.range' lo (hi + 1 - lo)).foldl markStackByte s

/-- `stack_range_init`, over `lo..=hi`. -/
def stackRangeInit (s : VerifierState) (lo hi : Nat) : Bool :=
  (List.range' lo (hi + 1 - lo)).all fun byte =>
    s.stackInit.word (byte / 64) &&& 1#64 <<< (byte % 64) != 0

/-- `join_maps`: the entries both tables agree on. -/
def joinMaps (a b : MapTable) : MapTable :=
  (List.range (if a.length ≤ b.length then b.length else a.length)).map fun i =>
    match a[i]?.join, b[i]?.join with
    | some x, some y => if x = y then some x else none
    | _, _ => none

/-- A configured length both sides agree on. -/
def joinLen (a b : Option Nat) : Option Nat := if a ≠ b ∧ a.isSome then none else a

/-- The in-place merge shared by `join_assign` and `widen_assign`, with its changed flag. -/
def mergeAssign (merge : RegType → RegType → RegType) (a b : VerifierState) :
    VerifierState × Bool :=
  let regs := a.regs.zipWith merge b.regs
  let stackInit := a.stackInit.inter b.stackInit
  let maps := joinMaps a.maps b.maps
  let packetLen := joinLen a.packetLen b.packetLen
  let dataLen := joinLen a.dataLen b.dataLen
  ({ regs, stackInit, maps, packetLen, dataLen },
    a.regs != regs || a.stackInit != stackInit || maps != a.maps ||
      (a.packetLen != b.packetLen && a.packetLen.isSome) ||
      (a.dataLen != b.dataLen && a.dataLen.isSome))

/-- The pure merge shared by `join` and `widen`. -/
def mergeWith (merge : RegType → RegType → RegType) (a b : VerifierState) : VerifierState where
  regs := a.regs.zipWith merge b.regs
  stackInit := a.stackInit.inter b.stackInit
  maps := joinMaps a.maps b.maps
  packetLen := if a.packetLen = b.packetLen then a.packetLen else none
  dataLen := if a.dataLen = b.dataLen then a.dataLen else none

def join : VerifierState → VerifierState → VerifierState := mergeWith RegType.join

def widen : VerifierState → VerifierState → VerifierState := mergeWith RegType.widen

def joinAssign : VerifierState → VerifierState → VerifierState × Bool := mergeAssign RegType.join

def widenAssign : VerifierState → VerifierState → VerifierState × Bool := mergeAssign RegType.widen

@[simp] theorem reg_setReg (s : VerifierState) (r q : Reg) (t : RegType) :
    (s.setReg r t).reg q = if q = r then t else s.reg q := by
  simp only [setReg, reg, Vector.getElem_set, Fin.ext_iff]
  by_cases same : r.val = q.val <;> simp [same, eq_comm]

theorem reg_assign (s : VerifierState) (dst q : Reg) (t : RegType) :
    (s.assign dst t).reg q = if q = dst ∧ dst.isFramePtr = false then t else s.reg q := by
  unfold assign
  by_cases frame : dst.isFramePtr <;> simp [frame]

@[ext] theorem ext' {s t : VerifierState} (regs : ∀ r, s.reg r = t.reg r)
    (stackInit : s.stackInit = t.stackInit) (maps : s.maps = t.maps)
    (packetLen : s.packetLen = t.packetLen) (dataLen : s.dataLen = t.dataLen) : s = t := by
  obtain ⟨sr, _, _, _, _⟩ := s
  obtain ⟨tr, _, _, _, _⟩ := t
  obtain rfl : sr = tr := Vector.ext fun i inside => regs ⟨i, inside⟩
  simp_all

end VerifierState

end EbpfLab.Verifier
