import Mathlib.Algebra.Group.Int.Defs
import Mathlib.Algebra.GroupWithZero.Nat

/-!
# Decoded instructions

The decoded instruction model of `ebpf-isa` and the ALU semantics shared by the interpreter, the
verifier and the optimizer. A Rust `i64`, `u32`, `i16` is Lean's fixed-width type of that size, so
`wrapping_*` is the plain operator and a cast is the conversion of the same name.
-/

namespace EbpfLab.Isa

/-- General-purpose register `r0`–`r10`; `Reg::new` admits nothing above 10. -/
abbrev Reg := Fin 11

instance Reg.neZero : NeZero 11 := ⟨by decide⟩

/-- `Reg::FRAME_PTR`, the read-only frame pointer `r10`. -/
def Reg.framePtr : Reg := 10

def Reg.isFramePtr (r : Reg) : Bool := r == Reg.framePtr

@[simp] theorem Reg.isFramePtr_iff (r : Reg) : r.isFramePtr = true ↔ r = 10 := by
  simp [Reg.isFramePtr, Reg.framePtr]

inductive Operand where
  | reg (r : Reg)
  | imm (k : Int32)
  deriving DecidableEq, Repr

inductive Width where
  | b32 | b64
  deriving DecidableEq, Repr

inductive Endian where
  | le | be
  deriving DecidableEq, Repr

/-- ALU operations; `byteSwap` is `AluOp::End`. -/
inductive AluOp where
  | add | sub | mul | div | or | and | lsh | rsh | neg | mod | xor | mov | arsh
  | byteSwap (endian : Endian)
  deriving DecidableEq, Repr

inductive JumpOp where
  | always | eq | gt | ge | set | ne | sgt | sge | lt | le | slt | sle | call | exit
  deriving DecidableEq, Repr

inductive MemSize where
  | b | h | w | dw
  deriving DecidableEq, Repr

/-- Access width in bytes. -/
def MemSize.bytes : MemSize → Nat
  | .b => 1
  | .h => 2
  | .w => 4
  | .dw => 8

/-- A raw instruction slot. -/
structure RawInsn where
  opcode : UInt8
  regs : UInt8
  offset : Int16
  imm : Int32
  deriving DecidableEq, Repr

inductive Insn where
  | alu (width : Width) (op : AluOp) (dst : Reg) (src : Operand)
  | load (size : MemSize) (dst base : Reg) (offset : Int16)
  | store (size : MemSize) (base : Reg) (offset : Int16) (src : Operand)
  | loadImm64 (dst : Reg) (imm : Int64)
  | jump (width : Width) (op : JumpOp) (dst : Reg) (src : Operand) (offset : Int16)
  | call (func : UInt32)
  | exit
  | unknown (raw : RawInsn)
  deriving DecidableEq, Repr

/-! ### ALU semantics -/

/-- The low word, `v as u32`. -/
def lowWord (v : Int64) : UInt32 := v.toUInt64.toUInt32

/-- `i64::from` of a `u32`: zero extension. -/
def zeroExtend (w : UInt32) : Int64 := w.toUInt64.toInt64

def swapBytes16 (v : UInt16) : UInt16 := (v <<< 8) ||| (v >>> 8)

def swapBytes32 (v : UInt32) : UInt32 :=
  (swapBytes16 v.toUInt16).toUInt32 <<< 16 ||| (swapBytes16 (v >>> 16).toUInt16).toUInt32

def swapBytes64 (v : UInt64) : UInt64 :=
  (swapBytes32 v.toUInt32).toUInt64 <<< 32 ||| (swapBytes32 (v >>> 32).toUInt32).toUInt64

/-- `BPF_END` on 64 bits. A width other than 16, 32 and 64 is the source's `unreachable!` arm: the
loader and the verifier check the width before anything evaluates. -/
def endianSwap (value widthImm : Int64) (endian : Endian) : Int64 :=
  let masked : UInt64 :=
    if widthImm = 16 then value.toUInt64 &&& 0xFFFF
    else if widthImm = 32 then value.toUInt64 &&& 0xFFFFFFFF
    else value.toUInt64
  match endian with
  | .le => masked.toInt64
  | .be =>
    if widthImm = 16 then (swapBytes16 masked.toUInt16).toUInt64.toInt64
    else if widthImm = 32 then (swapBytes32 masked.toUInt32).toUInt64.toInt64
    else (swapBytes64 masked).toInt64

/-- `BPF_END` on the low word; the widths 32 and 64 share an arm. -/
def endianSwap32 (value : UInt32) (widthImm : Int64) (endian : Endian) : UInt32 :=
  let masked : UInt32 := if widthImm = 16 then value &&& 0xFFFF else value
  match endian with
  | .le => masked
  | .be => if widthImm = 16 then (swapBytes16 masked.toUInt16).toUInt32 else swapBytes32 masked

def alu64 (op : AluOp) (lhs rhs : Int64) : Int64 :=
  match op with
  | .add => lhs + rhs
  | .sub => lhs - rhs
  | .mul => lhs * rhs
  | .div => if rhs = 0 then 0 else (lhs.toUInt64 / rhs.toUInt64).toInt64
  | .mod => if rhs = 0 then 0 else (lhs.toUInt64 % rhs.toUInt64).toInt64
  | .or => lhs ||| rhs
  | .and => lhs &&& rhs
  | .xor => lhs ^^^ rhs
  | .mov => rhs
  | .neg => -lhs
  | .lsh => lhs <<< (rhs &&& 63)
  | .rsh => (lhs.toUInt64 >>> (rhs.toUInt64 &&& 63)).toInt64
  | .arsh => lhs >>> (rhs &&& 63)
  | .byteSwap endian => endianSwap lhs rhs endian

/-- The 32-bit result, before zero extension. -/
def alu32Word (op : AluOp) (lhs rhs : Int64) : UInt32 :=
  let l := lowWord lhs
  let r := lowWord rhs
  match op with
  | .add => l + r
  | .sub => l - r
  | .mul => l * r
  | .div => if r = 0 then 0 else l / r
  | .mod => if r = 0 then 0 else l % r
  | .or => l ||| r
  | .and => l &&& r
  | .xor => l ^^^ r
  | .mov => r
  | .neg => -l
  | .lsh => l <<< (r &&& 31)
  | .rsh => l >>> (r &&& 31)
  | .arsh => (l.toInt32 >>> (r &&& 31).toInt32).toUInt32
  | .byteSwap endian => endianSwap32 l rhs endian

def alu32 (op : AluOp) (lhs rhs : Int64) : Int64 := zeroExtend (alu32Word op lhs rhs)

/-- `AluOp::apply`, the ALU semantics of the interpreter and of the constant folder. -/
def AluOp.apply (op : AluOp) (lhs rhs : Int64) : Width → Int64
  | .b64 => alu64 op lhs rhs
  | .b32 => alu32 op lhs rhs

theorem AluOp.apply_mov_left (l l' r : Int64) (w : Width) :
    AluOp.apply .mov l r w = AluOp.apply .mov l' r w := by
  cases w <;> rfl

theorem AluOp.apply_neg_right (l r r' : Int64) (w : Width) :
    AluOp.apply .neg l r w = AluOp.apply .neg l r' w := by
  cases w <;> rfl

/-- Whether an immediate is a width `BPF_END` accepts. -/
def validEndWidth (w : Int64) : Bool := w == 16 || w == 32 || w == 64

/-! ### Comparison semantics -/

def jumpTaken64 (op : JumpOp) (lhs rhs : Int64) : Bool :=
  let l := lhs.toUInt64
  let r := rhs.toUInt64
  match op with
  | .always => true
  | .eq => l == r
  | .ne => l != r
  | .gt => l > r
  | .ge => l ≥ r
  | .lt => l < r
  | .le => l ≤ r
  | .sgt => lhs > rhs
  | .sge => lhs ≥ rhs
  | .slt => lhs < rhs
  | .sle => lhs ≤ rhs
  | .set => l &&& r != 0
  | .call | .exit => false

def jumpTaken32 (op : JumpOp) (lhs rhs : Int64) : Bool :=
  let l := lowWord lhs
  let r := lowWord rhs
  match op with
  | .always => true
  | .eq => l == r
  | .ne => l != r
  | .gt => l > r
  | .ge => l ≥ r
  | .lt => l < r
  | .le => l ≤ r
  | .sgt => l.toInt32 > r.toInt32
  | .sge => l.toInt32 ≥ r.toInt32
  | .slt => l.toInt32 < r.toInt32
  | .sle => l.toInt32 ≤ r.toInt32
  | .set => l &&& r != 0
  | .call | .exit => false

/-- `jump_taken`: whether the interpreter takes a conditional jump. -/
def jumpTaken (op : JumpOp) (lhs rhs : Int64) : Width → Bool
  | .b64 => jumpTaken64 op lhs rhs
  | .b32 => jumpTaken32 op lhs rhs

@[simp] theorem jumpTaken_always (l r : Int64) (w : Width) : jumpTaken .always l r w = true := by
  cases w <;> rfl

end EbpfLab.Isa
