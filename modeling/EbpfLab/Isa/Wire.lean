import EbpfLab.Isa.Insn
import EbpfLab.Library.Stream

/-!
# The wire format

One instruction slot is eight bytes: opcode, registers, offset, immediate. The low three bits of the
opcode are its class; the rest is an operation and a source bit, or a size and a mode.
-/

namespace EbpfLab.Isa
open Library

def i16FromLeBytes (bytes : List UInt8) : Int16 := (UInt16.ofNat (leNat bytes)).toInt16

def i16ToLeBytes (v : Int16) : Vector UInt8 2 :=
  ⟨(leDigits 2 v.toUInt16.toNat).toArray, by simp⟩

def i32FromLeBytes (bytes : List UInt8) : Int32 := (UInt32.ofNat (leNat bytes)).toInt32

def i32ToLeBytes (v : Int32) : Vector UInt8 4 :=
  ⟨(leDigits 4 v.toUInt32.toNat).toArray, by simp⟩

theorem i16FromLeBytes_toLeBytes (v : Int16) : i16FromLeBytes (i16ToLeBytes v).toList = v := by
  have fits : v.toUInt16.toNat < 256 ^ 2 := v.toUInt16.toNat_lt
  rw [i16FromLeBytes, i16ToLeBytes, Vector.toList_mk, List.toList_toArray, leNat_leDigits fits,
    UInt16.ofNat_toNat, Int16.toInt16_toUInt16]

theorem i32FromLeBytes_toLeBytes (v : Int32) : i32FromLeBytes (i32ToLeBytes v).toList = v := by
  have fits : v.toUInt32.toNat < 256 ^ 4 := v.toUInt32.toNat_lt
  rw [i32FromLeBytes, i32ToLeBytes, Vector.toList_mk, List.toList_toArray, leNat_leDigits fits,
    UInt32.ofNat_toNat, Int32.toInt32_toUInt32]

namespace RawInsn

/-- `RawInsn::SIZE`. -/
abbrev size : Nat := 8

/-- The destination nibble. -/
def dst (raw : RawInsn) : UInt8 := raw.regs &&& 0x0f

/-- The source nibble. -/
def src (raw : RawInsn) : UInt8 := (raw.regs >>> 4) &&& 0x0f

def fromBytes (b : Vector UInt8 8) : RawInsn :=
  { opcode := b[0], regs := b[1]
    offset := i16FromLeBytes [b[2], b[3]]
    imm := i32FromLeBytes [b[4], b[5], b[6], b[7]] }

def toBytes (raw : RawInsn) : Vector UInt8 8 :=
  let off := i16ToLeBytes raw.offset
  let imm := i32ToLeBytes raw.imm
  ⟨#[raw.opcode, raw.regs, off[0], off[1], imm[0], imm[1], imm[2], imm[3]], rfl⟩

theorem fromBytes_toBytes (raw : RawInsn) : fromBytes raw.toBytes = raw := by
  obtain ⟨opcode, regs, offset, imm⟩ := raw
  have off := i16FromLeBytes_toLeBytes offset
  have word := i32FromLeBytes_toLeBytes imm
  change RawInsn.mk opcode regs (i16FromLeBytes (i16ToLeBytes offset).toList)
    (i32FromLeBytes (i32ToLeBytes imm).toList) = _
  rw [off, word]

end RawInsn

/-! ### Opcodes -/

namespace Opcode

/-- `LD_IMM_DW`, the wide immediate load. -/
def ldImmDw : UInt8 := 0x18

/-- `JMP_CALL`. -/
def jmpCall : UInt8 := 0x85

/-- `JMP_EXIT`. -/
def jmpExit : UInt8 := 0x95

/-- Whether an ALU or jump opcode takes an immediate. -/
def isImmSource (opcode : UInt8) : Bool := opcode &&& 0x08 == 0

/-- The instruction class. -/
def klass (opcode : UInt8) : UInt8 := opcode &&& 0x07

end Opcode

namespace Class

def ldx : UInt8 := 0x01
def st : UInt8 := 0x02
def stx : UInt8 := 0x03
def alu : UInt8 := 0x04
def jmp : UInt8 := 0x05
def jmp32 : UInt8 := 0x06
def alu64 : UInt8 := 0x07

end Class

inductive DecodeError where
  | truncated (remaining : Nat)
  | truncatedWide
  | unknownAluOp (nibble : UInt8)
  | unknownJumpOp (nibble : UInt8)
  | unknownMemSize (opcode : UInt8)
  | badReg (n : UInt8)
  deriving DecidableEq, Repr

/-- `Reg::new`, with its error as the decoder reports it. -/
def Reg.new (n : UInt8) : Except DecodeError Reg :=
  if small : n.toNat ≤ 10 then .ok ⟨n.toNat, Nat.lt_succ_of_le small⟩ else .error (.badReg n)

/-- The upper nibble of an opcode. -/
def nibble (opcode : UInt8) : UInt8 := (opcode >>> 4) &&& 0x0f

def AluOp.fromOpcode (opcode : UInt8) : Except DecodeError AluOp :=
  match (nibble opcode).toNat with
  | 0x0 => .ok .add
  | 0x1 => .ok .sub
  | 0x2 => .ok .mul
  | 0x3 => .ok .div
  | 0x4 => .ok .or
  | 0x5 => .ok .and
  | 0x6 => .ok .lsh
  | 0x7 => .ok .rsh
  | 0x8 => .ok .neg
  | 0x9 => .ok .mod
  | 0xa => .ok .xor
  | 0xb => .ok .mov
  | 0xc => .ok .arsh
  | 0xd => .ok (.byteSwap (if opcode &&& 0x08 ≠ 0 then .be else .le))
  | _ => .error (.unknownAluOp (nibble opcode))

def JumpOp.fromOpcode (opcode : UInt8) : Except DecodeError JumpOp :=
  match (nibble opcode).toNat with
  | 0x0 => .ok .always
  | 0x1 => .ok .eq
  | 0x2 => .ok .gt
  | 0x3 => .ok .ge
  | 0x4 => .ok .set
  | 0x5 => .ok .ne
  | 0x6 => .ok .sgt
  | 0x7 => .ok .sge
  | 0x8 => .ok .call
  | 0x9 => .ok .exit
  | 0xa => .ok .lt
  | 0xb => .ok .le
  | 0xc => .ok .slt
  | 0xd => .ok .sle
  | _ => .error (.unknownJumpOp (nibble opcode))

def MemSize.fromOpcode (opcode : UInt8) : Except DecodeError MemSize :=
  match ((opcode >>> 3) &&& 0x03).toNat with
  | 0x0 => .ok .w
  | 0x1 => .ok .h
  | 0x2 => .ok .b
  | 0x3 => .ok .dw
  | _ => .error (.unknownMemSize opcode)

end EbpfLab.Isa
