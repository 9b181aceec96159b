import EbpfLab.Isa.Decode

/-!
# The encoder

`encodeProgram` serializes decoded instructions. It refuses unknown words, immediate-source jumps
with a call or exit condition, and byte swaps with a register source.
-/

namespace EbpfLab.Isa
open Opcode

inductive EncodeError where
  | unknownInstruction (pc : Nat)
  | invalidJump (pc : Nat)
  | invalidEnd (pc : Nat)
  deriving DecidableEq, Repr

def aluNibble : AluOp → UInt8
  | .add => 0x0
  | .sub => 0x1
  | .mul => 0x2
  | .div => 0x3
  | .or => 0x4
  | .and => 0x5
  | .lsh => 0x6
  | .rsh => 0x7
  | .neg => 0x8
  | .mod => 0x9
  | .xor => 0xa
  | .mov => 0xb
  | .arsh => 0xc
  | .byteSwap _ => 0xd

def jumpNibble : JumpOp → UInt8
  | .always => 0x0
  | .eq => 0x1
  | .gt => 0x2
  | .ge => 0x3
  | .set => 0x4
  | .ne => 0x5
  | .sgt => 0x6
  | .sge => 0x7
  | .lt => 0xa
  | .le => 0xb
  | .slt => 0xc
  | .sle => 0xd
  | .call => 0x8
  | .exit => 0x9

def sizeBits : MemSize → UInt8
  | .w => 0x0
  | .h => 0x1
  | .b => 0x2
  | .dw => 0x3

/-- Destination in the low nibble, source in the high one. -/
def regsByte (dst src : Reg) : UInt8 := (UInt8.ofNat src.val <<< 4) ||| UInt8.ofNat dst.val

/-- Source bit, register byte and immediate of a word that takes either source. -/
def sourceFields (dst : Reg) : Operand → UInt8 × UInt8 × Int32
  | .reg r => (0x08, regsByte dst r, 0)
  | .imm k => (0x00, regsByte dst 0, k)

/-- The slots `encode_one` pushes. -/
def encodeOne (insn : Insn) (pc : Nat) : Except EncodeError (List RawInsn) :=
  match insn with
  | .alu width (.byteSwap endian) dst src =>
    let klass : UInt8 := if width = .b64 then 0x07 else 0x04
    match src with
    | .reg _ => .error (.invalidEnd pc)
    | .imm widthImm =>
      let be : UInt8 := if endian = .be then 0x08 else 0x00
      .ok [{ opcode := klass ||| 0xd0 ||| be, regs := regsByte dst 0, offset := 0, imm := widthImm }]
  | .alu width op dst src =>
    let klass : UInt8 := if width = .b64 then 0x07 else 0x04
    let (srcBit, regs, imm) := sourceFields dst src
    .ok [{ opcode := klass ||| (aluNibble op <<< 4) ||| srcBit, regs, offset := 0, imm }]
  | .load size dst base offset =>
    .ok [{ opcode := (0x60 : UInt8) ||| (sizeBits size <<< 3) ||| 0x01, regs := regsByte dst base
           offset, imm := 0 }]
  | .store size base offset src =>
    let (klass, regs, imm) : UInt8 × UInt8 × Int32 :=
      match src with
      | .reg r => (0x03, regsByte base r, 0)
      | .imm k => (0x02, regsByte base 0, k)
    .ok [{ opcode := (0x60 : UInt8) ||| (sizeBits size <<< 3) ||| klass, regs, offset, imm }]
  | .loadImm64 dst imm =>
    let lo := imm.toUInt64.toUInt32
    let hi := (imm.toUInt64 >>> 32).toUInt32
    .ok [{ opcode := ldImmDw, regs := regsByte dst 0, offset := 0, imm := lo.toInt32 },
      { opcode := 0x00, regs := 0x00, offset := 0, imm := hi.toInt32 }]
  | .jump width op dst src offset =>
    if op = .always then .ok [{ opcode := 0x05, regs := 0x00, offset, imm := 0 }]
    else
      let klass : UInt8 := if width = .b64 then 0x05 else 0x06
      let (srcBit, regs, imm) := sourceFields dst src
      if (op = .call ∨ op = .exit) ∧ srcBit = 0x00 then .error (.invalidJump pc)
      else .ok [{ opcode := klass ||| (jumpNibble op <<< 4) ||| srcBit, regs, offset, imm }]
  | .call func => .ok [{ opcode := jmpCall, regs := 0x00, offset := 0, imm := func.toInt32 }]
  | .exit => .ok [{ opcode := jmpExit, regs := 0, offset := 0, imm := 0 }]
  | .unknown _ => .error (.unknownInstruction pc)

/-- Slots of the instructions from index `pc` on. -/
def encodeFrom (pc : Nat) : List Insn → Except EncodeError (List RawInsn)
  | [] => .ok []
  | insn :: rest => do
    let raws ← encodeOne insn pc
    let others ← encodeFrom (pc + 1) rest
    return raws ++ others

def slotBytes (raws : List RawInsn) : List UInt8 := raws.flatMap fun raw => raw.toBytes.toList

def encodeProgram (insns : List Insn) : Except EncodeError (List UInt8) :=
  (encodeFrom 0 insns).map slotBytes

end EbpfLab.Isa
