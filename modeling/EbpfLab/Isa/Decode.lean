import EbpfLab.Isa.Wire

/-!
# The decoder

`decodeProgram` reads a little-endian instruction stream slot by slot; a wide load takes two slots.
Fields an opcode does not use are ignored.
-/

namespace EbpfLab.Isa
open Library Opcode

/-- `first_chunk`: the first `n` bytes. -/
def firstChunk (n : Nat) (bytes : List UInt8) : Option (Vector UInt8 n) :=
  if inside : n ≤ bytes.length then some ⟨(bytes.take n).toArray, by simp [inside]⟩ else none

/-- Register or immediate source of an ALU or jump word. -/
def decodeOperand (raw : RawInsn) : Except DecodeError Operand :=
  if isImmSource raw.opcode then .ok (.imm raw.imm) else (Reg.new raw.src).map .reg

/-- Source of an ALU word; a byte swap spends the source bit on the byte order, so its operand is
always the immediate. -/
def aluSource (raw : RawInsn) : AluOp → Except DecodeError Operand
  | .byteSwap _ => .ok (.imm raw.imm)
  | _ => decodeOperand raw

/-- Decode one instruction, with the bytes it consumed; `rest` starts at its own slot. -/
def decodeOne (raw : RawInsn) (rest : List UInt8) : Except DecodeError (Insn × Nat) :=
  if raw.opcode = jmpExit then .ok (.exit, RawInsn.size)
  else if raw.opcode = jmpCall then .ok (.call raw.imm.toUInt32, RawInsn.size)
  else if raw.opcode = ldImmDw then
    match firstChunk 16 rest with
    | none => .error .truncatedWide
    | some wide => do
      let next := RawInsn.fromBytes (wide.drop 8)
      let imm := zeroExtend raw.imm.toUInt32 ||| zeroExtend next.imm.toUInt32 <<< 32
      let dst ← Reg.new raw.dst
      return (.loadImm64 dst imm, 16)
  else
    let klass := klass raw.opcode
    if klass = Class.alu64 ∨ klass = Class.alu then do
      let width := if klass = Class.alu64 then Width.b64 else Width.b32
      let op ← AluOp.fromOpcode raw.opcode
      let src ← aluSource raw op
      let dst ← Reg.new raw.dst
      return (.alu width op dst src, RawInsn.size)
    else if klass = Class.jmp ∨ klass = Class.jmp32 then do
      let width := if klass = Class.jmp then Width.b64 else Width.b32
      let op ← JumpOp.fromOpcode raw.opcode
      let src ← decodeOperand raw
      let dst ← Reg.new raw.dst
      return (.jump width op dst src raw.offset, RawInsn.size)
    else if klass = Class.ldx then do
      let size ← MemSize.fromOpcode raw.opcode
      let dst ← Reg.new raw.dst
      let base ← Reg.new raw.src
      return (.load size dst base raw.offset, RawInsn.size)
    else if klass = Class.st ∨ klass = Class.stx then do
      let size ← MemSize.fromOpcode raw.opcode
      let src ← if klass = Class.st then .ok (.imm raw.imm) else (Reg.new raw.src).map .reg
      let base ← Reg.new raw.dst
      return (.store size base raw.offset src, RawInsn.size)
    else .ok (.unknown raw, RawInsn.size)

/-- One turn of the loop of `decode_program`. -/
def decodeNext (remaining : List UInt8) : Except DecodeError (Insn × Nat) :=
  match firstChunk RawInsn.size remaining with
  | none => .error (.truncated remaining.length)
  | some chunk => decodeOne (RawInsn.fromBytes chunk) remaining

def decodeProgram (bytes : List UInt8) : Except DecodeError (List Insn) :=
  readAll decodeNext bytes 0

end EbpfLab.Isa
