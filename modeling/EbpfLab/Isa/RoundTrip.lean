import EbpfLab.Isa.Encode
import EbpfLab.Isa.Slots
import EbpfLab.Library.Outcome

/-!
# Encoding and decoding

The words the encoder emits decode to the instruction they encode, except that an unconditional jump
comes back in its one canonical form.
-/

namespace EbpfLab.Isa
open Library Opcode

/-! ### Fields of an emitted word -/

theorem regsByte_dst (dst src : Reg) : Reg.new (regsByte dst src &&& 0x0f) = .ok dst := by
  decide +revert

theorem regsByte_src (dst src : Reg) : Reg.new ((regsByte dst src >>> 4) &&& 0x0f) = .ok src := by
  decide +revert

def Operand.isImm : Operand → Bool
  | .reg _ => false
  | .imm _ => true

/-- The source bit of a word, by the kind of its source. -/
def sourceBit (imm : Bool) : UInt8 := if imm then 0x00 else 0x08

theorem sourceFields_bit (dst : Reg) (src : Operand) :
    (sourceFields dst src).1 = sourceBit src.isImm := by
  cases src <;> rfl

theorem decodeOperand_sourceFields {raw : RawInsn} {dst : Reg} {src : Operand}
    (bit : isImmSource raw.opcode = src.isImm) (regs : raw.regs = (sourceFields dst src).2.1)
    (imm : raw.imm = (sourceFields dst src).2.2) :
    decodeOperand raw = .ok src ∧ Reg.new raw.dst = .ok dst := by
  rw [decodeOperand, bit, RawInsn.src, RawInsn.dst, regs, imm]
  cases src with
  | reg r =>
    refine ⟨?_, regsByte_dst dst r⟩
    change (Reg.new ((regsByte dst r >>> 4) &&& 0x0f)).map Operand.reg = _
    rw [regsByte_src]
    rfl
  | imm k => exact ⟨rfl, regsByte_dst dst 0⟩

/-- An opcode the decoder looks up by class. -/
def Classed (opcode : UInt8) : Prop := opcode ≠ jmpExit ∧ opcode ≠ jmpCall ∧ opcode ≠ ldImmDw

instance (opcode : UInt8) : Decidable (Classed opcode) := inferInstanceAs (Decidable (_ ∧ _ ∧ _))

def aluClass : Width → UInt8
  | .b64 => Class.alu64
  | .b32 => Class.alu

def jumpClass : Width → UInt8
  | .b64 => Class.jmp
  | .b32 => Class.jmp32

theorem aluClass_literal (width : Width) :
    (if width = .b64 then 0x07 else 0x04 : UInt8) = aluClass width := by
  cases width <;> rfl

theorem jumpClass_literal (width : Width) :
    (if width = .b64 then 0x05 else 0x06 : UInt8) = jumpClass width := by
  cases width <;> rfl

theorem aluOpcode_fields (width : Width) (op : AluOp) (imm : Bool) (ordinary : ∀ e, op ≠ .byteSwap e) :
    let opcode := aluClass width ||| (aluNibble op <<< 4) ||| sourceBit imm
    Classed opcode ∧ klass opcode = aluClass width ∧ AluOp.fromOpcode opcode = .ok op ∧
      isImmSource opcode = imm := by
  cases op with
  | byteSwap endian => exact absurd rfl (ordinary endian)
  | _ => cases width <;> cases imm <;> decide

theorem swapOpcode_fields (width : Width) (endian : Endian) :
    let opcode := aluClass width ||| 0xd0 ||| (if endian = .be then 0x08 else 0x00)
    Classed opcode ∧ klass opcode = aluClass width ∧
      AluOp.fromOpcode opcode = .ok (.byteSwap endian) := by
  cases width <;> cases endian <;> decide

theorem jumpOpcode_fields (width : Width) (op : JumpOp) (imm : Bool)
    (accepted : imm = true → op ≠ .call ∧ op ≠ .exit) :
    let opcode := jumpClass width ||| (jumpNibble op <<< 4) ||| sourceBit imm
    Classed opcode ∧ klass opcode = jumpClass width ∧ JumpOp.fromOpcode opcode = .ok op ∧
      isImmSource opcode = imm := by
  cases imm with
  | false => cases width <;> cases op <;> decide
  | true =>
    obtain ⟨call, exit⟩ := accepted rfl
    cases op with
    | call => exact absurd rfl call
    | exit => exact absurd rfl exit
    | _ => cases width <;> decide

theorem memOpcode_fields (size : MemSize) (access : UInt8)
    (memory : access = Class.ldx ∨ access = Class.st ∨ access = Class.stx) :
    let opcode := (0x60 : UInt8) ||| (sizeBits size <<< 3) ||| access
    Classed opcode ∧ klass opcode = access ∧ MemSize.fromOpcode opcode = .ok size := by
  rcases memory with rfl | rfl | rfl <;> cases size <;> decide

/-! ### Words by class -/

section

variable {raw : RawInsn} {rest : List UInt8} {dst base : Reg} {src : Operand} {size : MemSize}

theorem aluSource_ordinary (raw : RawInsn) {op : AluOp} (ordinary : ∀ e, op ≠ .byteSwap e) :
    aluSource raw op = decodeOperand raw := by
  cases op with
  | byteSwap endian => exact absurd rfl (ordinary endian)
  | _ => rfl

theorem decodeOne_alu {width : Width} {op : AluOp} (classed : Classed raw.opcode)
    (isAlu : klass raw.opcode = aluClass width) (operation : AluOp.fromOpcode raw.opcode = .ok op)
    (source : aluSource raw op = .ok src) (target : Reg.new raw.dst = .ok dst) :
    decodeOne raw rest = .ok (.alu width op dst src, RawInsn.size) := by
  obtain ⟨notExit, notCall, notWide⟩ := classed
  cases width <;>
    simp [decodeOne, notExit, notCall, notWide, isAlu, aluClass, Class.alu, Class.alu64, operation,
      source, target]

theorem decodeOne_jump {width : Width} {op : JumpOp} (classed : Classed raw.opcode)
    (isJump : klass raw.opcode = jumpClass width)
    (operation : JumpOp.fromOpcode raw.opcode = .ok op) (source : decodeOperand raw = .ok src)
    (target : Reg.new raw.dst = .ok dst) :
    decodeOne raw rest = .ok (.jump width op dst src raw.offset, RawInsn.size) := by
  obtain ⟨notExit, notCall, notWide⟩ := classed
  cases width <;>
    simp [decodeOne, notExit, notCall, notWide, isJump, jumpClass, Class.alu, Class.alu64, Class.jmp,
      Class.jmp32, operation, source, target]

theorem decodeOne_load (classed : Classed raw.opcode) (isLoad : klass raw.opcode = Class.ldx)
    (width : MemSize.fromOpcode raw.opcode = .ok size) (target : Reg.new raw.dst = .ok dst)
    (source : Reg.new raw.src = .ok base) :
    decodeOne raw rest = .ok (.load size dst base raw.offset, RawInsn.size) := by
  obtain ⟨notExit, notCall, notWide⟩ := classed
  simp [decodeOne, notExit, notCall, notWide, isLoad, Class.alu, Class.alu64, Class.jmp,
    Class.jmp32, Class.ldx, width, source, target]

theorem decodeOne_storeImm (classed : Classed raw.opcode) (isStore : klass raw.opcode = Class.st)
    (width : MemSize.fromOpcode raw.opcode = .ok size) (target : Reg.new raw.dst = .ok base) :
    decodeOne raw rest = .ok (.store size base raw.offset (.imm raw.imm), RawInsn.size) := by
  obtain ⟨notExit, notCall, notWide⟩ := classed
  simp [decodeOne, notExit, notCall, notWide, isStore, Class.alu, Class.alu64, Class.jmp,
    Class.jmp32, Class.ldx, Class.st, width, target]

theorem decodeOne_storeReg {value : Reg} (classed : Classed raw.opcode)
    (isStore : klass raw.opcode = Class.stx) (width : MemSize.fromOpcode raw.opcode = .ok size)
    (target : Reg.new raw.dst = .ok base) (source : Reg.new raw.src = .ok value) :
    decodeOne raw rest = .ok (.store size base raw.offset (.reg value), RawInsn.size) := by
  obtain ⟨notExit, notCall, notWide⟩ := classed
  simp [decodeOne, notExit, notCall, notWide, isStore, Class.alu, Class.alu64, Class.jmp,
    Class.jmp32, Class.ldx, Class.st, Class.stx, width, source, target, Except.map]

end

/-! ### Emitted slots -/

theorem firstChunk_append {n : Nat} (chunk : Vector UInt8 n) (rest : List UInt8) :
    firstChunk n (chunk.toList ++ rest) = some chunk := by
  have inside : n ≤ (chunk.toList ++ rest).length := by simp
  rw [firstChunk, dif_pos inside]
  congr 1
  apply Vector.toList_inj.mp
  simp

theorem decodeNext_slot (raw : RawInsn) (rest : List UInt8) :
    decodeNext (raw.toBytes.toList ++ rest) = decodeOne raw (raw.toBytes.toList ++ rest) := by
  rw [decodeNext, firstChunk_append]
  dsimp only
  rw [RawInsn.fromBytes_toBytes]

@[simp] theorem length_slotBytes (raws : List RawInsn) : (slotBytes raws).length = 8 * raws.length := by
  induction raws with
  | nil => rfl
  | cons raw raws ih =>
    rw [slotBytes, List.flatMap_cons, List.length_append, Vector.length_toList]
    change 8 + (slotBytes raws).length = _
    rw [ih, List.length_cons]
    omega

theorem slotBytes_append (raws others : List RawInsn) :
    slotBytes (raws ++ others) = slotBytes raws ++ slotBytes others := by
  simp [slotBytes]

/-- A one-slot instruction is read off its own slot. -/
theorem reads_slot {raw : RawInsn} {insn : Insn}
    (decodes : ∀ rest, decodeOne raw rest = .ok (insn, RawInsn.size)) :
    Reads decodeNext (slotBytes [raw]) insn := by
  refine ⟨fun empty => by simpa using congrArg List.length empty, fun rest => ?_⟩
  have slot : slotBytes [raw] = raw.toBytes.toList := by simp [slotBytes]
  rw [length_slotBytes, slot, decodeNext_slot, decodes]
  rfl

theorem shifted_halves (imm : Int64) :
    zeroExtend imm.toUInt64.toUInt32 ||| zeroExtend (imm.toUInt64 >>> 32).toUInt32 <<< 32 = imm := by
  apply Int64.toBitVec_inj.mp
  apply BitVec.eq_of_getLsbD_eq
  intro i small
  simp only [zeroExtend, Int64.toBitVec_or, Int64.toBitVec_shiftLeft, UInt64.toBitVec_toInt64,
    UInt32.toBitVec_toUInt64, UInt64.toBitVec_toUInt32, BitVec.getLsbD_or]
  -- the low word supplies the bits below 32, the high word the rest
  by_cases low : i < 32
  · simp [low, small]
  · have high : i - 32 < 32 := by omega
    simp [low, small, high, Nat.add_sub_cancel' (Nat.le_of_not_lt low)]

theorem reads_wide {dst : Reg} {imm : Int64} {low high : RawInsn}
    (isWide : low.opcode = ldImmDw) (target : Reg.new low.dst = .ok dst)
    (halves : zeroExtend low.imm.toUInt32 ||| zeroExtend high.imm.toUInt32 <<< 32 = imm) :
    Reads decodeNext (slotBytes [low, high]) (.loadImm64 dst imm) := by
  refine ⟨fun empty => by simpa using congrArg List.length empty, fun rest => ?_⟩
  have slots : slotBytes [low, high] ++ rest = low.toBytes.toList ++ (high.toBytes.toList ++ rest) := by
    simp [slotBytes]
  have wide : firstChunk 16 (low.toBytes.toList ++ (high.toBytes.toList ++ rest)) =
      some (low.toBytes ++ high.toBytes) := by
    rw [← List.append_assoc, ← Vector.toList_append]
    exact firstChunk_append (low.toBytes ++ high.toBytes) rest
  have next : (low.toBytes ++ high.toBytes).drop 8 = high.toBytes := by
    apply Vector.toList_inj.mp
    rw [Vector.toList_drop, Vector.toList_append]
    simp
  have dedicated : ldImmDw ≠ jmpExit ∧ ldImmDw ≠ jmpCall := by decide
  rw [slots, decodeNext_slot, decodeOne, isWide, if_neg dedicated.1, if_neg dedicated.2, if_pos rfl,
    wide]
  dsimp only
  rw [next, RawInsn.fromBytes_toBytes, halves, target]
  rfl

/-! ### The canonical form -/

/-- The form in which an instruction comes back from its encoding: an unconditional jump keeps its
offset only. -/
def Insn.canonical : Insn → Insn
  | .jump _ .always _ _ offset => .jump .b64 .always 0 (.imm 0) offset
  | insn => insn

theorem reads_swap {width : Width} {endian : Endian} {dst : Reg} {src : Operand} {pc : Nat}
    {raws : List RawInsn}
    (encoded : encodeOne (.alu width (.byteSwap endian) dst src) pc = .ok raws) :
    Reads decodeNext (slotBytes raws) (.alu width (.byteSwap endian) dst src) := by
  cases src with
  | reg r => simp [encodeOne] at encoded
  | imm k =>
    obtain ⟨classed, isAlu, operation⟩ := swapOpcode_fields width endian
    simp only [encodeOne, aluClass_literal, Except.ok.injEq] at encoded
    subst encoded
    exact reads_slot fun rest => decodeOne_alu classed isAlu operation rfl (regsByte_dst dst 0)

theorem reads_alu {width : Width} {op : AluOp} {dst : Reg} {src : Operand} {pc : Nat}
    {raws : List RawInsn} (ordinary : ∀ endian, op ≠ .byteSwap endian)
    (encoded : encodeOne (.alu width op dst src) pc = .ok raws) :
    Reads decodeNext (slotBytes raws) (.alu width op dst src) := by
  obtain ⟨classed, isAlu, operation, bit⟩ := aluOpcode_fields width op src.isImm ordinary
  have encoding : encodeOne (.alu width op dst src) pc =
      .ok [{ opcode := aluClass width ||| (aluNibble op <<< 4) ||| sourceBit src.isImm
             regs := (sourceFields dst src).2.1, offset := 0, imm := (sourceFields dst src).2.2 }] := by
    rw [← aluClass_literal, ← sourceFields_bit dst]
    cases op with
    | byteSwap endian => exact absurd rfl (ordinary endian)
    | _ => rfl
  rw [encoding, Except.ok.injEq] at encoded
  subst encoded
  refine reads_slot fun rest => decodeOne_alu classed isAlu operation ?_
    (And.right (decodeOperand_sourceFields bit rfl rfl))
  rw [aluSource_ordinary _ ordinary]
  exact And.left (decodeOperand_sourceFields bit rfl rfl)

theorem reads_jump {width : Width} {op : JumpOp} {dst : Reg} {src : Operand} {offset : Int16}
    {pc : Nat} {raws : List RawInsn} (conditional : op ≠ .always)
    (encoded : encodeOne (.jump width op dst src offset) pc = .ok raws) :
    Reads decodeNext (slotBytes raws) (.jump width op dst src offset) := by
  simp only [encodeOne, if_neg conditional, jumpClass_literal, sourceFields_bit] at encoded
  split at encoded
  · cases encoded
  · rename_i accepted
    have dedicated : src.isImm = true → op ≠ .call ∧ op ≠ .exit := fun imm =>
      ⟨fun call => accepted ⟨.inl call, by rw [imm]; rfl⟩,
        fun exit => accepted ⟨.inr exit, by rw [imm]; rfl⟩⟩
    obtain ⟨classed, isJump, operation, bit⟩ := jumpOpcode_fields width op src.isImm dedicated
    cases encoded
    exact reads_slot fun rest => decodeOne_jump classed isJump operation
      (And.left (decodeOperand_sourceFields bit rfl rfl))
      (And.right (decodeOperand_sourceFields bit rfl rfl))

/-- What an instruction encodes to reads back as its canonical form. -/
theorem encodeOne_reads {insn : Insn} {pc : Nat} {raws : List RawInsn}
    (encoded : encodeOne insn pc = .ok raws) :
    Reads decodeNext (slotBytes raws) insn.canonical := by
  cases insn with
  | alu width op dst src =>
    cases op with
    | byteSwap endian => exact reads_swap encoded
    | _ => exact reads_alu (fun _ => nofun) encoded
  | load size dst base offset =>
    obtain ⟨classed, isLoad, width⟩ := memOpcode_fields size Class.ldx (.inl rfl)
    cases encoded
    exact reads_slot fun rest =>
      decodeOne_load classed isLoad width (regsByte_dst dst base) (regsByte_src dst base)
  | store size base offset src =>
    cases src with
    | reg r =>
      obtain ⟨classed, isStore, width⟩ := memOpcode_fields size Class.stx (.inr (.inr rfl))
      cases encoded
      exact reads_slot fun rest =>
        decodeOne_storeReg classed isStore width (regsByte_dst base r) (regsByte_src base r)
    | imm k =>
      obtain ⟨classed, isStore, width⟩ := memOpcode_fields size Class.st (.inr (.inl rfl))
      cases encoded
      exact reads_slot fun rest => decodeOne_storeImm classed isStore width (regsByte_dst base 0)
  | loadImm64 dst imm =>
    cases encoded
    exact reads_wide rfl (regsByte_dst dst 0) (shifted_halves imm)
  | jump width op dst src offset =>
    by_cases always : op = .always
    · subst always
      obtain ⟨classed, isJump, operation, bit⟩ :=
        jumpOpcode_fields .b64 .always true fun _ => by decide
      cases encoded
      exact reads_slot fun rest =>
        decodeOne_jump classed isJump operation (if_pos bit) (regsByte_dst 0 0)
    · have same : (Insn.jump width op dst src offset).canonical = .jump width op dst src offset := by
        cases op <;> first | rfl | exact absurd rfl always
      rw [same]
      exact reads_jump always encoded
  | call func =>
    cases encoded
    exact reads_slot fun rest => rfl
  | exit =>
    cases encoded
    exact reads_slot fun rest => rfl
  | unknown raw => cases encoded

theorem encodeOne_canonical (insn : Insn) (pc : Nat) :
    encodeOne insn.canonical pc = encodeOne insn pc := by
  cases insn with
  | jump width op dst src offset => cases op <;> rfl
  | _ => rfl

theorem slotWidth_canonical (insn : Insn) : slotWidth insn.canonical = slotWidth insn := by
  cases insn with
  | jump width op dst src offset => cases op <;> rfl
  | _ => rfl

/-! ### Programs -/

theorem encodeFrom_canonical (insns : List Insn) (pc : Nat) :
    encodeFrom pc (insns.map Insn.canonical) = encodeFrom pc insns := by
  induction insns generalizing pc with
  | nil => rfl
  | cons insn rest ih => rw [List.map_cons, encodeFrom, encodeOne_canonical, ih, encodeFrom]

theorem encodeFrom_reads {insns : List Insn} {pc : Nat} {raws : List RawInsn}
    (encoded : encodeFrom pc insns = .ok raws) :
    ∃ chunks, slotBytes raws = chunks.flatten ∧
      List.Forall₂ (Reads decodeNext) chunks (insns.map Insn.canonical) := by
  induction insns generalizing pc raws with
  | nil =>
    cases encoded
    exact ⟨[], rfl, .nil⟩
  | cons insn rest ih =>
    rw [encodeFrom] at encoded
    obtain ⟨slots, head, encoded⟩ := bind_eq_ok.mp encoded
    obtain ⟨others, tail, encoded⟩ := bind_eq_ok.mp encoded
    cases encoded
    obtain ⟨chunks, bytes, reads⟩ := ih tail
    refine ⟨slotBytes slots :: chunks, ?_, .cons (encodeOne_reads head) reads⟩
    rw [slotBytes_append, bytes, List.flatten_cons]

/-- Decoding an encoded program gives its instructions in canonical form. -/
theorem decodeProgram_encodeProgram {insns : List Insn} {bytes : List UInt8}
    (encoded : encodeProgram insns = .ok bytes) :
    decodeProgram bytes = .ok (insns.map Insn.canonical) := by
  cases emitted : encodeFrom 0 insns with
  | error e => simp [encodeProgram, emitted, Except.map] at encoded
  | ok raws =>
    simp only [encodeProgram, emitted, Except.map, Except.ok.injEq] at encoded
    obtain ⟨chunks, split, reads⟩ := encodeFrom_reads emitted
    rw [← encoded, split]
    exact readAll_flatten reads

/-! ### What the encoder refuses -/

/-- Instructions with no encoding. -/
def Insn.refused : Insn → Bool
  | .unknown _ => true
  | .alu _ (.byteSwap _) _ (.reg _) => true
  | .jump _ .call _ (.imm _) _ => true
  | .jump _ .exit _ (.imm _) _ => true
  | _ => false

theorem encodeOne_ok_iff (insn : Insn) (pc : Nat) :
    (∃ raws, encodeOne insn pc = .ok raws) ↔ insn.refused = false := by
  cases insn with
  | alu width op dst src => cases op <;> cases src <;> simp [encodeOne, Insn.refused]
  | jump width op dst src offset =>
    cases op <;> cases src <;> simp [encodeOne, Insn.refused, sourceFields]
  | _ => simp [encodeOne, Insn.refused]

theorem encodeFrom_ok_iff (insns : List Insn) (pc : Nat) :
    (∃ raws, encodeFrom pc insns = .ok raws) ↔ ∀ insn ∈ insns, insn.refused = false := by
  induction insns generalizing pc with
  | nil => simp [encodeFrom]
  | cons insn rest ih =>
    rw [List.forall_mem_cons, ← encodeOne_ok_iff insn pc, ← ih (pc + 1)]
    constructor
    · rintro ⟨raws, encoded⟩
      rw [encodeFrom] at encoded
      obtain ⟨slots, head, encoded⟩ := bind_eq_ok.mp encoded
      obtain ⟨others, tail, _⟩ := bind_eq_ok.mp encoded
      exact ⟨⟨slots, head⟩, others, tail⟩
    · rintro ⟨⟨slots, head⟩, others, tail⟩
      exact ⟨slots ++ others, by rw [encodeFrom, head, ok_bind, tail]; rfl⟩

/-- A program survives encoding and decoding when the encoder refuses none of its instructions and
each is in canonical form. -/
theorem roundTrip_iff_canonical (insns : List Insn) :
    (∃ bytes, encodeProgram insns = .ok bytes ∧ decodeProgram bytes = .ok insns) ↔
      ∀ insn ∈ insns, insn.refused = false ∧ insn.canonical = insn := by
  constructor
  · rintro ⟨bytes, encoded, decoded⟩ insn present
    have same : insns.map Insn.canonical = insns.map id := by
      simpa [decodeProgram_encodeProgram encoded] using decoded
    have accepted : ∃ raws, encodeFrom 0 insns = .ok raws := by
      cases emitted : encodeFrom 0 insns with
      | error e => simp [encodeProgram, emitted, Except.map] at encoded
      | ok raws => exact ⟨raws, rfl⟩
    exact ⟨(encodeFrom_ok_iff insns 0).mp accepted insn present,
      List.map_inj_left.mp same insn present⟩
  · intro kept
    obtain ⟨raws, emitted⟩ := (encodeFrom_ok_iff insns 0).mpr fun insn present => (kept insn present).1
    have encoded : encodeProgram insns = .ok (slotBytes raws) := by
      rw [encodeProgram, emitted]
      rfl
    have same : insns.map Insn.canonical = insns.map id :=
      List.map_inj_left.mpr fun insn present => (kept insn present).2
    exact ⟨slotBytes raws, encoded, by rw [decodeProgram_encodeProgram encoded, same, List.map_id]⟩

end EbpfLab.Isa
