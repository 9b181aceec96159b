import EbpfLab.Isa.RoundTrip

/-!
# The decoder's image

Which accepted byte strings the encoder inverts: an unconditional jump loses every field but its
offset, and 32-bit immediate jumps with a call or exit condition are refused.
-/

namespace EbpfLab.Isa
open Library Opcode

/-- The slots at which a decoder starts an instruction, skipping the second slot of a wide load. -/
def instructionWords : List UInt8 → Nat → List RawInsn
  | [], _ => []
  | _ :: rest, skip + 1 => instructionWords rest skip
  | byte :: rest, 0 =>
    match firstChunk RawInsn.size (byte :: rest) with
    | none => []
    | some chunk =>
      let raw := RawInsn.fromBytes chunk
      raw :: instructionWords rest (if raw.opcode = ldImmDw then 15 else 7)

/-- The word of a jump is one the encoder emits: no unconditional jump but the plain `ja`, no call or
exit condition with an immediate. -/
def RawInsn.Survives (raw : RawInsn) : Prop :=
  raw.opcode ∉ [0x06, 0x0d, 0x0e, 0x86, 0x96] ∧
    (raw.opcode = 0x05 → raw.dst = 0 ∧ raw.imm = 0)

def Insn.isUnknown : Insn → Bool
  | .unknown _ => true
  | _ => false

/-! ### Jump words -/

theorem opcode_split : ∀ i : Fin 256,
    let opcode := UInt8.ofNat i
    klass opcode ||| (nibble opcode <<< 4) ||| sourceBit (isImmSource opcode) = opcode := by
  decide +kernel

theorem jumpNibble_fromOpcode {opcode : UInt8} {op : JumpOp}
    (operation : JumpOp.fromOpcode opcode = .ok op) : jumpNibble op = nibble opcode := by
  apply UInt8.toNat_inj.mp
  unfold JumpOp.fromOpcode at operation
  split at operation <;> first
    | (cases operation; rename_i value; rw [value]; rfl)
    | cases operation

/-- The class, the condition and the source of a jump determine its opcode. -/
theorem jumpOpcode_eq {opcode : UInt8} {width : Width} {op : JumpOp}
    (isJump : klass opcode = jumpClass width) (operation : JumpOp.fromOpcode opcode = .ok op) :
    opcode = jumpClass width ||| (jumpNibble op <<< 4) ||| sourceBit (isImmSource opcode) := by
  have split := opcode_split ⟨opcode.toNat, opcode.toNat_lt⟩
  simp only [UInt8.ofNat_toNat] at split
  rw [jumpNibble_fromOpcode operation, ← isJump, split]

theorem plainJump_iff (width : Width) (op : JumpOp) (imm : Bool) :
    jumpClass width ||| (jumpNibble op <<< 4) ||| sourceBit imm = 0x05 ↔
      op = .always ∧ width = .b64 ∧ imm = true := by
  cases width <;> cases op <;> cases imm <;> decide

theorem lossyJump_iff (width : Width) (op : JumpOp) (imm : Bool)
    (classed : Classed (jumpClass width ||| (jumpNibble op <<< 4) ||| sourceBit imm)) :
    jumpClass width ||| (jumpNibble op <<< 4) ||| sourceBit imm ∈
        ([0x06, 0x0d, 0x0e, 0x86, 0x96] : List UInt8) ↔
      (op = .always ∧ ¬(width = .b64 ∧ imm = true)) ∨ ((op = .call ∨ op = .exit) ∧ imm = true) := by
  revert classed
  cases width <;> cases op <;> cases imm <;> decide

theorem decodeOperand_ok {raw : RawInsn} {src : Operand} (source : decodeOperand raw = .ok src) :
    isImmSource raw.opcode = src.isImm ∧ ∀ k, src = .imm k → k = raw.imm := by
  unfold decodeOperand at source
  split at source
  · rename_i isImm
    cases source
    exact ⟨isImm, fun k same => (Operand.imm.inj same).symm⟩
  · rename_i isReg
    cases made : Reg.new raw.src with
    | error e => simp [made, Except.map] at source
    | ok r =>
      simp only [made, Except.map, Except.ok.injEq] at source
      subst source
      exact ⟨Bool.eq_false_iff.mpr isReg, nofun⟩

theorem Reg.new_eq_zero {n : UInt8} {r : Reg} (made : Reg.new n = .ok r) : r = 0 ↔ n = 0 := by
  unfold Reg.new at made
  split at made
  · cases made
    rw [Fin.ext_iff, ← UInt8.toNat_inj]
    rfl
  · cases made

/-- Whether a jump survives is read off its word. -/
theorem survives_jump {raw : RawInsn} {width : Width} {op : JumpOp} {dst : Reg} {src : Operand}
    (classed : Classed raw.opcode) (isJump : klass raw.opcode = jumpClass width)
    (operation : JumpOp.fromOpcode raw.opcode = .ok op) (source : decodeOperand raw = .ok src)
    (target : Reg.new raw.dst = .ok dst) (offset : Int16) :
    ((Insn.jump width op dst src offset).refused = false ∧
      (Insn.jump width op dst src offset).canonical = .jump width op dst src offset) ↔
      raw.Survives := by
  have zero := Reg.new_eq_zero target
  obtain ⟨bit, value⟩ := decodeOperand_ok source
  have shape := jumpOpcode_eq isJump operation
  rw [bit] at shape
  rw [shape] at classed
  rw [RawInsn.Survives, shape, lossyJump_iff width op src.isImm classed, plainJump_iff, ← zero]
  cases op with
  | always =>
    cases src with
    | reg r => simp [Insn.refused, Insn.canonical, Operand.isImm]
    | imm k =>
      rw [← value k rfl]
      cases width with
      | b32 => simp [Insn.refused, Insn.canonical, Operand.isImm]
      | b64 => simp [Insn.refused, Insn.canonical, Operand.isImm, eq_comm]
  | call => cases src <;> simp [Insn.refused, Insn.canonical, Operand.isImm]
  | exit => cases src <;> simp [Insn.refused, Insn.canonical, Operand.isImm]
  | _ => simp [Insn.refused, Insn.canonical]

/-! ### Other words -/

/-- The word is decoded as a jump by its class. -/
def RawInsn.IsJump (raw : RawInsn) : Prop :=
  Classed raw.opcode ∧ (klass raw.opcode = Class.jmp ∨ klass raw.opcode = Class.jmp32)

theorem survives_of_not_jump {raw : RawInsn} (other : ¬raw.IsJump) : raw.Survives := by
  have jumps : ∀ opcode ∈ ([0x05, 0x06, 0x0d, 0x0e, 0x86, 0x96] : List UInt8),
      Classed opcode ∧ (klass opcode = Class.jmp ∨ klass opcode = Class.jmp32) := by decide +kernel
  refine ⟨fun lossy => other (jumps _ (List.mem_cons_of_mem _ lossy)), fun plain => ?_⟩
  exact absurd (jumps _ (plain ▸ List.mem_cons_self)) other

/-- What `decodeOne` accepts: a jump, or an instruction that encodes as itself. -/
theorem decodeOne_cases {raw : RawInsn} {rest : List UInt8} {insn : Insn} {consumed : Nat}
    (decoded : decodeOne raw rest = .ok (insn, consumed)) :
    (consumed = if raw.opcode = ldImmDw then 16 else 8) ∧
    ((∃ width op dst src, insn = .jump width op dst src raw.offset ∧ Classed raw.opcode ∧
      klass raw.opcode = jumpClass width ∧ JumpOp.fromOpcode raw.opcode = .ok op ∧
      decodeOperand raw = .ok src ∧ Reg.new raw.dst = .ok dst) ∨
    (¬raw.IsJump ∧ (insn.isUnknown = true ∨ (insn.refused = false ∧ insn.canonical = insn)))) := by
  unfold decodeOne at decoded
  split at decoded
  · rename_i isExit
    cases decoded
    exact ⟨by rw [isExit]; rfl, .inr ⟨fun jump => jump.1.1 isExit, .inr ⟨rfl, rfl⟩⟩⟩
  rename_i notExit
  split at decoded
  · rename_i isCall
    cases decoded
    exact ⟨by rw [isCall]; rfl, .inr ⟨fun jump => jump.1.2.1 isCall, .inr ⟨rfl, rfl⟩⟩⟩
  rename_i notCall
  split at decoded
  · rename_i wide
    split at decoded
    · cases decoded
    · obtain ⟨dst, _, decoded⟩ := bind_eq_ok.mp decoded
      cases decoded
      exact ⟨(if_pos wide).symm, .inr ⟨fun jump => jump.1.2.2 wide, .inr ⟨rfl, rfl⟩⟩⟩
  rename_i notWide
  rw [if_neg notWide]
  dsimp only at decoded
  split at decoded
  · rename_i isAlu
    obtain ⟨op, _, decoded⟩ := bind_eq_ok.mp decoded
    obtain ⟨src, source, decoded⟩ := bind_eq_ok.mp decoded
    obtain ⟨dst, _, decoded⟩ := bind_eq_ok.mp decoded
    cases decoded
    have other : ¬raw.IsJump := by
      rintro ⟨_, jmp | jmp⟩ <;> rw [jmp] at isAlu <;> revert isAlu <;> decide
    refine ⟨rfl, .inr ⟨other, .inr ⟨?_, rfl⟩⟩⟩
    cases op with
    | byteSwap endian =>
      cases source
      rfl
    | _ => rfl
  rename_i notAlu
  split at decoded
  · rename_i isJump
    obtain ⟨op, operation, decoded⟩ := bind_eq_ok.mp decoded
    obtain ⟨src, source, decoded⟩ := bind_eq_ok.mp decoded
    obtain ⟨dst, target, decoded⟩ := bind_eq_ok.mp decoded
    cases decoded
    refine ⟨rfl, .inl ⟨_, op, dst, src, rfl, ⟨notExit, notCall, notWide⟩, ?_, operation, source,
      target⟩⟩
    rcases isJump with jmp | jmp <;> rw [jmp] <;> rfl
  rename_i notJump
  have other : ¬raw.IsJump := fun jump => notJump jump.2
  split at decoded
  · obtain ⟨size, _, decoded⟩ := bind_eq_ok.mp decoded
    obtain ⟨dst, _, decoded⟩ := bind_eq_ok.mp decoded
    obtain ⟨base, _, decoded⟩ := bind_eq_ok.mp decoded
    cases decoded
    exact ⟨rfl, .inr ⟨other, .inr ⟨rfl, rfl⟩⟩⟩
  split at decoded
  · obtain ⟨size, _, decoded⟩ := bind_eq_ok.mp decoded
    split at decoded
    all_goals
      obtain ⟨src, _, decoded⟩ := bind_eq_ok.mp decoded
      obtain ⟨base, _, decoded⟩ := bind_eq_ok.mp decoded
      cases decoded
      exact ⟨rfl, .inr ⟨other, .inr ⟨rfl, rfl⟩⟩⟩
  · cases decoded
    exact ⟨rfl, .inr ⟨other, .inl rfl⟩⟩

/-- An instruction survives exactly when its word does. -/
theorem insn_survives_iff {raw : RawInsn} {rest : List UInt8} {insn : Insn} {consumed : Nat}
    (decoded : decodeOne raw rest = .ok (insn, consumed)) (known : insn.isUnknown = false) :
    (insn.refused = false ∧ insn.canonical = insn) ↔ raw.Survives := by
  rcases (decodeOne_cases decoded).2 with
    ⟨width, op, dst, src, rfl, classed, isJump, operation, source, target⟩ | ⟨other, unknown | kept⟩
  · exact survives_jump classed isJump operation source target raw.offset
  · rw [known] at unknown
    cases unknown
  · exact ⟨fun _ => survives_of_not_jump other, fun _ => kept⟩

/-! ### Accepted programs -/

/-- The instructions of an accepted program, paired with the words they start at. -/
theorem readAll_words {bytes : List UInt8} {skip : Nat} {insns : List Insn}
    (accepted : readAll decodeNext bytes skip = .ok insns) :
    List.Forall₂ (fun raw insn => ∃ rest consumed, decodeOne raw rest = .ok (insn, consumed))
      (instructionWords bytes skip) insns := by
  induction bytes generalizing skip insns with
  | nil =>
    cases accepted
    exact .nil
  | cons byte rest ih =>
    cases skip with
    | succ skip => exact ih accepted
    | zero =>
      rw [readAll] at accepted
      obtain ⟨⟨insn, consumed⟩, next, accepted⟩ := bind_eq_ok.mp accepted
      obtain ⟨others, tail, accepted⟩ := bind_eq_ok.mp accepted
      cases accepted
      unfold decodeNext at next
      split at next
      · cases next
      · rename_i chunk found
        rw [instructionWords, found]
        have taken := (decodeOne_cases next).1
        refine .cons ⟨_, _, next⟩ (ih ?_)
        rw [taken] at tail
        split
        · rename_i wide
          rwa [if_pos wide] at tail
        · rename_i single
          rwa [if_neg single] at tail

theorem survives_all {words : List RawInsn} {insns : List Insn}
    (decoded : List.Forall₂
      (fun raw insn => ∃ rest consumed, decodeOne raw rest = .ok (insn, consumed)) words insns)
    (known : ∀ insn ∈ insns, insn.isUnknown = false) :
    (∀ insn ∈ insns, insn.refused = false ∧ insn.canonical = insn) ↔
      ∀ raw ∈ words, raw.Survives := by
  induction decoded with
  | nil => simp
  | cons head _ ih =>
    obtain ⟨rest, consumed, decoded⟩ := head
    have ⟨here, later⟩ := List.forall_mem_cons.mp known
    rw [List.forall_mem_cons, List.forall_mem_cons, insn_survives_iff decoded here, ih later]

/-- Encoding inverts decoding exactly on the programs whose jump words are all ones the encoder
emits. -/
theorem encode_inverts_decode_iff {bytes : List UInt8} {insns : List Insn}
    (accepted : decodeProgram bytes = .ok insns) (known : ∀ insn ∈ insns, insn.isUnknown = false) :
    (∃ out, encodeProgram insns = .ok out ∧ decodeProgram out = .ok insns) ↔
      ∀ raw ∈ instructionWords bytes 0, raw.Survives := by
  have words := readAll_words accepted
  rw [roundTrip_iff_canonical]
  exact survives_all words known

/-- `mov64 r0, 7; exit` with junk in the fields a move does not use. -/
theorem encode_inverts_decode_mov :
    ∃ out, encodeProgram [.alu .b64 .mov 0 (.imm 7), .exit] = .ok out ∧
      decodeProgram out = .ok [.alu .b64 .mov 0 (.imm 7), .exit] :=
  (encode_inverts_decode_iff
    (show decodeProgram [0xb7, 0xf0, 0x34, 0x12, 7, 0, 0, 0, 0x95, 0, 0, 0, 0, 0, 0, 0] =
      .ok [.alu .b64 .mov 0 (.imm 7), .exit] by decide)
    (by decide)).mpr (by unfold RawInsn.Survives; decide)

/-- The word `0x86`, a 32-bit jump with the call condition and an immediate, is decoded and then
refused; `ja` with a register in its first nibble comes back without it. -/
theorem jump_words_lost :
    decodeProgram [0x86, 0, 0, 0, 0, 0, 0, 0] = .ok [.jump .b32 .call 0 (.imm 0) 0] ∧
      encodeProgram [.jump .b32 .call 0 (.imm 0) 0] = .error (.invalidJump 0) ∧
      decodeProgram [0x05, 1, 0, 0, 0, 0, 0, 0] = .ok [.jump .b64 .always 1 (.imm 0) 0] ∧
      (encodeProgram [.jump .b64 .always 1 (.imm 0) 0]).toOption.map decodeProgram =
        some (.ok [.jump .b64 .always 0 (.imm 0) 0]) := by
  decide

end EbpfLab.Isa
