import EbpfLab.Isa.Image

/-!
# Where the decoder stands

An instruction takes the bytes of its slots and is read off them, whatever follows; so the decoder
stands behind the slots of what it has decoded.
-/

namespace EbpfLab.Isa
open Library Opcode

variable {raw : RawInsn} {bytes rest : List UInt8} {insn : Insn} {insns out : List Insn}
  {consumed place : Nat}

/-! ### One instruction -/

/-- Only the wide opcode is decoded as a wide load. -/
theorem decodeOne_narrow (narrow : raw.opcode ≠ ldImmDw)
    (decoded : decodeOne raw rest = .ok (insn, consumed)) : slotWidth insn = 1 := by
  unfold decodeOne at decoded
  rw [if_neg narrow] at decoded
  split at decoded
  · cases decoded
    rfl
  split at decoded
  · cases decoded
    rfl
  dsimp only at decoded
  split at decoded
  · obtain ⟨op, _, decoded⟩ := bind_eq_ok.mp decoded
    obtain ⟨src, _, decoded⟩ := bind_eq_ok.mp decoded
    obtain ⟨dst, _, decoded⟩ := bind_eq_ok.mp decoded
    cases decoded
    rfl
  split at decoded
  · obtain ⟨op, _, decoded⟩ := bind_eq_ok.mp decoded
    obtain ⟨src, _, decoded⟩ := bind_eq_ok.mp decoded
    obtain ⟨dst, _, decoded⟩ := bind_eq_ok.mp decoded
    cases decoded
    rfl
  split at decoded
  · obtain ⟨size, _, decoded⟩ := bind_eq_ok.mp decoded
    obtain ⟨dst, _, decoded⟩ := bind_eq_ok.mp decoded
    obtain ⟨base, _, decoded⟩ := bind_eq_ok.mp decoded
    cases decoded
    rfl
  split at decoded
  · obtain ⟨size, _, decoded⟩ := bind_eq_ok.mp decoded
    split at decoded
    all_goals
      obtain ⟨src, _, decoded⟩ := bind_eq_ok.mp decoded
      obtain ⟨base, _, decoded⟩ := bind_eq_ok.mp decoded
      cases decoded
      rfl
  · cases decoded
    rfl

/-- A wide load takes its low half from its own slot and its high half from the next. -/
theorem decodeOne_wide (wide : raw.opcode = ldImmDw) (inside : 16 ≤ rest.length) :
    decodeOne raw rest = (Reg.new raw.dst).map fun dst => (.loadImm64 dst (zeroExtend raw.imm.toUInt32 |||
      zeroExtend (i32FromLeBytes [rest[12], rest[13], rest[14], rest[15]]).toUInt32 <<< 32), 16) := by
  have dedicated : ldImmDw ≠ jmpExit ∧ ldImmDw ≠ jmpCall := by decide
  rw [decodeOne, wide, if_neg dedicated.1, if_neg dedicated.2, if_pos rfl, firstChunk, dif_pos inside]
  cases Reg.new raw.dst with
  | error e => rfl
  | ok dst => simp [RawInsn.fromBytes, Except.map]

theorem decodeOne_wide_short (wide : raw.opcode = ldImmDw) (short : rest.length < 16) :
    decodeOne raw rest = .error .truncatedWide := by
  have dedicated : ldImmDw ≠ jmpExit ∧ ldImmDw ≠ jmpCall := by decide
  rw [decodeOne, wide, if_neg dedicated.1, if_neg dedicated.2, if_pos rfl, firstChunk,
    dif_neg (Nat.not_le.mpr short)]

theorem firstChunk_inside {n : Nat} (inside : n ≤ bytes.length) :
    firstChunk n (bytes ++ rest) = firstChunk n bytes := by
  have more : n ≤ (bytes ++ rest).length := by
    rw [List.length_append]
    omega
  simp only [firstChunk, dif_pos inside, dif_pos more, List.take_append_of_le_length inside]

theorem decodeOne_inside (enough : raw.opcode = ldImmDw → 16 ≤ bytes.length) :
    decodeOne raw (bytes ++ rest) = decodeOne raw bytes := by
  unfold decodeOne
  by_cases wide : raw.opcode = ldImmDw
  · rw [firstChunk_inside (enough wide)]
  · rw [if_neg wide, if_neg wide]

/-- An instruction takes the bytes of its slots and is read off them alone. -/
theorem decodeNext_reads (decoded : decodeNext bytes = .ok (insn, consumed)) :
    consumed = 8 * slotWidth insn ∧ consumed ≤ bytes.length ∧ Reads decodeNext (bytes.take consumed) insn := by
  unfold decodeNext at decoded
  split at decoded
  · cases decoded
  rename_i chunk found
  have one : 8 ≤ bytes.length := by
    unfold firstChunk at found
    split at found
    · assumption
    · cases found
  have taken := (decodeOne_cases decoded).1
  have width : consumed = 8 * slotWidth insn ∧ consumed ≤ bytes.length := by
    by_cases wide : (RawInsn.fromBytes chunk).opcode = ldImmDw
    · have two : 16 ≤ bytes.length := by
        by_contra short
        rw [decodeOne_wide_short wide (Nat.lt_of_not_le short)] at decoded
        cases decoded
      rw [if_pos wide] at taken
      rw [decodeOne_wide wide two] at decoded
      cases target : Reg.new (RawInsn.fromBytes chunk).dst with
      | error e =>
        rw [target] at decoded
        cases decoded
      | ok dst =>
        rw [target] at decoded
        cases decoded
        exact ⟨rfl, two⟩
    · rw [if_neg wide] at taken
      exact ⟨by rw [taken, decodeOne_narrow wide decoded], by omega⟩
  obtain ⟨width, inside⟩ := width
  have positive := slotWidth_pos insn
  have length : (bytes.take consumed).length = consumed := by
    rw [List.length_take, Nat.min_eq_left inside]
  refine ⟨width, inside, fun empty => ?_, fun rest => ?_⟩
  · rw [empty] at length
    change 0 = consumed at length
    omega
  have first : 8 ≤ (bytes.take consumed).length := by omega
  have split := List.take_append_drop consumed bytes
  rw [← split, firstChunk_inside first] at found
  have enough : (RawInsn.fromBytes chunk).opcode = ldImmDw → 16 ≤ (bytes.take consumed).length := by
    intro wide
    exact Nat.le_of_eq (by rw [length, taken, if_pos wide])
  rw [← split, decodeOne_inside enough] at decoded
  rw [decodeNext, firstChunk_inside first, found]
  dsimp only
  rw [decodeOne_inside enough, decoded, length]

theorem decodeNext_advances (bytes : List UInt8) (insn : Insn) (consumed : Nat)
    (decoded : decodeNext bytes = .ok (insn, consumed)) : 0 < consumed := by
  have width := (decodeNext_reads decoded).1
  have positive := slotWidth_pos insn
  omega

/-! ### The whole string -/

theorem slotCount_append (insns others : List Insn) :
    slotCount (insns ++ others) = slotCount insns + slotCount others := by
  simp [slotCount]

/-- The slot of an instruction is the number of slots before it. -/
theorem slotsFrom_getElem? (slot : Nat) (insns : List Insn) (i : Nat) :
    (slotsFrom slot insns)[i]? = if i < insns.length then some (slot + slotCount (insns.take i)) else none := by
  induction insns generalizing slot i with
  | nil => rfl
  | cons insn insns ih =>
    cases i with
    | zero => simp [slotsFrom, slotCount]
    | succ i => simp [slotsFrom, ih, slotCount, Nat.add_assoc]

/-- The decoder stands behind the slots of what it has decoded. -/
theorem reading_place (reading : Reading decodeNext bytes place out) :
    place = 8 * slotCount out ∧ place ≤ bytes.length := by
  induction reading with
  | start => exact ⟨rfl, Nat.zero_le _⟩
  | @next place consumed out insn _ inside read ih =>
    obtain ⟨width, bounded, _⟩ := decodeNext_reads read
    rw [List.length_drop] at bounded
    have single : slotCount [insn] = slotWidth insn := by simp [slotCount]
    rw [slotCount_append, single]
    omega

/-- The rest of the string decodes to the rest of the list. -/
theorem decodeProgram_drop (decoded : decodeProgram bytes = .ok insns) {place i : Nat}
    (reading : Reading decodeNext bytes place (insns.take i)) :
    decodeProgram (bytes.drop place) = .ok (insns.drop i) := by
  obtain ⟨rest, split, onward⟩ := reading.rest decodeNext_advances decoded
  have same : insns.drop i = rest := by
    apply (List.append_right_inj (insns.take i)).mp
    rw [List.take_append_drop, ← split]
  rw [same]
  exact onward

/-- The decoder takes the whole string. -/
theorem decodeProgram_length (decoded : decodeProgram bytes = .ok insns) : 8 * slotCount insns = bytes.length := by
  obtain ⟨place, reading⟩ := readAll_reading decodeNext_advances decoded (Nat.le_refl insns.length)
  have onward := decodeProgram_drop decoded reading
  rw [List.take_length] at reading
  obtain ⟨behind, bounded⟩ := reading_place reading
  have ended : bytes.length ≤ place := by
    by_contra inside
    obtain ⟨_, _, _, _, more, _⟩ := readAll_next decodeNext_advances (Nat.lt_of_not_le inside) onward
    rw [List.drop_length] at more
    cases more
  omega

end EbpfLab.Isa
