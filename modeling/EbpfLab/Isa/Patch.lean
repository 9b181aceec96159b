import EbpfLab.Isa.Places

/-!
# Replacing an instruction in a byte string

The bytes of an instruction can be replaced by those of another. The immediate of a wide load is split
over its two slots, and either half can be replaced in place.
-/

namespace EbpfLab.Isa
open Library Opcode

variable {bytes chunk lo hi : List UInt8} {insn : Insn} {insns : List Insn} {i j : Nat} {dst : Reg} {imm : Int64}

/-- The byte offset of an instruction. -/
def byteOffset (insns : List Insn) (i : Nat) : Nat := 8 * slotCount (insns.take i)

/-! ### Offsets -/

theorem slotCount_take_succ (here : insns[i]? = some insn) :
    slotCount (insns.take (i + 1)) = slotCount (insns.take i) + slotWidth insn := by
  rw [List.take_add_one, here, slotCount_append]
  simp [slotCount]

theorem byteOffset_before (here : insns[i]? = some insn) (before : i < j) :
    byteOffset insns i + 8 * slotWidth insn ≤ byteOffset insns j := by
  have split : insns.take j = insns.take (i + 1) ++ (insns.drop (i + 1)).take (j - (i + 1)) := by
    rw [← List.take_add]
    congr 1
    omega
  have count := congrArg slotCount split
  rw [slotCount_append, slotCount_take_succ here] at count
  unfold byteOffset
  omega

theorem byteOffset_inj {other : Insn} (here : insns[i]? = some insn) (there : insns[j]? = some other)
    (same : byteOffset insns i = byteOffset insns j) : i = j := by
  have width := slotWidth_pos insn
  have width' := slotWidth_pos other
  rcases Nat.lt_trichotomy i j with before | rfl | after
  · have := byteOffset_before here before
    omega
  · rfl
  · have := byteOffset_before there after
    omega

/-- No instruction starts at the second slot of a wide load. -/
theorem byteOffset_ne_trailing (here : insns[i]? = some (.loadImm64 dst imm)) :
    byteOffset insns j ≠ byteOffset insns i + 8 := by
  intro trailing
  by_cases before : i < j
  · have next := byteOffset_before here before
    rw [slotWidth] at next
    omega
  · have order : slotCount (insns.take j) ≤ slotCount (insns.take i) := by
      have split : insns.take i = insns.take j ++ (insns.drop j).take (i - j) := by
        rw [← List.take_add]
        congr 1
        omega
      rw [split, slotCount_append]
      exact Nat.le_add_right _ _
    unfold byteOffset at trailing
    omega

/-- A slot is the first of an instruction or the second of a wide load. -/
theorem slot_cases {s : Nat} (inside : s < slotCount insns) : ∃ i insn, insns[i]? = some insn ∧
    (s = slotCount (insns.take i) ∨ (slotWidth insn = 2 ∧ s = slotCount (insns.take i) + 1)) := by
  induction insns generalizing s with
  | nil => cases inside
  | cons first insns ih =>
    have split : ∀ rest, slotCount (first :: rest) = slotWidth first + slotCount rest := fun rest => rfl
    rw [split] at inside
    by_cases later : slotWidth first ≤ s
    · obtain ⟨i, insn, here, place⟩ := ih (show s - slotWidth first < slotCount insns by omega)
      refine ⟨i + 1, insn, here, ?_⟩
      rw [List.take_succ_cons, split]
      omega
    · have narrow : slotWidth first ≤ 2 := by cases first <;> simp [slotWidth]
      refine ⟨0, first, rfl, ?_⟩
      change s = 0 ∨ (slotWidth first = 2 ∧ s = 0 + 1)
      omega

theorem slotWidth_wide (wide : slotWidth insn = 2) : ∃ dst imm, insn = .loadImm64 dst imm := by
  cases insn with
  | loadImm64 dst imm => exact ⟨dst, imm, rfl⟩
  | _ => cases wide

/-! ### Replacing -/

theorem byteOffset_set (here : insns[i]? = some insn) {other : Insn} (width : slotWidth other = slotWidth insn)
    (j : Nat) : byteOffset (insns.set i other) j = byteOffset insns j := by
  have widths : (insns.set i other).map slotWidth = insns.map slotWidth := by
    rw [List.map_set, width]
    refine List.ext_getElem? fun k => ?_
    rw [List.getElem?_set]
    split
    · rename_i same
      subst same
      split
      · rw [List.getElem?_map, here]
        rfl
      · rename_i outside
        exact (List.getElem?_eq_none (Nat.le_of_not_lt outside)).symm
    · rfl
  rw [byteOffset, byteOffset, slotCount, slotCount, List.map_take, List.map_take, widths]

/-- The bytes of an instruction, which can be replaced by those of another. -/
theorem decodeProgram_set (decoded : decodeProgram bytes = .ok insns) (here : insns[i]? = some insn) :
    ∃ before chunk after, bytes = before ++ (chunk ++ after) ∧ before.length = byteOffset insns i ∧
      chunk.length = 8 * slotWidth insn ∧ Reads decodeNext chunk insn ∧
      ∀ chunk' insn', Reads decodeNext chunk' insn' →
        decodeProgram (before ++ (chunk' ++ after)) = .ok (insns.set i insn') := by
  have inside := (List.getElem?_eq_some_iff.mp here).1
  obtain ⟨place, reading⟩ := readAll_reading decodeNext_advances decoded (Nat.le_of_lt inside)
  obtain ⟨behind, bounded⟩ := reading_place reading
  have tail := decodeProgram_drop decoded reading
  have split : insns.drop i = insn :: insns.drop (i + 1) := by
    rw [List.drop_eq_getElem_cons inside, (List.getElem?_eq_some_iff.mp here).2]
  rw [split] at tail
  have more : place < bytes.length := by
    by_contra ended
    rw [List.drop_eq_nil_of_le (Nat.le_of_not_lt ended)] at tail
    cases tail
  obtain ⟨a, consumed, rest, read, same, onward⟩ := readAll_next decodeNext_advances more tail
  cases same
  obtain ⟨width, enough, reads⟩ := decodeNext_reads read
  refine ⟨bytes.take place, (bytes.drop place).take consumed, bytes.drop (place + consumed), ?_, ?_, ?_, reads, ?_⟩
  · rw [← List.drop_drop, List.take_append_drop, List.take_append_drop]
  · rw [List.length_take, Nat.min_eq_left bounded, behind, byteOffset]
  · rw [List.length_take, Nat.min_eq_left enough, width]
  · intro chunk' insn' reads'
    have after : readAll decodeNext (chunk' ++ bytes.drop (place + consumed)) 0 =
        .ok (insn' :: insns.drop (i + 1)) := by
      rw [readAll_append reads', onward]
      rfl
    have prefixes : ∀ s a n, decodeNext s = .ok (a, n) → n ≤ s.length ∧ Reads decodeNext (s.take n) a :=
      fun s a n read => (decodeNext_reads read).2
    rw [List.set_eq_take_append_cons_drop, if_pos inside]
    exact reading.before prefixes after

/-! ### Wide loads -/

/-- The immediate with the halves' bytes. -/
def wideImm (bytes : List UInt8) : Int64 := (UInt64.ofNat (leNat bytes)).toInt64

theorem wideImm_toNat (short : bytes.length = 8) : (wideImm bytes).toUInt64.toNat = leNat bytes := by
  have bound := leNat_lt bytes
  rw [short] at bound
  rw [wideImm, UInt64.toUInt64_toInt64, UInt64.toNat_ofNat_of_lt' bound]

theorem lowWord_wideImm (low : lo.length = 4) (high : hi.length = 4) :
    (lowWord (wideImm (lo ++ hi))).toNat = leNat lo := by
  have bound := leNat_lt lo
  rw [low] at bound
  rw [lowWord, UInt64.toNat_toUInt32, wideImm_toNat (by rw [List.length_append, low, high]), leNat_append, low]
  omega

theorem highWord_wideImm (low : lo.length = 4) (high : hi.length = 4) :
    ((wideImm (lo ++ hi)).toUInt64 >>> 32).toNat = leNat hi := by
  have bound := leNat_lt lo
  rw [low] at bound
  rw [UInt64.toNat_shiftRight, wideImm_toNat (by rw [List.length_append, low, high]), leNat_append, low,
    Nat.shiftRight_eq_div_pow]
  change (leNat lo + 256 ^ 4 * leNat hi) / 2 ^ 32 = _
  omega

/-- The decoder joins the halves. -/
theorem join_halves (low : lo.length = 4) (high : hi.length = 4) :
    zeroExtend (i32FromLeBytes lo).toUInt32 ||| zeroExtend (i32FromLeBytes hi).toUInt32 <<< 32 =
      wideImm (lo ++ hi) := by
  have bound := leNat_lt lo
  have bound' := leNat_lt hi
  rw [low] at bound
  rw [high] at bound'
  have word : ∀ bytes, leNat bytes < 256 ^ 4 → (i32FromLeBytes bytes).toUInt32.toNat = leNat bytes := by
    intro bytes bound
    rw [i32FromLeBytes, UInt32.toUInt32_toInt32, UInt32.toNat_ofNat_of_lt' bound]
  have shifted : (zeroExtend (i32FromLeBytes hi).toUInt32 <<< 32).toUInt64 =
      (i32FromLeBytes hi).toUInt32.toUInt64 <<< 32 := rfl
  apply Int64.toBitVec_inj.mp
  apply BitVec.eq_of_toNat_eq
  change _ = (wideImm (lo ++ hi)).toUInt64.toNat
  rw [wideImm_toNat (by rw [List.length_append, low, high]), leNat_append, low]
  change ((i32FromLeBytes lo).toUInt32.toUInt64 ||| (zeroExtend (i32FromLeBytes hi).toUInt32 <<< 32).toUInt64).toNat = _
  rw [shifted, UInt64.toNat_or, UInt64.toNat_shiftLeft, UInt32.toNat_toUInt64, UInt32.toNat_toUInt64, word lo bound,
    word hi bound', Nat.or_comm, Nat.shiftLeft_eq]
  change leNat hi * 2 ^ 32 % 2 ^ 64 ||| leNat lo = _
  rw [Nat.mod_eq_of_lt (by omega), or_beside (by omega)]
  rfl

theorem length_four (four : lo.length = 4) : ∃ a b c d, lo = [a, b, c, d] :=
  match lo, four with
  | [a, b, c, d], _ => ⟨a, b, c, d, rfl⟩

/-- A wide load's slots: its own half of the immediate and the other slot's. -/
theorem decodeNext_wide {head mid : List UInt8} (one : head.length = 4) (low : lo.length = 4) (two : mid.length = 4)
    (high : hi.length = 4) (rest : List UInt8) (wide : head[0]? = some ldImmDw) :
    decodeNext (head ++ (lo ++ (mid ++ hi)) ++ rest) =
      (Reg.new (head[1] &&& 0x0f)).map fun dst => (.loadImm64 dst (wideImm (lo ++ hi)), 16) := by
  have joined := join_halves low high
  obtain ⟨a, b, c, d, rfl⟩ := length_four one
  obtain ⟨e, f, g, h, rfl⟩ := length_four low
  obtain ⟨k, l, m, n, rfl⟩ := length_four two
  obtain ⟨o, p, q, r, rfl⟩ := length_four high
  cases wide
  rw [← joined, decodeNext, firstChunk, dif_pos (by simp [RawInsn.size])]
  dsimp only
  rw [decodeOne_wide rfl (by simp)]
  rfl

theorem firstChunk_head {n : Nat} {v : Vector UInt8 (n + 1)} (found : firstChunk (n + 1) bytes = some v) :
    bytes[0]? = some v[0] := by
  unfold firstChunk at found
  split at found
  · rename_i inside
    cases found
    rw [List.getElem?_eq_getElem (Nat.lt_of_lt_of_le n.succ_pos inside)]
    simp
  · cases found

/-- The opcode tells the wide loads. -/
theorem reads_opcode (reads : Reads decodeNext chunk insn) :
    slotWidth insn = 2 ↔ chunk[0]? = some ldImmDw := by
  have read := reads.2 []
  have length := (decodeNext_reads read).1
  rw [List.append_nil] at read
  unfold decodeNext at read
  split at read
  · cases read
  rename_i first found
  have width := slotWidth_pos insn
  rw [firstChunk_head found, Option.some_inj, length] at *
  have consumed := (decodeOne_cases read).1
  change _ = if first[0] = ldImmDw then 16 else 8 at consumed
  split at consumed
  · rename_i wide
    exact iff_of_true (by omega) wide
  · rename_i narrow
    exact iff_of_false (by omega) narrow

/-- The bytes of a wide load hold its immediate, and read as a wide load with any other in its place. -/
theorem wide_halves (reads : Reads decodeNext chunk (.loadImm64 dst imm)) (length : chunk.length = 16) :
    ∃ head lo mid hi, chunk = head ++ (lo ++ (mid ++ hi)) ∧ head.length = 4 ∧ lo.length = 4 ∧ mid.length = 4 ∧
      hi.length = 4 ∧ imm = wideImm (lo ++ hi) ∧ ∀ lo' hi', lo'.length = 4 → hi'.length = 4 →
        Reads decodeNext (head ++ (lo' ++ (mid ++ hi'))) (.loadImm64 dst (wideImm (lo' ++ hi'))) := by
  have opcode := (reads_opcode reads).mp rfl
  obtain ⟨head, tail, rfl, one⟩ : ∃ head tail, chunk = head ++ tail ∧ head.length = 4 :=
    ⟨_, _, (List.take_append_drop 4 chunk).symm, by rw [List.length_take]; omega⟩
  obtain ⟨lo, tail, rfl, low⟩ : ∃ lo rest, tail = lo ++ rest ∧ lo.length = 4 :=
    ⟨_, _, (List.take_append_drop 4 tail).symm, by rw [List.length_take]; rw [List.length_append] at length; omega⟩
  obtain ⟨mid, hi, rfl, two⟩ : ∃ mid hi, tail = mid ++ hi ∧ mid.length = 4 :=
    ⟨_, _, (List.take_append_drop 4 tail).symm, by
      rw [List.length_take]
      simp only [List.length_append] at length
      omega⟩
  have high : hi.length = 4 := by
    simp only [List.length_append] at length
    omega
  rw [List.getElem?_append_left (by omega)] at opcode
  have read := reads.2 []
  rw [decodeNext_wide one low two high [] opcode] at read
  cases target : Reg.new (head[1] &&& 0x0f) with
  | error e =>
    rw [target] at read
    cases read
  | ok reg =>
    rw [target] at read
    cases (Prod.mk.inj (Except.ok.inj read)).1
    refine ⟨head, lo, mid, hi, rfl, one, low, two, high, rfl, fun lo' hi' low' high' => ⟨?_, fun rest => ?_⟩⟩
    · intro empty
      have none := congrArg List.length empty
      rw [List.length_append, one, List.length_nil] at none
      omega
    · rw [decodeNext_wide one low' two high' rest opcode, target]
      simp [Except.map, one, low', two, high']

/-- Either half of a decoded wide load can be replaced in place. -/
theorem decodeProgram_wide (decoded : decodeProgram bytes = .ok insns) (here : insns[i]? = some (.loadImm64 dst imm)) :
    ∃ before head lo mid hi after, bytes = before ++ (head ++ (lo ++ (mid ++ (hi ++ after)))) ∧
      before.length = byteOffset insns i ∧ head.length = 4 ∧ lo.length = 4 ∧ mid.length = 4 ∧ hi.length = 4 ∧
      imm = wideImm (lo ++ hi) ∧ ∀ lo' hi', lo'.length = 4 → hi'.length = 4 →
        decodeProgram (before ++ (head ++ (lo' ++ (mid ++ (hi' ++ after))))) =
          .ok (insns.set i (.loadImm64 dst (wideImm (lo' ++ hi')))) := by
  obtain ⟨before, chunk, after, rfl, place, length, reads, replace⟩ := decodeProgram_set decoded here
  obtain ⟨head, lo, mid, hi, rfl, one, low, two, high, value, other⟩ := wide_halves reads length
  refine ⟨before, head, lo, mid, hi, after, by simp only [List.append_assoc], place, one, low, two, high, value,
    fun lo' hi' low' high' => ?_⟩
  rw [← replace _ _ (other lo' hi' low' high')]
  simp only [List.append_assoc]

end EbpfLab.Isa
