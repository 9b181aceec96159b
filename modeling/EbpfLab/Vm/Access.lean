import EbpfLab.Library.Outcome
import EbpfLab.Library.Stream
import EbpfLab.Vm.Memory

/-!
# Accesses that succeed

An access at a known place of a region succeeds when it is in bounds and aligned, and on the stack
when its bytes were written. Places are given as integers, so nothing wraps.
-/

namespace EbpfLab.Interp
open Isa Library

variable {addr base v : Int64} {size : MemSize} {off width len i : Nat} {m m' : MemoryView}

/-! ### Bounds and alignment -/

theorem boundedOffset_eq_some (low : 0 ≤ base.toInt) (place : addr.toInt = base.toInt + off)
    (fits : off + width ≤ len) : boundedOffset addr base width len = some off := by
  have upper := toInt_upper addr
  have gap : checkedSub addr base = some (Int64.ofInt off) := by
    refine checkedI64_eq_some.mpr ?_
    rw [toInt_ofInt (by omega) (by omega)]
    omega
  have back : usizeOf (Int64.ofInt off) = some off :=
    usizeOf_eq_some.mpr (toInt_ofInt (by omega) (by omega))
  simp [boundedOffset, gap, back, fits]

theorem toNat_toBitVec (low : 0 ≤ addr.toInt) : (addr.toBitVec.toNat : Int) = addr.toInt := by
  have value : addr.toInt = addr.toBitVec.toInt := rfl
  have bound := addr.toBitVec.isLt
  rw [value, BitVec.toInt_eq_toNat_cond] at low ⊢
  split <;> omega

/-- The low `k` bits of an address vanish when `2 ^ k` divides it. -/
theorem and_lowOnes_eq_zero {k : Nat} (small : k < 64) (low : 0 ≤ addr.toInt) :
    addr.toBitVec &&& BitVec.ofNat 64 (2 ^ k - 1) = 0 ↔ addr.toInt % (2 ^ k : Nat) = 0 := by
  have positive : 0 < 2 ^ k := Nat.two_pow_pos k
  have bound : 2 ^ k < 2 ^ 64 := Nat.pow_lt_pow_right (by decide) small
  have masked : (addr.toBitVec &&& BitVec.ofNat 64 (2 ^ k - 1)).toNat = addr.toBitVec.toNat % 2 ^ k := by
    rw [BitVec.toNat_and, BitVec.toNat_ofNat, Nat.mod_eq_of_lt (by omega),
      Nat.and_two_pow_sub_one_eq_mod]
  rw [← toNat_toBitVec low, ← BitVec.toNat_inj, masked]
  exact Int.ofNat_inj.symm

theorem checkAlignment_iff (low : 0 ≤ addr.toInt) :
    checkAlignment addr size = .ok () ↔ addr.toInt % size.bytes = 0 := by
  have clear : ∀ k mask, k < 64 → size.bytes = 2 ^ k → mask.toBitVec = BitVec.ofNat 64 (2 ^ k - 1) →
      (addr &&& mask = 0 ↔ addr.toInt % size.bytes = 0) := by
    intro k mask small width ones
    rw [← Int64.toBitVec_inj, Int64.toBitVec_and, ones, width]
    exact and_lowOnes_eq_zero small low
  unfold checkAlignment
  cases size with
  | b => exact ⟨fun _ => Int.emod_one _, fun _ => rfl⟩
  | h =>
    have mask : Int64.ofNat (MemSize.bytes .h) - 1 = 1 := by decide
    have wide : Int64.ofNat (MemSize.bytes .h) > 1 := by decide
    simp [mask, wide, ← clear 1 1 (by decide) rfl rfl]
  | w =>
    have mask : Int64.ofNat (MemSize.bytes .w) - 1 = 3 := by decide
    have wide : Int64.ofNat (MemSize.bytes .w) > 1 := by decide
    simp [mask, wide, ← clear 2 3 (by decide) rfl rfl]
  | dw =>
    have mask : Int64.ofNat (MemSize.bytes .dw) - 1 = 7 := by decide
    have wide : Int64.ofNat (MemSize.bytes .dw) > 1 := by decide
    simp [mask, wide, ← clear 3 7 (by decide) rfl rfl]

theorem alignedIf_ok (checks : Bool) (low : 0 ≤ addr.toInt) (aligned : addr.toInt % size.bytes = 0) :
    alignedIf checks addr size = .ok () := by
  unfold alignedIf
  split
  · exact (checkAlignment_iff low).mpr aligned
  · rfl

theorem regionLoad_ok {bytes : Bytes} (checks : Bool) (low : 0 ≤ base.toInt)
    (place : addr.toInt = base.toInt + off) (fits : off + size.bytes ≤ bytes.length)
    (aligned : addr.toInt % size.bytes = 0) :
    regionLoad bytes base addr size checks = .ok (leValue (slice bytes off size.bytes)) := by
  simp [regionLoad, boundedOffset_eq_some low place fits,
    alignedIf_ok checks (show 0 ≤ addr.toInt by omega) aligned]

/-! ### Words -/

/-- Gathering further bytes adds them above those gathered. -/
theorem gather_toNat (bytes : Bytes) {n : Nat} {v : UInt64} (low : v.toNat < 256 ^ n)
    (short : n + bytes.length ≤ 8) :
    ((bytes.zipIdx n).foldl (fun v place => v ||| place.1.toUInt64 <<< UInt64.ofNat (8 * place.2)) v).toNat =
      v.toNat + 256 ^ n * leNat bytes := by
  induction bytes generalizing n v with
  | nil => simp [leNat]
  | cons b bytes ih =>
    rw [List.length_cons] at short
    have byte := b.toNat_lt
    have width : (256 : Nat) ^ n = 2 ^ (8 * n) := by rw [Nat.pow_mul]
    have next : (256 : Nat) ^ (n + 1) = 256 ^ n * 256 := Nat.pow_succ 256 n
    have inside : 256 ^ (n + 1) ≤ 256 ^ 8 := Nat.pow_le_pow_right (by decide) (by omega)
    have above : b.toNat * 256 ^ n + 256 ^ n ≤ 256 ^ (n + 1) := by
      rw [next, ← Nat.succ_mul, Nat.mul_comm]
      exact Nat.mul_le_mul_left _ byte
    have shifted : (b.toUInt64 <<< UInt64.ofNat (8 * n)).toNat = b.toNat * 2 ^ (8 * n) := by
      have amount : (UInt64.ofNat (8 * n)).toNat = 8 * n := by
        rw [UInt64.toNat_ofNat']
        omega
      have inside : b.toNat * 2 ^ (8 * n) < 2 ^ 64 := by
        rw [← width]
        omega
      rw [UInt64.toNat_shiftLeft, UInt8.toNat_toUInt64, amount, Nat.mod_eq_of_lt (show 8 * n < 64 by omega),
        Nat.shiftLeft_eq, Nat.mod_eq_of_lt inside]
    have gathered : (v ||| b.toUInt64 <<< UInt64.ofNat (8 * n)).toNat = v.toNat + 256 ^ n * b.toNat := by
      rw [UInt64.toNat_or, shifted, Nat.or_comm, or_beside (width ▸ low), ← width]
    rw [List.zipIdx_cons, List.foldl_cons, ih (by rw [gathered, Nat.mul_comm]; omega) (by omega), gathered, leNat,
      next, Nat.mul_add, Nat.mul_assoc, Nat.add_assoc]

/-- What a load returns is the number its bytes denote. -/
theorem leValue_eq {bytes : Bytes} (short : bytes.length ≤ 8) :
    leValue bytes = (UInt64.ofNat (leNat bytes)).toInt64 := by
  have gathered := gather_toNat bytes (n := 0) (v := 0) Nat.one_pos (by omega)
  have bound : leNat bytes < 2 ^ 64 :=
    Nat.lt_of_lt_of_le (leNat_lt bytes) (Nat.pow_le_pow_right (by decide) short)
  have same : bytes.zipIdx.foldl (fun v place => v ||| place.1.toUInt64 <<< UInt64.ofNat (8 * place.2)) 0 =
      UInt64.ofNat (leNat bytes) := by
    apply UInt64.toNat_inj.mp
    rw [gathered, UInt64.toNat_ofNat_of_lt' bound]
    simp
  exact congrArg UInt64.toInt64 same

/-- What a store writes are the low digits of the value. -/
theorem leBytes_eq (v : Int64) {width : Nat} (short : width ≤ 8) :
    leBytes v width = leDigits width v.toUInt64.toNat := by
  induction width with
  | zero => rfl
  | succ width ih =>
    have shift : (UInt64.ofNat (8 * width)).toNat = 8 * width :=
      UInt64.toNat_ofNat_of_lt' (show 8 * width < 2 ^ 64 by omega)
    have power : 2 ^ (8 * width) = 256 ^ width := Nat.pow_mul 2 8 width
    have last : (v.toUInt64 >>> UInt64.ofNat (8 * width)).toUInt8 =
        UInt8.ofNat (v.toUInt64.toNat / 256 ^ width % 256) := by
      apply UInt8.toNat_inj.mp
      rw [UInt64.toNat_toUInt8, UInt64.toNat_shiftRight, shift, Nat.mod_eq_of_lt (show 8 * width < 64 by omega),
        Nat.shiftRight_eq_div_pow, power, UInt8.toNat_ofNat', Nat.mod_mod]
    rw [leDigits_add, ← ih (by omega), leBytes, List.range_succ, List.map_append, List.map_singleton, last]
    rfl

/-! ### Regions -/

theorem classify_stack (low : 0xFE00 ≤ addr.toInt) (high : addr.toInt ≤ 0x10000) :
    MemoryView.classify addr = .stack := by
  have lower : stackLow ≤ addr := Int64.le_iff_toInt_le.mpr low
  have upper : addr ≤ stackBase := Int64.le_iff_toInt_le.mpr high
  simp [MemoryView.classify, lower, upper]

/-- Above the stack the regions follow one another. -/
theorem classify_above (above : 0x10000 < addr.toInt) :
    MemoryView.classify addr =
      if 0x50000 ≤ addr.toInt then .rodata
      else if 0x40000 ≤ addr.toInt then .xdpMd
      else if 0x30000 ≤ addr.toInt then .mapScratch
      else if 0x20000 ≤ addr.toInt then .packet
      else .unknown := by
  have base : stackBase.toInt = 0x10000 := by decide
  have beyond : ¬ addr ≤ stackBase := by
    intro below
    have := Int64.le_iff_toInt_le.mp below
    omega
  have order : ∀ b : Int64, addr ≥ b ↔ b.toInt ≤ addr.toInt := fun b => Int64.le_iff_toInt_le
  simp only [MemoryView.classify, beyond, and_false, if_false, order]
  rfl

/-! ### The stack -/

theorem StackMemory.index_ok (place : addr.toInt = 0xFE00 + i) (fits : i + size.bytes ≤ 512) :
    StackMemory.index addr size = .ok i := by
  have base : stackLow.toInt = 0xFE00 := by decide
  have gap : checkedSub addr stackLow = some (Int64.ofInt i) := by
    refine checkedI64_eq_some.mpr ?_
    rw [toInt_ofInt (by omega) (by omega)]
    omega
  have value : (Int64.ofInt i).toInt = i := toInt_ofInt (by omega) (by omega)
  unfold StackMemory.index
  simp only [gap, value]
  rw [if_neg (by omega)]
  simp

theorem MemSize.bytes_pos (size : MemSize) : 0 < size.bytes ∧ size.bytes ≤ 8 := by
  cases size <;> decide

/-- Every byte of `i .. i + width` was written. -/
def StackMemory.Written (s : StackMemory) (i width : Nat) : Prop :=
  ∀ k, i ≤ k → k < i + width → s.initialized.test k = true

theorem load_stack (place : addr.toInt = 0xFE00 + i) (fits : i + size.bytes ≤ 512)
    (aligned : addr.toInt % size.bytes = 0) (written : m.stack.Written i size.bytes) :
    ∃ v, m.load addr size = .ok v := by
  have width := MemSize.bytes_pos size
  have init : m.stack.isInit i size.bytes = true :=
    (Bitset.testRange_iff _ _ _ (by omega)).mpr written
  refine ⟨leValue (slice m.stack.bytes i size.bytes), ?_⟩
  rw [MemoryView.load, classify_stack (by omega) (by omega)]
  simp only [StackMemory.load, StackMemory.index_ok place fits, ok_bind,
    alignedIf_ok m.alignChecks (show 0 ≤ addr.toInt by omega) aligned, init, if_true]

theorem store_stack (place : addr.toInt = 0xFE00 + i) (fits : i + size.bytes ≤ 512)
    (aligned : addr.toInt % size.bytes = 0) :
    ∃ stack, m.store addr size v = .ok { m with stack } ∧
      ∀ k, stack.initialized.test k =
        (m.stack.initialized.test k || decide (i ≤ k ∧ k < i + size.bytes)) := by
  have width := MemSize.bytes_pos size
  have found := StackMemory.index_ok place fits
  have inside : i + (leBytes v size.bytes).length ≤ stackSize := by simpa [stackSize] using fits
  refine ⟨m.stack.write i (leBytes v size.bytes) inside, ?_, ?_⟩
  · rw [MemoryView.store, classify_stack (by omega) (by omega)]
    have stored : m.stack.store addr size v m.alignChecks =
        .ok (m.stack.write i (leBytes v size.bytes) inside) := by
      unfold StackMemory.store
      split
      · rename_i failed
        rw [found] at failed
        cases failed
      · rename_i j same
        rw [found, Except.ok.injEq] at same
        subst same
        simp only [alignedIf_ok m.alignChecks (show 0 ≤ addr.toInt by omega) aligned, ok_bind]
    simp only [stored, ok_bind]
  · intro k
    simp only [StackMemory.write, length_leBytes]
    exact Bitset.test_setRange _ _ _ _ (by omega) (by omega) width.1

/-- Reading written stack bytes in bulk succeeds. -/
theorem loadBytes_stack (place : addr.toInt = 0xFE00 + i) (fits : i + len ≤ 512)
    (written : m.stack.Written i len) : ∃ bytes, m.loadBytes addr len = .ok bytes := by
  unfold MemoryView.loadBytes
  split
  · exact ⟨[], rfl⟩
  · have every : ((List.range' i len).all fun k => m.stack.isInit k 1) = true := by
      rw [List.all_eq_true]
      intro k present
      obtain ⟨lower, upper⟩ := List.mem_range'_1.mp present
      refine (Bitset.testRange_iff _ _ _ (by decide)).mpr ?_
      intro k' lower' upper'
      exact written k' (by omega) (by omega)
    have bulk : m.loadBytesBulk addr len = some (slice m.stack.bytes i len) := by
      rw [MemoryView.loadBytesBulk, classify_stack (by omega) (by omega)]
      have offset : boundedOffset addr stackLow len stackSize = some i :=
        boundedOffset_eq_some (by decide) place fits
      simp only [offset, Option.bind_some, every, if_true]
    rw [bulk]
    exact ⟨_, rfl⟩

/-! ### The XDP context -/

theorem getLsbD_mod_byte (x : BitVec 64) (i : Nat) :
    (x % 256#64).getLsbD i = (decide (i < 8) && x.getLsbD i) := by
  rw [BitVec.getLsbD, BitVec.toNat_umod, show (256#64).toNat = 2 ^ 8 from rfl,
    Nat.testBit_mod_two_pow, BitVec.getLsbD]

theorem leValue_leBytes_word (w : UInt32) : leValue (leBytes (zeroExtend w) 4) = zeroExtend w := by
  simp only [leValue, leBytes, zeroExtend, List.range, List.range.loop, List.map, List.zipIdx, List.foldl]
  congr 1
  apply UInt64.toBitVec_inj.mp
  apply BitVec.eq_of_getLsbD_eq
  intro j small
  -- byte `k` of the word supplies the bits `8 * k ..`
  have byte : ∀ k, (decide (j < 64) && !decide (j < k) && (decide (j - k < 8) &&
      (decide (k + (j - k) < 64) && w.toBitVec.getLsbD (k + (j - k))))) =
      (decide (k ≤ j ∧ j < k + 8) && w.toBitVec.getLsbD j) := by
    intro k
    by_cases above : k ≤ j
    · rw [Nat.add_sub_cancel' above]
      by_cases inside : j < k + 8
      · simp [small, above, inside, show j - k < 8 by omega, show ¬ j < k by omega]
      · simp [inside, show ¬ j - k < 8 by omega]
    · simp [above, show j < k by omega]
  simp
  simp only [getLsbD_mod_byte, BitVec.getLsbD_ushiftRight, BitVec.getLsbD_setWidth, byte]
  cases bit : w.toBitVec.getLsbD j with
  | false => simp
  | true =>
    have short : j < 32 := by
      refine Nat.lt_of_not_le fun above => ?_
      rw [BitVec.getLsbD_of_ge _ _ above] at bit
      cases bit
    simp only [Bool.and_true, small, decide_true, Bool.or_eq_true, decide_eq_true_eq]
    omega

/-- A value that fits a `u32` survives the trip through one. -/
theorem zeroExtend_saturateU32 (low : 0 ≤ v.toInt) (high : v.toInt < 2 ^ 32) :
    zeroExtend (MemoryView.saturateU32 v) = v := by
  have value := toNat_toBitVec low
  simp only [MemoryView.saturateU32, low, high, and_self, if_true, zeroExtend]
  apply Int64.toBitVec_inj.mp
  apply BitVec.eq_of_toNat_eq
  simp
  omega

theorem context_data (packet : Bytes) :
    leValue (slice (MemoryView.default.setPacket packet).xdpMd 0 4) = packetBase := by
  have word : slice (MemoryView.default.setPacket packet).xdpMd 0 4 =
      leBytes (zeroExtend (MemoryView.saturateU32 packetBase)) 4 := by
    simp [slice, MemoryView.setPacket]
  rw [word, leValue_leBytes_word]
  decide

theorem context_dataEnd {packet : Bytes} (short : 0x20000 + packet.length < 2 ^ 32) :
    leValue (slice (MemoryView.default.setPacket packet).xdpMd 4 4) =
      saturatingI64 (packetBase.toInt + (saturatingI64 packet.length).toInt) := by
  have word : slice (MemoryView.default.setPacket packet).xdpMd 4 4 =
      leBytes (zeroExtend (MemoryView.saturateU32
        (saturatingI64 (packetBase.toInt + (saturatingI64 packet.length).toInt)))) 4 := by
    simp only [slice, MemoryView.setPacket]
    rw [List.drop_append_of_le_length (by simp), List.drop_of_length_le (by simp), List.nil_append,
      List.take_of_length_le (by simp)]
  have base : packetBase.toInt = 0x20000 := by decide
  rw [word, leValue_leBytes_word, zeroExtend_saturateU32]
  · simp only [saturatingI64_toInt, base]
    split <;> split <;> omega
  · simp only [saturatingI64_toInt, base]
    split <;> split <;> omega

theorem length_context (packet : Bytes) : (MemoryView.default.setPacket packet).xdpMd.length = 8 := by
  simp [MemoryView.setPacket]

/-! ### The other regions -/

theorem load_packet {packet : Bytes} (installed : m.packet = some packet)
    (place : addr.toInt = 0x20000 + off) (fits : off + size.bytes ≤ packet.length)
    (window : off < 0x10000) (aligned : addr.toInt % size.bytes = 0) :
    ∃ v, m.load addr size = .ok v := by
  rw [MemoryView.load, classify_above (by omega), if_neg (by omega), if_neg (by omega),
    if_neg (by omega), if_pos (by omega)]
  simp only [installed]
  exact ⟨_, regionLoad_ok m.alignChecks (by decide) place fits aligned⟩

theorem load_data {data : Bytes} (installed : m.rodata = some data)
    (place : addr.toInt = 0x50000 + off) (fits : off + size.bytes ≤ data.length)
    (aligned : addr.toInt % size.bytes = 0) : ∃ v, m.load addr size = .ok v := by
  rw [MemoryView.load, classify_above (by omega), if_pos (by omega)]
  simp only [installed]
  exact ⟨_, regionLoad_ok m.alignChecks (by decide) place fits aligned⟩

theorem load_context (place : addr.toInt = 0x40000 + off) (fits : off + size.bytes ≤ m.xdpMd.length)
    (window : m.xdpMd.length ≤ 0x10000) (aligned : addr.toInt % size.bytes = 0) :
    m.load addr size = .ok (leValue (slice m.xdpMd off size.bytes)) := by
  have width := MemSize.bytes_pos size
  rw [MemoryView.load, classify_above (by omega), if_neg (by omega), if_pos (by omega)]
  exact regionLoad_ok m.alignChecks (by decide) place fits aligned

theorem load_scratch (place : addr.toInt = 0x30000 + off)
    (fits : off + size.bytes ≤ m.mapScratch.length) (window : off < 0x10000)
    (aligned : addr.toInt % size.bytes = 0) : ∃ v, m.load addr size = .ok v := by
  rw [MemoryView.load, classify_above (by omega), if_neg (by omega), if_neg (by omega),
    if_pos (by omega)]
  exact ⟨_, regionLoad_ok m.alignChecks (by decide) place fits aligned⟩

theorem store_scratch (place : addr.toInt = 0x30000 + off)
    (fits : off + size.bytes ≤ m.mapScratch.length) (window : off < 0x10000)
    (aligned : addr.toInt % size.bytes = 0) :
    ∃ mapScratch, m.store addr size v = .ok { m with mapScratch } ∧
      mapScratch.length = m.mapScratch.length := by
  refine ⟨overwrite m.mapScratch off (leBytes v size.bytes), ?_, length_overwrite (by simpa using fits)⟩
  rw [MemoryView.store, classify_above (by omega), if_neg (by omega), if_neg (by omega),
    if_pos (by omega)]
  simp only [MemoryView.scratchStore, boundedOffset_eq_some (show 0 ≤ mapScratchBase.toInt by decide)
    place fits, alignedIf_ok m.alignChecks (show 0 ≤ addr.toInt by omega) aligned, ok_bind]

end EbpfLab.Interp
