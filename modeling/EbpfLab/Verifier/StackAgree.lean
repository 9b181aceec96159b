import EbpfLab.Verifier.StackBytes
import EbpfLab.Vm.Access

/-!
# The two stacks agree

The verifier checks a stack access by its offset from the frame pointer, the interpreter by its
address. On addresses of the stack the two accept the same accesses and mark the same bytes.
-/

namespace EbpfLab.Verifier
open Isa Interp Library

variable {s : VerifierState} {m m' : MemoryView} {base : Reg} {o start : Int32} {offset : Int16}
  {size : MemSize} {pc lo hi width i : Nat} {addr value : Int64}

/-! ### The interpreter -/

theorem index_iff : StackMemory.index addr size = .ok i ↔
    addr.toInt = 0xFE00 + i ∧ i + size.bytes ≤ 512 := by
  refine ⟨fun found => ⟨?_, StackMemory.index_inside found⟩, fun place =>
    StackMemory.index_ok place.1 place.2⟩
  unfold StackMemory.index at found
  split at found
  · cases found
  · rename_i gap gap_eq
    have low : stackLow.toInt = 0xFE00 := by decide
    have value := checkedI64_eq_some.mp gap_eq
    split at found
    · cases found
    · cases found
      omega

theorem load_stack_iff (region : MemoryView.classify addr = .stack) (checks : m.alignChecks = true) :
    (∃ v, m.load addr size = .ok v) ↔ ∃ i : Nat, addr.toInt = 0xFE00 + i ∧ i + size.bytes ≤ 512 ∧
      addr.toInt % size.bytes = 0 ∧ m.stack.Written i size.bytes := by
  have width := MemSize.bytes_pos size
  constructor
  · rintro ⟨v, loaded⟩
    rw [MemoryView.load, region] at loaded
    obtain ⟨i, found, loaded⟩ := bind_eq_ok.mp loaded
    obtain ⟨place, inside⟩ := index_iff.mp found
    obtain ⟨_, aligned, loaded⟩ := bind_eq_ok.mp loaded
    rw [alignedIf, if_pos checks, checkAlignment_iff (by omega)] at aligned
    split at loaded
    · rename_i init
      exact ⟨i, place, inside, aligned, (Bitset.testRange_iff _ _ _ (by omega)).mp init⟩
    · cases loaded
  · rintro ⟨i, place, inside, aligned, written⟩
    exact load_stack place inside aligned written

theorem store_stack_iff (region : MemoryView.classify addr = .stack) (checks : m.alignChecks = true) :
    (∃ m', m.store addr size value = .ok m') ↔ ∃ i : Nat, addr.toInt = 0xFE00 + i ∧
      i + size.bytes ≤ 512 ∧ addr.toInt % size.bytes = 0 := by
  constructor
  · rintro ⟨m', stored⟩
    rw [MemoryView.store, region] at stored
    obtain ⟨stack, stored, _⟩ := bind_eq_ok.mp stored
    unfold StackMemory.store at stored
    split at stored
    · cases stored
    · rename_i i found
      obtain ⟨place, inside⟩ := index_iff.mp found
      obtain ⟨_, aligned, _⟩ := bind_eq_ok.mp stored
      rw [alignedIf, if_pos checks, checkAlignment_iff (by omega)] at aligned
      exact ⟨i, place, inside, aligned⟩
  · rintro ⟨i, place, inside, aligned⟩
    obtain ⟨stack, stored, _⟩ := store_stack (m := m) (v := value) place inside aligned
    exact ⟨_, stored⟩

/-! ### The verifier -/

theorem byteRange_iff : byteRange o offset width pc = .ok (start, lo, hi) ↔
    start.toInt = o.toInt + offset.toInt ∧ (lo : Int) = o.toInt + offset.toInt + 512 ∧
      (hi : Int) + 1 = lo + width ∧ o.toInt + offset.toInt + width ≤ 0 := by
  constructor
  · intro ranged
    obtain ⟨_, high, first, last⟩ := byteRange_ok ranged
    refine ⟨?_, first, last, high⟩
    unfold byteRange at ranged
    split at ranged
    · cases ranged
    · rename_i start' start_eq
      have place := checkedI32_eq_some.mp start_eq
      split at ranged
      · cases ranged
      · split at ranged
        · cases ranged
        · split at ranged
          · cases ranged
          · cases ranged
            exact place
  · rintro ⟨place, first, last, high⟩
    have start_eq : checkedI32 (o.toInt + offset.toInt) = some start := checkedI32_eq_some.mpr place
    have value : (Int32.ofInt (start.toInt + width)).toInt = start.toInt + width :=
      Int32.toInt_ofInt_of_le (by simp; omega) (by simp; omega)
    have fin_eq : checkedI32 (start.toInt + width) = some (Int32.ofInt (start.toInt + width)) :=
      checkedI32_eq_some.mpr value
    unfold byteRange
    rw [start_eq]
    dsimp only
    rw [fin_eq]
    dsimp only
    rw [if_neg (by omega), if_neg (by omega)]
    have first' : (start.toInt + 512).toNat = lo := by omega
    have last' : ((Int32.ofInt (start.toInt + width)).toInt - 1 + 512).toNat = hi := by omega
    rw [first', last']

/-- The stack check accepts an aligned access inside the frame. -/
theorem checkMemAccess_iff (held : s.reg base = .stackPtr o) :
    checkMemAccess s base offset size pc = .ok (start, lo, hi) ↔
      start.toInt = o.toInt + offset.toInt ∧ (lo : Int) = o.toInt + offset.toInt + 512 ∧
        (hi : Int) + 1 = lo + size.bytes ∧ o.toInt + offset.toInt + size.bytes ≤ 0 ∧
          (o.toInt + offset.toInt) % size.bytes = 0 := by
  have width := MemSize.bytes_pos size
  have pointer : ensureStackPtr s base pc = .ok () := by rw [ensureStackPtr, held]
  have even : ¬ (size.bytes > 1 ∧ (o.toInt + offset.toInt) % size.bytes ≠ 0) ↔
      (o.toInt + offset.toInt) % size.bytes = 0 := by
    refine ⟨fun aligned => ?_, fun aligned odd => odd.2 aligned⟩
    by_cases byte : size.bytes > 1
    · by_contra odd
      exact aligned ⟨byte, odd⟩
    · rw [show size.bytes = 1 by omega]
      exact Int.emod_one _
  unfold checkMemAccess
  rw [pointer, ok_bind, held]
  dsimp only [RegType.stackOffset, Option.getD_some]
  rw [bind_eq_ok]
  constructor
  · rintro ⟨⟨start', lo', hi'⟩, ranged, passed⟩
    obtain ⟨place, first, last, high⟩ := (byteRange_iff).mp ranged
    dsimp only at passed
    split at passed
    · cases passed
    · rename_i aligned
      cases passed
      exact ⟨place, first, last, high, even.mp aligned⟩
  · rintro ⟨place, first, last, high, aligned⟩
    refine ⟨(start, lo, hi), (byteRange_iff).mpr ⟨place, first, last, high⟩, ?_⟩
    dsimp only
    rw [if_neg (even.mpr aligned)]

/-- The address of an access through a stack pointer. -/
theorem stack_address (o : Int32) (offset : Int16) :
    (stackBase + o.toInt64 + offset.toInt64).toInt = 0x10000 + (o.toInt + offset.toInt) := by
  have base : stackBase.toInt = 0x10000 := by decide
  have wide : o.toInt64.toInt = o.toInt := Int32.toInt_toInt64 o
  have wide' : offset.toInt64.toInt = offset.toInt := Int16.toInt_toInt64 offset
  have low := o.le_toInt
  have high := o.toInt_lt
  have low' := offset.le_toInt
  have high' := offset.toInt_lt
  have inner : (stackBase + o.toInt64).toInt = 0x10000 + o.toInt := by
    rw [toInt_add (by omega) (by omega), base, wide]
  rw [toInt_add (by omega) (by omega), inner, wide', Int.add_assoc]

/-! ### Both -/

/-- The place of an accepted access. -/
theorem checkMemAccess_place (held : s.reg base = .stackPtr o)
    (passed : checkMemAccess s base offset size pc = .ok (start, lo, hi)) :
    (stackBase + o.toInt64 + offset.toInt64).toInt = 0xFE00 + lo ∧ lo + size.bytes ≤ 512 ∧
      (stackBase + o.toInt64 + offset.toInt64).toInt % size.bytes = 0 ∧ hi + 1 = lo + size.bytes ∧
        MemoryView.classify (stackBase + o.toInt64 + offset.toInt64) = .stack := by
  obtain ⟨_, first, last, high, aligned⟩ := (checkMemAccess_iff held).mp passed
  have address := stack_address o offset
  have width := MemSize.bytes_pos size
  refine ⟨by omega, by omega, ?_, by omega, classify_stack (by omega) (by omega)⟩
  rw [address]
  cases size <;> simp only [MemSize.bytes] at aligned ⊢ <;> omega

/-- An access at a place of the stack is accepted. -/
theorem checkMemAccess_of_place (held : s.reg base = .stackPtr o)
    (place : (stackBase + o.toInt64 + offset.toInt64).toInt = 0xFE00 + i)
    (inside : i + size.bytes ≤ 512)
    (aligned : (stackBase + o.toInt64 + offset.toInt64).toInt % size.bytes = 0) :
    ∃ start, checkMemAccess s base offset size pc = .ok (start, i, i + size.bytes - 1) := by
  have address := stack_address o offset
  have width := MemSize.bytes_pos size
  have value : (Int32.ofInt (o.toInt + offset.toInt)).toInt = o.toInt + offset.toInt :=
    Int32.toInt_ofInt_of_le (by simp; omega) (by simp; omega)
  refine ⟨Int32.ofInt (o.toInt + offset.toInt), (checkMemAccess_iff held).mpr
    ⟨value, by omega, by omega, by omega, ?_⟩⟩
  rw [address] at aligned
  cases size <;> simp only [MemSize.bytes] at aligned ⊢ <;> omega

/-- The bytes the verifier calls written are those the interpreter calls written. -/
theorem stackRangeInit_written (bitmap : s.stackInit = m.stack.initialized) (last : hi + 1 = lo + width) :
    s.stackRangeInit lo hi = true ↔ m.stack.Written lo width := by
  rw [stackRangeInit_iff, bitmap]
  exact ⟨fun every k lower upper => every k lower (by omega),
    fun written k lower upper => written k lower (by omega)⟩

/-- The verifier's stack check and the interpreter accept the same accesses at stack addresses, and
an accepted store marks the same bytes. -/
theorem stack_models_agree (s : VerifierState) (m : MemoryView) (base : Reg) (o : Int32)
    (offset : Int16) (size : MemSize) (pc : Nat) (value : Int64) (held : s.reg base = .stackPtr o)
    (checks : m.alignChecks = true) (bitmap : s.stackInit = m.stack.initialized) :
    ((∃ start lo hi, checkMemAccess s base offset size pc = .ok (start, lo, hi) ∧
        s.stackRangeInit lo hi = true) ↔
      MemoryView.classify (stackBase + o.toInt64 + offset.toInt64) = .stack ∧
        ∃ v, m.load (stackBase + o.toInt64 + offset.toInt64) size = .ok v) ∧
    ((∃ out, checkMemAccess s base offset size pc = .ok out) ↔
      MemoryView.classify (stackBase + o.toInt64 + offset.toInt64) = .stack ∧
        ∃ m', m.store (stackBase + o.toInt64 + offset.toInt64) size value = .ok m') ∧
    ∀ start lo hi m', checkMemAccess s base offset size pc = .ok (start, lo, hi) →
      m.store (stackBase + o.toInt64 + offset.toInt64) size value = .ok m' →
        (s.markStackRange lo hi).stackInit = m'.stack.initialized := by
  have width := MemSize.bytes_pos size
  refine ⟨⟨?_, ?_⟩, ⟨?_, ?_⟩, ?_⟩
  · rintro ⟨start, lo, hi, passed, init⟩
    obtain ⟨place, inside, aligned, last, region⟩ := checkMemAccess_place held passed
    exact ⟨region, (load_stack_iff region checks).mpr
      ⟨lo, place, inside, aligned, (stackRangeInit_written bitmap last).mp init⟩⟩
  · rintro ⟨region, loaded⟩
    obtain ⟨i, place, inside, aligned, written⟩ := (load_stack_iff region checks).mp loaded
    obtain ⟨start, passed⟩ := checkMemAccess_of_place held place inside aligned
    exact ⟨start, _, _, passed, (stackRangeInit_written bitmap (by omega)).mpr written⟩
  · rintro ⟨⟨start, lo, hi⟩, passed⟩
    obtain ⟨place, inside, aligned, _, region⟩ := checkMemAccess_place held passed
    exact ⟨region, (store_stack_iff region checks).mpr ⟨lo, place, inside, aligned⟩⟩
  · rintro ⟨region, stored⟩
    obtain ⟨i, place, inside, aligned⟩ := (store_stack_iff region checks).mp stored
    obtain ⟨start, passed⟩ := checkMemAccess_of_place held place inside aligned
    exact ⟨_, passed⟩
  · intro start lo hi m' passed stored
    obtain ⟨place, inside, aligned, last, _⟩ := checkMemAccess_place held passed
    obtain ⟨stack, stored', marks⟩ := store_stack (m := m) (v := value) place inside aligned
    obtain rfl := Except.ok.inj (stored'.symm.trans stored)
    refine Bitset.ext_test fun k _ => ?_
    rw [test_markStackRange s (by omega), marks, bitmap]
    congr 1
    rw [decide_eq_decide]
    omega

theorem stack_models_agree_entry :
    ((∃ start lo hi, checkMemAccess (.initialWithMaps []) 10 (-8) .dw 0 = .ok (start, lo, hi) ∧
        (VerifierState.initialWithMaps []).stackRangeInit lo hi = true) ↔
      MemoryView.classify (stackBase + (0 : Int32).toInt64 + (-8 : Int16).toInt64) = .stack ∧
        ∃ v, MemoryView.default.load (stackBase + (0 : Int32).toInt64 + (-8 : Int16).toInt64) .dw = .ok v) ∧
    ((∃ out, checkMemAccess (.initialWithMaps []) 10 (-8) .dw 0 = .ok out) ↔
      MemoryView.classify (stackBase + (0 : Int32).toInt64 + (-8 : Int16).toInt64) = .stack ∧
        ∃ m', MemoryView.default.store (stackBase + (0 : Int32).toInt64 + (-8 : Int16).toInt64) .dw 7 =
          .ok m') ∧
    ∀ start lo hi m', checkMemAccess (.initialWithMaps []) 10 (-8) .dw 0 = .ok (start, lo, hi) →
      MemoryView.default.store (stackBase + (0 : Int32).toInt64 + (-8 : Int16).toInt64) .dw 7 = .ok m' →
        ((VerifierState.initialWithMaps []).markStackRange lo hi).stackInit = m'.stack.initialized :=
  stack_models_agree (.initialWithMaps []) .default 10 0 (-8) .dw 0 7 (by decide) rfl rfl

/-- A stack pointer to the address of the XDP context, beside a fresh memory. -/
def strayPointer : VerifierState := (VerifierState.initialWithMaps []).setReg 1 (.stackPtr 0x30000)

theorem strayPointer_context :
    strayPointer.reg 1 = .stackPtr 0x30000 ∧
      strayPointer.stackInit = MemoryView.default.stack.initialized ∧
      MemoryView.default.alignChecks = true ∧
      checkMemAccess strayPointer 1 0 .w 0 = .error (.stackOverflow 0) ∧
      MemoryView.default.load (stackBase + (0x30000 : Int32).toInt64 + (0 : Int16).toInt64) .w = .ok 0 := by
  refine ⟨by decide, rfl, rfl, by decide, by decide⟩

end EbpfLab.Verifier
