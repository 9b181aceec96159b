import EbpfLab.Isa.Image
import EbpfLab.Isa.Num

/-!
# Byte swaps

What a byte swap of each width computes in each ALU class, over the bytes of the value.
-/

namespace EbpfLab.Isa
open Library Opcode

/-- The number the low bytes denote, in the order the swap leaves them. -/
def orderedNat : Endian → Nat → Nat → Nat
  | .le, width, n => leNat (leDigits width n)
  | .be, width, n => reversedNat width n

/-- The low bytes of a value, in the swap's order, zero-extended. -/
def swapped (endian : Endian) (width : Nat) (v : Int64) : Int64 :=
  (UInt64.ofNat (orderedNat endian width v.toUInt64.toNat)).toInt64

/-! ### Words -/

theorem toNat_swapBytes16 (x : UInt16) : (swapBytes16 x).toNat = reversedNat 2 x.toNat := by
  have bound := x.toNat_lt
  have shifted : x.toNat * 2 ^ 8 % 2 ^ 16 = x.toNat % 256 * 2 ^ 8 := by omega
  have digits : reversedNat 2 x.toNat = x.toNat / 256 % 256 + 256 * (x.toNat % 256) := by
    simp [reversedNat, leDigits, leNat]
  rw [swapBytes16, UInt16.toNat_or, UInt16.toNat_shiftLeft, UInt16.toNat_shiftRight, Nat.shiftLeft_eq,
    Nat.shiftRight_eq_div_pow]
  change x.toNat * 2 ^ 8 % 2 ^ 16 ||| x.toNat / 2 ^ 8 = _
  rw [shifted, or_beside (by omega), digits]
  omega

theorem toNat_swapBytes32 (x : UInt32) : (swapBytes32 x).toNat = reversedNat 4 x.toNat := by
  have bound := x.toNat_lt
  have low : (swapBytes16 x.toUInt16).toNat = reversedNat 2 x.toNat := by
    rw [toNat_swapBytes16, UInt32.toNat_toUInt16]
    exact reversedNat_mod 2 x.toNat
  have high : (swapBytes16 (x >>> 16).toUInt16).toNat = reversedNat 2 (x.toNat / 256 ^ 2) := by
    rw [toNat_swapBytes16, UInt32.toNat_toUInt16, UInt32.toNat_shiftRight, Nat.shiftRight_eq_div_pow,
      ← reversedNat_mod 2 (x.toNat / 256 ^ 2)]
    rfl
  have small := reversedNat_lt 2 x.toNat
  have narrow := reversedNat_lt 2 (x.toNat / 256 ^ 2)
  rw [swapBytes32, UInt32.toNat_or, UInt32.toNat_shiftLeft, UInt16.toNat_toUInt32, UInt16.toNat_toUInt32,
    low, high, Nat.shiftLeft_eq]
  change reversedNat 2 x.toNat * 2 ^ 16 % 2 ^ 32 ||| _ = _
  rw [Nat.mod_eq_of_lt (by omega), or_beside narrow, reversedNat_add 2 2]
  rfl

theorem toNat_swapBytes64 (x : UInt64) : (swapBytes64 x).toNat = reversedNat 8 x.toNat := by
  have bound := x.toNat_lt
  have low : (swapBytes32 x.toUInt32).toNat = reversedNat 4 x.toNat := by
    rw [toNat_swapBytes32, UInt64.toNat_toUInt32]
    exact reversedNat_mod 4 x.toNat
  have high : (swapBytes32 (x >>> 32).toUInt32).toNat = reversedNat 4 (x.toNat / 256 ^ 4) := by
    rw [toNat_swapBytes32, UInt64.toNat_toUInt32, UInt64.toNat_shiftRight, Nat.shiftRight_eq_div_pow,
      ← reversedNat_mod 4 (x.toNat / 256 ^ 4)]
    rfl
  have small := reversedNat_lt 4 x.toNat
  have narrow := reversedNat_lt 4 (x.toNat / 256 ^ 4)
  rw [swapBytes64, UInt64.toNat_or, UInt64.toNat_shiftLeft, UInt32.toNat_toUInt64, UInt32.toNat_toUInt64,
    low, high, Nat.shiftLeft_eq]
  change reversedNat 4 x.toNat * 2 ^ 32 % 2 ^ 64 ||| _ = _
  rw [Nat.mod_eq_of_lt (by omega), or_beside narrow, reversedNat_add 4 4]
  rfl

/-! ### Values -/

section

variable {endian : Endian} {width n : Nat} {v : Int64}

theorem orderedNat_lt (endian : Endian) (width n : Nat) : orderedNat endian width n < 256 ^ width := by
  cases endian with
  | le =>
    rw [orderedNat, leNat_leDigits_mod]
    exact Nat.mod_lt n (Nat.pow_pos (by decide))
  | be => exact reversedNat_lt width n

theorem toNat_swapped (inside : width ≤ 8) :
    (swapped endian width v).toUInt64.toNat = orderedNat endian width v.toUInt64.toNat := by
  have bound := orderedNat_lt endian width v.toUInt64.toNat
  have fits : 256 ^ width ≤ 256 ^ 8 := Nat.pow_le_pow_right (by decide) inside
  rw [swapped, UInt64.toUInt64_toInt64]
  exact UInt64.toNat_ofNat_of_lt' (Nat.lt_of_lt_of_le bound fits)

theorem eq_swapped {x : UInt64} (inside : width ≤ 8)
    (same : x.toNat = orderedNat endian width v.toUInt64.toNat) : x.toInt64 = swapped endian width v := by
  have read : (swapped endian width v).toUInt64.toNat = _ := toNat_swapped inside
  rw [← same] at read
  rw [← UInt64.toNat_inj.mp read, Int64.toInt64_toUInt64]

/-- The 64-bit swap at each width. -/
theorem endianSwap_eq (valid : width = 2 ∨ width = 4 ∨ width = 8) :
    endianSwap v (Int64.ofNat (8 * width)) endian = swapped endian width v := by
  have half : (v.toUInt64 &&& 0xFFFF).toNat = v.toUInt64.toNat % 2 ^ 16 := Nat.and_two_pow_sub_one_eq_mod _ 16
  have word : (v.toUInt64 &&& 0xFFFFFFFF).toNat = v.toUInt64.toNat % 2 ^ 32 :=
    Nat.and_two_pow_sub_one_eq_mod _ 32
  rcases valid with rfl | rfl | rfl
  · cases endian with
    | le =>
      refine eq_swapped (by decide) (half.trans ?_)
      rw [orderedNat, leNat_leDigits_mod]
      rfl
    | be =>
      refine eq_swapped (x := (swapBytes16 (v.toUInt64 &&& 0xFFFF).toUInt16).toUInt64) (by decide) ?_
      rw [UInt16.toNat_toUInt64, toNat_swapBytes16, UInt64.toNat_toUInt16, half, Nat.mod_mod]
      exact reversedNat_mod 2 _
  · cases endian with
    | le =>
      refine eq_swapped (by decide) (word.trans ?_)
      rw [orderedNat, leNat_leDigits_mod]
      rfl
    | be =>
      refine eq_swapped (x := (swapBytes32 (v.toUInt64 &&& 0xFFFFFFFF).toUInt32).toUInt64) (by decide) ?_
      rw [UInt32.toNat_toUInt64, toNat_swapBytes32, UInt64.toNat_toUInt32, word, Nat.mod_mod]
      exact reversedNat_mod 4 _
  · cases endian with
    | le =>
      refine eq_swapped (x := v.toUInt64) (by decide) ?_
      rw [orderedNat, leNat_leDigits_mod]
      exact (Nat.mod_eq_of_lt v.toUInt64.toNat_lt).symm
    | be => exact eq_swapped (x := swapBytes64 v.toUInt64) (by decide) (toNat_swapBytes64 _)

theorem toNat_lowWord (v : Int64) : (lowWord v).toNat = v.toUInt64.toNat % 256 ^ 4 := rfl

theorem zeroExtend_eq_swapped {w : UInt32} (inside : width ≤ 8)
    (same : w.toNat = orderedNat endian width v.toUInt64.toNat) : zeroExtend w = swapped endian width v :=
  eq_swapped (x := w.toUInt64) inside (by rw [UInt32.toNat_toUInt64, same])

/-- The 32-bit swap at each width: eight bytes are four. -/
theorem endianSwap32_eq (valid : width = 2 ∨ width = 4 ∨ width = 8) :
    zeroExtend (endianSwap32 (lowWord v) (Int64.ofNat (8 * width)) endian) = swapped endian (min width 4) v := by
  have word := toNat_lowWord v
  have half : (lowWord v &&& 0xFFFF).toNat = v.toUInt64.toNat % 2 ^ 16 := by
    have masked : (lowWord v &&& 0xFFFF).toNat = (lowWord v).toNat % 2 ^ 16 := Nat.and_two_pow_sub_one_eq_mod _ 16
    rw [masked, word]
    omega
  have whole : zeroExtend (lowWord v) = swapped .le 4 v := by
    refine zeroExtend_eq_swapped (by decide) ?_
    rw [orderedNat, leNat_leDigits_mod, word]
  have turned : zeroExtend (swapBytes32 (lowWord v)) = swapped .be 4 v := by
    refine zeroExtend_eq_swapped (by decide) ?_
    rw [toNat_swapBytes32, word]
    exact reversedNat_mod 4 _
  rcases valid with rfl | rfl | rfl
  · cases endian with
    | le =>
      refine zeroExtend_eq_swapped (by decide) (half.trans ?_)
      rw [orderedNat, leNat_leDigits_mod]
      rfl
    | be =>
      refine zeroExtend_eq_swapped (w := (swapBytes16 (lowWord v &&& 0xFFFF).toUInt16).toUInt32) (by decide) ?_
      rw [UInt16.toNat_toUInt32, toNat_swapBytes16, UInt32.toNat_toUInt16, half, Nat.mod_mod]
      exact reversedNat_mod 2 _
  · cases endian with
    | le => exact whole
    | be => exact turned
  · cases endian with
    | le => exact whole
    | be => exact turned

/-! ### Both classes -/

/-- The bytes a class computes on. -/
def classBytes : Width → Nat
  | .b32 => 4
  | .b64 => 8

/-- The bytes of a byte swap's width immediate. -/
def endBytes (w : Int32) : Nat := w.toInt.toNat / 8

/-- A byte swap works on the bytes of its width, cut off at those of its class. -/
theorem apply_byteSwap {w : Int32} (valid : w = 16 ∨ w = 32 ∨ w = 64) (endian : Endian) (width : Width) (v : Int64) :
    AluOp.apply (.byteSwap endian) v w.toInt64 width = swapped endian (min (endBytes w) (classBytes width)) v := by
  have bytes : endBytes w = 2 ∨ endBytes w = 4 ∨ endBytes w = 8 := by
    rcases valid with rfl | rfl | rfl <;> decide
  have imm : w.toInt64 = Int64.ofNat (8 * endBytes w) := by
    rcases valid with rfl | rfl | rfl <;> decide
  rw [imm]
  cases width with
  | b64 =>
    have inside : endBytes w ≤ 8 := by omega
    rw [classBytes, Nat.min_eq_left inside]
    exact endianSwap_eq bytes
  | b32 => exact endianSwap32_eq bytes

/-- What a byte swap of a value promises: the bytes of its width in its order, and the big-endian form
twice is the little-endian one. -/
structure SwapsBytes (width : Width) (endian : Endian) (w : Int32) (v : Int64) : Prop where
  value : AluOp.apply (.byteSwap endian) v w.toInt64 width = swapped endian (endBytes w) v
  twice : AluOp.apply (.byteSwap .be) (AluOp.apply (.byteSwap .be) v w.toInt64 width) w.toInt64 width =
    AluOp.apply (.byteSwap .le) v w.toInt64 width

theorem swapped_twice (inside : width ≤ 8) : swapped .be width (swapped .be width v) = swapped .le width v := by
  refine eq_swapped (x := UInt64.ofNat (reversedNat width _)) inside ?_
  have bound := reversedNat_lt width (swapped .be width v).toUInt64.toNat
  have fits : 256 ^ width ≤ 256 ^ 8 := Nat.pow_le_pow_right (by decide) inside
  rw [UInt64.toNat_ofNat_of_lt' (Nat.lt_of_lt_of_le bound fits), toNat_swapped inside]
  exact (reversedNat_reversedNat _ _).trans (leNat_leDigits_mod _ _).symm

/-- Four bytes give the eight-byte result only where the others do not show. -/
theorem swapped_four_iff : swapped endian 4 v = swapped endian 8 v ↔
    v = 0 ∨ endian = .le ∧ v.toUInt64.toNat < 2 ^ 32 := by
  have bound := v.toUInt64.toNat_lt
  have zero : v = 0 ↔ v.toUInt64.toNat = 0 := by
    rw [← toUInt64_inj, ← UInt64.toNat_inj]
    rfl
  have read : swapped endian 4 v = swapped endian 8 v ↔
      orderedNat endian 4 v.toUInt64.toNat = orderedNat endian 8 v.toUInt64.toNat := by
    rw [← toNat_swapped (by decide), ← toNat_swapped (by decide), UInt64.toNat_inj, toUInt64_inj]
  rw [read, zero]
  cases endian with
  | le =>
    simp only [orderedNat, leNat_leDigits_mod, true_and]
    omega
  | be =>
    have low := reversedNat_lt 4 v.toUInt64.toNat
    have split := reversedNat_add 4 4 v.toUInt64.toNat
    have lowBytes := reversedNat_reversedNat 4 v.toUInt64.toNat
    have highBytes := reversedNat_reversedNat 4 (v.toUInt64.toNat / 256 ^ 4)
    have none : reversedNat 4 0 = 0 := by decide
    simp only [orderedNat, reduceCtorEq, false_and, or_false]
    rw [show (8 : Nat) = 4 + 4 from rfl, split]
    constructor
    · intro same
      have lowZero : reversedNat 4 v.toUInt64.toNat = 0 := by omega
      have highZero : reversedNat 4 (v.toUInt64.toNat / 256 ^ 4) = 0 := by omega
      rw [lowZero, none] at lowBytes
      rw [highZero, none] at highBytes
      omega
    · intro same
      rw [same]
      decide

/-- A decoded byte swap has an immediate width; at a width of the instruction set it is what it promises
unless it swaps eight bytes in the 32-bit class and the upper four show. -/
theorem swap_iff {bytes : List UInt8} {insns : List Insn} {width : Width} {dst : Reg} {src : Operand}
    (decoded : decodeProgram bytes = .ok insns) (there : .alu width (.byteSwap endian) dst src ∈ insns) :
    ∃ w, src = .imm w ∧ (w = 16 ∨ w = 32 ∨ w = 64 → ∀ v, SwapsBytes width endian w v ↔
      (width = .b32 → w = 64 → v = 0 ∨ endian = .le ∧ v.toUInt64.toNat < 2 ^ 32)) := by
  obtain ⟨i, inside, fetched⟩ := List.mem_iff_getElem.mp there
  have words := readAll_words decoded
  obtain ⟨rest, consumed, read⟩ := words.get (words.length_eq ▸ inside) inside
  have same : insns.get ⟨i, inside⟩ = .alu width (.byteSwap endian) dst src := fetched
  rw [same] at read
  have imm : ∃ w, src = .imm w := by
    rcases (decodeOne_cases read).2 with ⟨_, _, _, _, jump, _⟩ | ⟨_, unknown | kept⟩
    · cases jump
    · cases unknown
    · cases src with
      | reg r => cases kept.1
      | imm w => exact ⟨w, rfl⟩
  obtain ⟨w, rfl⟩ := imm
  refine ⟨w, rfl, fun valid v => ?_⟩
  have wide : endBytes w ≤ 8 := by
    rcases valid with rfl | rfl | rfl <;> decide
  have twice : AluOp.apply (.byteSwap .be) (AluOp.apply (.byteSwap .be) v w.toInt64 width) w.toInt64 width =
      AluOp.apply (.byteSwap .le) v w.toInt64 width := by
    rw [apply_byteSwap valid, apply_byteSwap valid, apply_byteSwap valid]
    exact swapped_twice (by omega)
  have value : SwapsBytes width endian w v ↔
      swapped endian (min (endBytes w) (classBytes width)) v = swapped endian (endBytes w) v := by
    rw [← apply_byteSwap valid]
    exact ⟨SwapsBytes.value, fun value => ⟨value, twice⟩⟩
  rw [value]
  cases width with
  | b64 =>
    rw [classBytes, Nat.min_eq_left wide]
    exact iff_of_true rfl fun narrow => by cases narrow
  | b32 =>
    rcases valid with rfl | rfl | rfl
    · exact iff_of_true rfl fun _ other => absurd other (by decide)
    · exact iff_of_true rfl fun _ other => absurd other (by decide)
    · exact swapped_four_iff.trans ⟨fun shown _ _ => shown, fun shown => shown rfl rfl⟩

/-- `be64 r0` is of the 32-bit class. -/
theorem swap_iff_be64 : ∃ w, Operand.imm 64 = .imm w ∧ (w = 16 ∨ w = 32 ∨ w = 64 → ∀ v,
    SwapsBytes .b32 .be w v ↔ (Width.b32 = .b32 → w = 64 → v = 0 ∨ Endian.be = .le ∧ v.toUInt64.toNat < 2 ^ 32)) := by
  have decoded : decodeProgram [0xdc, 0, 0, 0, 64, 0, 0, 0] = .ok [.alu .b32 (.byteSwap .be) 0 (.imm 64)] := by decide
  exact swap_iff decoded (List.mem_singleton.mpr rfl)

/-- `be64 r0` of one gives 2 ^ 24, not 2 ^ 56. -/
theorem be64_not_swapped : ¬∀ (bytes : List UInt8) (insns : List Insn) (width : Width) (endian : Endian) (dst : Reg)
    (w : Int32) (v : Int64), decodeProgram bytes = .ok insns →
    .alu width (.byteSwap endian) dst (.imm w) ∈ insns → w = 16 ∨ w = 32 ∨ w = 64 →
    SwapsBytes width endian w v := by
  intro all
  have decoded : decodeProgram [0xdc, 0, 0, 0, 64, 0, 0, 0] = .ok [.alu .b32 (.byteSwap .be) 0 (.imm 64)] := by decide
  have value := (all _ _ _ _ _ _ 1 decoded (List.mem_singleton.mpr rfl) (.inr (.inr rfl))).value
  exact absurd value (by decide)

end

end EbpfLab.Isa
