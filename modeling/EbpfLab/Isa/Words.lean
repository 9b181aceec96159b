import EbpfLab.Isa.Insn
import EbpfLab.Isa.Num
import Mathlib.Tactic.Ring

/-!
# Words as integers

What the operations on words compute, in the integers.
-/

namespace EbpfLab.Isa

variable {v w : Int64} {op : AluOp}

theorem toNat_emod (v : Int64) : (v.toUInt64.toNat : Int) = v.toInt % 2 ^ 64 := by
  have low := toInt_lower v
  have high := toInt_upper v
  rw [toNat_toUInt64]
  split <;> omega

theorem lowWord_emod (v : Int64) : ((lowWord v).toNat : Int) = v.toInt % 2 ^ 32 := by
  have unsigned := toNat_emod v
  rw [lowWord, UInt64.toNat_toUInt32]
  omega

theorem toInt_zeroExtend (x : UInt32) : (zeroExtend x).toInt = x.toNat := by
  have small := x.toNat_lt
  rw [zeroExtend, toInt_toInt64, UInt32.toNat_toUInt64, if_pos (by omega)]

/-- The mask of the low word. -/
theorem toInt_mask (v : Int64) : (v &&& 0xFFFFFFFF).toInt = v.toInt % 2 ^ 32 := by
  have unsigned := toNat_emod v
  rw [← Int64.toInt64_toUInt64 (v &&& 0xFFFFFFFF), toInt_toInt64,
    show (v &&& 0xFFFFFFFF).toUInt64 = v.toUInt64 &&& 0xFFFFFFFF from rfl, UInt64.toNat_and,
    show (0xFFFFFFFF : UInt64).toNat = 2 ^ 32 - 1 from rfl, Nat.and_two_pow_sub_one_eq_mod, if_pos (by omega)]
  omega

theorem toInt_apply32 (op : AluOp) (v w : Int64) : (op.apply v w .b32).toInt = (alu32Word op v w).toNat :=
  toInt_zeroExtend _

theorem toInt_mov32 (v w : Int64) : (AluOp.apply .mov v w .b32).toInt = w.toInt % 2 ^ 32 := by
  rw [toInt_apply32]
  exact lowWord_emod w

theorem toInt_add32 (v w : Int64) : (AluOp.apply .add v w .b32).toInt = (v.toInt + w.toInt) % 2 ^ 32 := by
  have left := lowWord_emod v
  have right := lowWord_emod w
  rw [toInt_apply32, alu32Word, UInt32.toNat_add]
  omega

theorem toInt_and32 (v w : Int64) : (AluOp.apply .and v w .b32).toInt = (v &&& w).toInt % 2 ^ 32 := by
  rw [toInt_apply32, ← lowWord_emod]
  exact congrArg (fun x : UInt32 => (x.toNat : Int)) (UInt64.toUInt32_and v.toUInt64 w.toUInt64).symm

theorem toInt_or32 (v w : Int64) : (AluOp.apply .or v w .b32).toInt = (v ||| w).toInt % 2 ^ 32 := by
  rw [toInt_apply32, ← lowWord_emod]
  exact congrArg (fun x : UInt32 => (x.toNat : Int)) (UInt64.toUInt32_or v.toUInt64 w.toUInt64).symm

/-- The amount of a 32-bit shift. -/
def amount32 (w : Int64) : Nat := (w.toInt % 32).toNat

theorem toNat_amount32 (w : Int64) : (lowWord w &&& 31).toNat % 32 = amount32 w := by
  have word := lowWord_emod w
  rw [UInt32.toNat_and, show (31 : UInt32).toNat = 2 ^ 5 - 1 from rfl, Nat.and_two_pow_sub_one_eq_mod, amount32]
  omega

theorem toInt_lsh32 (v w : Int64) :
    (AluOp.apply .lsh v w .b32).toInt = v.toInt * 2 ^ amount32 w % 2 ^ 32 := by
  rw [toInt_apply32, alu32Word, UInt32.toNat_shiftLeft, toNat_amount32, Nat.shiftLeft_eq, Int.natCast_emod,
    Int.natCast_mul, lowWord_emod, Int.natCast_pow, Int.natCast_pow, show ((2 : Nat) : Int) = 2 from rfl,
    Int.mul_emod, Int.emod_emod, ← Int.mul_emod]

theorem toInt_rsh32 (v w : Int64) :
    (AluOp.apply .rsh v w .b32).toInt = v.toInt % 2 ^ 32 / 2 ^ amount32 w := by
  rw [toInt_apply32, alu32Word, UInt32.toNat_shiftRight, toNat_amount32, Nat.shiftRight_eq_div_pow,
    Int.natCast_ediv, lowWord_emod, Int.natCast_pow]
  rfl

/-- A shift amount below 64 is not masked. -/
theorem and_63 (low : 0 ≤ w.toInt) (high : w.toInt ≤ 63) : w &&& 63 = w := by
  have unsigned := toNat_emod w
  rw [← toUInt64_inj, ← UInt64.toNat_inj, show (w &&& 63).toUInt64 = w.toUInt64 &&& 63 from rfl, UInt64.toNat_and,
    show (63 : UInt64).toNat = 2 ^ 6 - 1 from rfl, Nat.and_two_pow_sub_one_eq_mod]
  omega

theorem toInt_shiftLeft (low : 0 ≤ w.toInt) (high : w.toInt ≤ 63) (v : Int64) :
    (v <<< w).toInt = (v.toInt * 2 ^ w.toInt.toNat).bmod (2 ^ 64) := by
  have amount : (w.toBitVec.smod 64).toNat = w.toInt.toNat := by
    have value : (w.toBitVec.smod 64).toInt = w.toInt := by
      rw [BitVec.toInt_smod, Int64.toInt_toBitVec, show (64 : BitVec 64).toInt = 64 from rfl,
        Int.fmod_eq_emod_of_nonneg _ (by decide)]
      omega
    rw [BitVec.toInt_eq_toNat_cond] at value
    split at value <;> omega
  have wraps : (v.toBitVec.toNat : Int) = v.toInt + (2 ^ 64 : Nat) * -(v.toInt / 2 ^ 64) := by
    have unsigned := toNat_emod v
    rw [show v.toUInt64.toNat = v.toBitVec.toNat from rfl] at unsigned
    omega
  rw [← Int64.toInt_toBitVec, Int64.toBitVec_shiftLeft, BitVec.shiftLeft_eq', amount, BitVec.toInt_shiftLeft,
    Nat.shiftLeft_eq, Int.natCast_mul, Int.natCast_pow, wraps, Int.add_mul, Int.mul_assoc, Int.add_mul_bmod_self_left]
  rfl

theorem toInt_lsh64 (low : 0 ≤ w.toInt) (high : w.toInt ≤ 63) (v : Int64) :
    (AluOp.apply .lsh v w .b64).toInt = (v.toInt * 2 ^ w.toInt.toNat).bmod (2 ^ 64) := by
  rw [← toInt_shiftLeft low high]
  show (v <<< (w &&& 63)).toInt = _
  rw [and_63 low high]

theorem toInt_not (v : Int64) : (~~~v).toInt = -1 - v.toInt := by
  have low := toInt_lower v
  have high := toInt_upper v
  rw [Int64.toInt_not, Int.bmod_eq_of_le] <;> omega

theorem or_eq_not (v w : Int64) : v ||| w = ~~~(~~~v &&& ~~~w) := by
  apply Int64.toBitVec_inj.mp
  rw [Int64.toBitVec_or, Int64.toBitVec_not, Int64.toBitVec_and, Int64.toBitVec_not, Int64.toBitVec_not,
    ← BitVec.not_or, BitVec.not_not]

end EbpfLab.Isa
