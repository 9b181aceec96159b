import Mathlib.Algebra.Group.Int.Defs
import Mathlib.Algebra.GroupWithZero.Nat

/-!
# Checked and saturating integers

The `checked_*` and `saturating_*` operations on `i64`, with their meaning in the integers. Each
computes the exact integer and then asks whether an `i64` holds it.
-/

namespace EbpfLab.Isa

/-- Whether an integer is an `i64`. -/
def fitsI64 (x : Int) : Bool := -2 ^ 63 ≤ x && x < 2 ^ 63

/-- The `i64` of an integer that fits. -/
def checkedI64 (x : Int) : Option Int64 := if fitsI64 x then some (Int64.ofInt x) else none

/-- The `i64` closest to an integer. -/
def saturatingI64 (x : Int) : Int64 :=
  if x < -2 ^ 63 then Int64.minValue else if 2 ^ 63 ≤ x then Int64.maxValue else Int64.ofInt x

def checkedAdd (a b : Int64) : Option Int64 := checkedI64 (a.toInt + b.toInt)

def checkedSub (a b : Int64) : Option Int64 := checkedI64 (a.toInt - b.toInt)

def saturatingAdd (a b : Int64) : Int64 := saturatingI64 (a.toInt + b.toInt)

def saturatingSub (a b : Int64) : Int64 := saturatingI64 (a.toInt - b.toInt)

/-- `usize::try_from` of an `i64`. -/
def usizeOf (a : Int64) : Option Nat := if 0 ≤ a.toInt then some a.toInt.toNat else none

theorem toInt_lower (a : Int64) : -2 ^ 63 ≤ a.toInt := a.le_toInt

theorem toInt_upper (a : Int64) : a.toInt < 2 ^ 63 := a.toInt_lt

theorem toInt_ofInt {x : Int} (low : -2 ^ 63 ≤ x) (high : x < 2 ^ 63) : (Int64.ofInt x).toInt = x :=
  Int64.toInt_ofInt_of_le (by simpa using low) (by simpa using high)

theorem checkedI64_eq_some {x : Int} {v : Int64} :
    checkedI64 x = some v ↔ v.toInt = x := by
  unfold checkedI64
  constructor
  · intro held
    split at held
    · rename_i fits
      cases held
      simp only [fitsI64, Bool.and_eq_true, decide_eq_true_eq] at fits
      exact toInt_ofInt fits.1 fits.2
    · cases held
  · rintro rfl
    have fits : fitsI64 v.toInt = true := by
      simp only [fitsI64, Bool.and_eq_true, decide_eq_true_eq]
      exact ⟨toInt_lower v, toInt_upper v⟩
    simp [fits]

theorem usizeOf_eq_some {a : Int64} {n : Nat} : usizeOf a = some n ↔ a.toInt = n := by
  unfold usizeOf
  split
  · simp only [Option.some.injEq]
    omega
  · simp only [reduceCtorEq, false_iff]
    omega

theorem saturatingI64_toInt (x : Int) :
    (saturatingI64 x).toInt = if x < -2 ^ 63 then -2 ^ 63 else if 2 ^ 63 ≤ x then 2 ^ 63 - 1 else x := by
  unfold saturatingI64
  split
  · rfl
  · split
    · rfl
    · exact toInt_ofInt (by omega) (by omega)

/-- Wrapping addition is exact when the sum fits. -/
theorem toInt_add {a b : Int64} (low : -2 ^ 63 ≤ a.toInt + b.toInt)
    (high : a.toInt + b.toInt < 2 ^ 63) : (a + b).toInt = a.toInt + b.toInt := by
  rw [← toInt_ofInt low high, Int64.ofInt_add]
  simp

theorem toInt_sub {a b : Int64} (low : -2 ^ 63 ≤ a.toInt - b.toInt)
    (high : a.toInt - b.toInt < 2 ^ 63) : (a - b).toInt = a.toInt - b.toInt := by
  rw [← toInt_ofInt low high, Int64.ofInt_sub]
  simp

theorem toUInt64_inj {a b : Int64} : a.toUInt64 = b.toUInt64 ↔ a = b := by
  constructor
  · intro same
    rw [← Int64.toInt64_toUInt64 a, same, Int64.toInt64_toUInt64]
  · exact congrArg _

theorem toInt_toInt64 (x : UInt64) :
    x.toInt64.toInt = if x.toNat < 2 ^ 63 then (x.toNat : Int) else x.toNat - 2 ^ 64 := by
  have bound := x.toNat_lt
  rw [show x.toInt64.toInt = x.toBitVec.toInt from rfl, BitVec.toInt_eq_toNat_cond]
  rw [show x.toBitVec.toNat = x.toNat from rfl]
  split <;> split <;> omega

theorem toNat_toUInt64 (v : Int64) :
    (v.toUInt64.toNat : Int) = if v.toInt < 0 then v.toInt + 2 ^ 64 else v.toInt := by
  have bound := v.toUInt64.toNat_lt
  have back := toInt_toInt64 v.toUInt64
  rw [Int64.toInt64_toUInt64] at back
  split at back <;> split <;> omega

/-- A logical right shift by a positive constant is a division of the unsigned value. -/
theorem toInt_shiftRight {k : Int64} (low : 0 < k.toInt) (high : k.toInt < 64) (v : Int64) :
    (v.toUInt64 >>> k.toUInt64).toInt64.toInt = (v.toUInt64.toNat / 2 ^ k.toInt.toNat : Nat) := by
  have amount : (k.toUInt64.toNat : Int) = k.toInt := by
    rw [toNat_toUInt64, if_neg (by omega)]
  have shift : k.toUInt64.toNat % 64 = k.toInt.toNat := by omega
  have bound := v.toUInt64.toNat_lt
  have halved : v.toUInt64.toNat / 2 ^ k.toInt.toNat < 2 ^ 63 := by
    rw [Nat.div_lt_iff_lt_mul (Nat.two_pow_pos _)]
    calc v.toUInt64.toNat < 2 ^ 63 * 2 ^ 1 := by omega
      _ ≤ 2 ^ 63 * 2 ^ k.toInt.toNat :=
        Nat.mul_le_mul_left _ (Nat.pow_le_pow_right (by decide) (by omega))
  rw [toInt_toInt64, UInt64.toNat_shiftRight, shift, Nat.shiftRight_eq_div_pow, if_pos halved]

end EbpfLab.Isa
