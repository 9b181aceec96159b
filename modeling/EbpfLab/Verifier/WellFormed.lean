import EbpfLab.Verifier.Contains

/-!
# Bounds in order

A range is well formed when its bounds have not crossed. Every operation keeps that but one: the
logical right shift of an interval around zero sends its negative lower bound above its upper one.
-/

namespace EbpfLab.Verifier
open Isa

namespace Range

variable {r r' : Range} {v w : Int64}

/-- `Bottom`, `Top`, or an interval with `lo <= hi`. -/
def WellFormed : Range → Prop
  | .interval lo hi => lo ≤ hi
  | _ => True

instance : (r : Range) → Decidable r.WellFormed
  | .interval lo hi => inferInstanceAs (Decidable (lo ≤ hi))
  | .top => inferInstanceAs (Decidable True)
  | .bottom => inferInstanceAs (Decidable True)

/-- The binary operations. -/
inductive BinOp where
  | join | meet | widen | sar | add | sub | bitand | bitor | bitxor | shl | shr
  deriving DecidableEq, Repr

def BinOp.apply : BinOp → Range → Range → Range
  | .join => Range.join
  | .meet => Range.meet
  | .widen => Range.widen
  | .sar => Range.sar
  | .add => Range.add
  | .sub => Range.sub
  | .bitand => Range.bitand
  | .bitor => Range.bitor
  | .bitxor => Range.bitxor
  | .shl => Range.shl
  | .shr => Range.shr

theorem wellFormed_interval {lo hi : Int64} :
    (interval lo hi).WellFormed ↔ lo.toInt ≤ hi.toInt := Int64.le_iff_toInt_le

/-- A range that holds a value is well formed. -/
theorem wellFormed_of_contains (held : r.contains v) : r.WellFormed := by
  cases r with
  | interval lo hi =>
    rw [contains_interval] at held
    exact wellFormed_interval.mpr (Int.le_trans held.1 held.2)
  | _ => trivial

theorem wellFormed_ordered (lo hi : Int64) : (ordered lo hi).WellFormed := by
  unfold ordered
  split
  · assumption
  · trivial

/-- A strict operation is well formed where its interval case is. -/
theorem wellFormed_lift {f : Int64 → Int64 → Int64 → Int64 → Range} (left : r.WellFormed)
    (right : r'.WellFormed)
    (bounds : ∀ l1 h1 l2 h2, l1 ≤ h1 → l2 ≤ h2 → (f l1 h1 l2 h2).WellFormed) :
    (lift f r r').WellFormed := by
  cases r <;> cases r' <;> first | trivial | exact bounds _ _ _ _ left right

theorem wellFormed_checked {x y : Int} (order : x ≤ y) :
    (checked (checkedI64 x) (checkedI64 y)).WellFormed := by
  cases low : checkedI64 x with
  | none => trivial
  | some lo =>
    cases high : checkedI64 y with
    | none => trivial
    | some hi =>
      refine wellFormed_interval.mpr ?_
      rw [checkedI64_eq_some.mp low, checkedI64_eq_some.mp high]
      exact order

theorem wellFormed_join (left : r.WellFormed) (right : r'.WellFormed) :
    (r.join r').WellFormed := by
  cases r with
  | bottom => cases r' <;> exact right
  | top => cases r' <;> trivial
  | interval l1 h1 =>
    cases r' with
    | bottom => exact left
    | top => trivial
    | interval l2 h2 =>
      rw [wellFormed_interval] at left
      simp only [join, wellFormed_interval, toInt_min, toInt_max]
      omega

theorem wellFormed_meet (left : r.WellFormed) (right : r'.WellFormed) :
    (r.meet r').WellFormed := by
  cases r with
  | bottom => cases r' <;> trivial
  | top => cases r' <;> exact right
  | interval l1 h1 =>
    cases r' with
    | bottom => trivial
    | top => exact left
    | interval l2 h2 =>
      simp only [meet]
      split
      · assumption
      · trivial

theorem wellFormed_widen (left : r.WellFormed) (right : r'.WellFormed) :
    (r.widen r').WellFormed := by
  cases r with
  | bottom => cases r' <;> exact right
  | top => cases r' <;> trivial
  | interval l1 h1 =>
    cases r' with
    | bottom => exact left
    | top => trivial
    | interval l2 h2 =>
      have bound : ∀ a b : Int64, a ≤ b → ∀ c d : Prop, ∀ [Decidable c] [Decidable d],
          (if c then Int64.minValue else a) ≤ (if d then Int64.maxValue else b) := by
        intro a b order c d _ _
        split
        · exact Int64.minValue_le _
        · split
          · exact Int64.le_maxValue _
          · exact order
      have final : ∀ lo hi : Int64, lo ≤ hi →
          (if lo = Int64.minValue ∧ hi = Int64.maxValue then top else interval lo hi).WellFormed := by
        intro lo hi order
        split
        · trivial
        · exact order
      exact final _ _ (bound l1 h1 left _ _)

theorem wellFormed_trunc32 (held : r.WellFormed) : r.trunc32.WellFormed := by
  cases r with
  | interval lo hi => exact wellFormed_ordered _ _
  | _ => exact held

theorem wellFormed_shl (left : r.WellFormed) (right : r'.WellFormed) :
    (r.shl r').WellFormed := by
  refine wellFormed_lift left right fun l1 h1 l2 h2 _ _ => ?_
  split
  · split
    · exact wellFormed_ordered _ _
    · trivial
  · trivial

/-- Every operation but the logical right shift keeps bounds in order. -/
theorem BinOp.wellFormed_apply {op : BinOp} (other : op ≠ .shr) (left : r.WellFormed)
    (right : r'.WellFormed) : (op.apply r r').WellFormed := by
  cases op with
  | join => exact wellFormed_join left right
  | meet => exact wellFormed_meet left right
  | widen => exact wellFormed_widen left right
  | sar | bitxor => exact wellFormed_lift left right fun _ _ _ _ _ _ => trivial
  | add =>
    refine wellFormed_lift left right fun l1 h1 l2 h2 first second => wellFormed_checked ?_
    rw [Int64.le_iff_toInt_le] at first second
    omega
  | sub =>
    refine wellFormed_lift left right fun l1 h1 l2 h2 first second => wellFormed_checked ?_
    rw [Int64.le_iff_toInt_le] at first second
    omega
  | bitand | bitor => exact wellFormed_lift left right fun _ _ _ _ _ _ => wellFormed_ordered _ _
  | shl => exact wellFormed_shl left right
  | shr => exact absurd rfl other

theorem wellFormed_refine {op : JumpOp} {k : Int64} {taken : Bool} (held : r.WellFormed) :
    (r.refine op k taken).WellFormed := by
  have below : ∀ k, (interval Int64.minValue k).WellFormed := Int64.minValue_le
  have above : ∀ k, (interval k Int64.maxValue).WellFormed := Int64.le_maxValue
  unfold refine
  split
  · exact wellFormed_meet held (Int64.le_refl k)
  · exact wellFormed_meet held (below _)
  · exact wellFormed_meet held (below _)
  · exact wellFormed_meet held (above _)
  · exact wellFormed_meet held (above _)
  · exact wellFormed_meet held (below _)
  · exact wellFormed_meet held (below _)
  · exact wellFormed_meet held (above _)
  · exact wellFormed_meet held (above _)
  · exact held

/-! ### The logical right shift -/

/-- An interval around zero, shifted by one constant from 1 to 63. -/
def Straddled : Range → Range → Prop
  | .interval lo hi, .interval s s' => s = s' ∧ 0 < s ∧ s < 64 ∧ lo < 0 ∧ 0 ≤ hi
  | _, _ => False

/-- A positive shift keeps the order of two values of one sign and turns it around otherwise. -/
theorem shiftRight_le_iff {k v w : Int64} (low : 0 < k.toInt) (high : k.toInt < 64)
    (order : v.toInt ≤ w.toInt) :
    (v.toUInt64 >>> k.toUInt64).toInt64.toInt ≤ (w.toUInt64 >>> k.toUInt64).toInt64.toInt ↔
      ¬(v.toInt < 0 ∧ 0 ≤ w.toInt) := by
  rw [toInt_shiftRight low high, toInt_shiftRight low high]
  have first := toNat_toUInt64 v
  have second := toNat_toUInt64 w
  have lowest := toInt_lower v
  have highest := toInt_upper w
  constructor
  · rintro shifted ⟨negative, nonneg⟩
    rw [if_pos negative] at first
    rw [if_neg (by omega)] at second
    -- the lower bound lost its sign, the upper one never had it
    have crossed : w.toUInt64.toNat / 2 ^ k.toInt.toNat < v.toUInt64.toNat / 2 ^ k.toInt.toNat := by
      have split : 2 ^ (63 - k.toInt.toNat) * 2 ^ k.toInt.toNat = 2 ^ 63 := by
        rw [← Nat.pow_add]
        congr 1
        omega
      have small : w.toUInt64.toNat / 2 ^ k.toInt.toNat < 2 ^ (63 - k.toInt.toNat) := by
        rw [Nat.div_lt_iff_lt_mul (Nat.two_pow_pos _), split]
        omega
      have large : 2 ^ (63 - k.toInt.toNat) ≤ v.toUInt64.toNat / 2 ^ k.toInt.toNat := by
        rw [Nat.le_div_iff_mul_le (Nat.two_pow_pos _), split]
        omega
      exact Nat.lt_of_lt_of_le small large
    omega
  · intro same
    have order : v.toUInt64.toNat ≤ w.toUInt64.toNat := by
      split at first <;> split at second <;> omega
    exact_mod_cast Nat.div_le_div_right order

theorem wellFormed_shr_iff (left : r.WellFormed) (right : r'.WellFormed) :
    (r.shr r').WellFormed ↔ ¬Straddled r r' := by
  cases r with
  | bottom => cases r' <;> simp [shr, lift, WellFormed, Straddled]
  | top => cases r' <;> simp [shr, lift, WellFormed, Straddled]
  | interval lo hi =>
    cases r' with
    | bottom => simp [shr, lift, WellFormed, Straddled]
    | top => simp [shr, lift, WellFormed, Straddled]
    | interval s s' =>
      rw [wellFormed_interval] at left
      simp only [shr, lift, Straddled, Int64.le_iff_toInt_le, Int64.lt_iff_toInt_lt,
        show (0 : Int64).toInt = 0 from rfl, show (64 : Int64).toInt = 64 from rfl]
      split
      · rename_i constant
        obtain ⟨rfl, low, high⟩ := constant
        rw [wellFormed_interval]
        rcases Int.lt_or_eq_of_le low with positive | zero
        · rw [shiftRight_le_iff positive high left]
          simp [positive, high]
        · obtain rfl : s = 0 := by rw [← Int64.toInt_inj, ← zero]; rfl
          simpa [show Int64.toUInt64 0 = 0 from rfl] using left
      · rename_i varying
        refine ⟨fun _ constant => varying ⟨constant.1, by omega, by omega⟩, fun _ => trivial⟩

end Range

/-- Well-formed ranges stay well formed under truncation, refinement and every binary operation,
except a logical right shift that takes an interval around zero across the sign bit. -/
theorem wellFormed_iff {r : Range} (left : r.WellFormed) :
    r.trunc32.WellFormed ∧
    (∀ (op : JumpOp) (k : Int64) (taken : Bool), (r.refine op k taken).WellFormed) ∧
    ∀ (op : Range.BinOp) (r' : Range), r'.WellFormed →
      ((op.apply r r').WellFormed ↔ ¬(op = .shr ∧ Range.Straddled r r')) := by
  refine ⟨Range.wellFormed_trunc32 left, fun op k taken => Range.wellFormed_refine left, ?_⟩
  intro op r' right
  by_cases shift : op = .shr
  · subst shift
    simpa [Range.BinOp.apply] using Range.wellFormed_shr_iff left right
  · simpa [shift] using Range.BinOp.wellFormed_apply shift left right

/-- `[-1, 1] >> 1` is inverted. -/
theorem shr_inverts :
    ¬((∀ r : Range, r.WellFormed → r.trunc32.WellFormed) ∧
      (∀ (r : Range) (op : JumpOp) (k : Int64) (taken : Bool), r.WellFormed →
        (r.refine op k taken).WellFormed) ∧
      ∀ (op : Range.BinOp) (r r' : Range), r.WellFormed → r'.WellFormed →
        (op.apply r r').WellFormed) := by
  rintro ⟨_, _, keeps⟩
  exact absurd (keeps .shr (.interval (-1) 1) (.exact 1) (by decide) (by decide)) (by decide)

theorem shr_zero_wellFormed : ((Range.interval (-1) 1).shr (.exact 0)).WellFormed :=
  ((wellFormed_iff (show (Range.interval (-1) 1).WellFormed by decide)).2.2 .shr (.exact 0)
    (by decide)).mpr
    fun straddled => absurd straddled.2.2.1 (by decide)

end EbpfLab.Verifier
