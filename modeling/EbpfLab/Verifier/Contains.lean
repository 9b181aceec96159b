import EbpfLab.Verifier.Lattice

/-!
# Values in a range

Which concrete values a range stands for, and which of its operations keep them. Addition and the
comparisons as signed 64-bit numbers do; the bitwise operations, the shifts and the truncation do
not in general.
-/

namespace EbpfLab.Verifier
open Isa

namespace Range

variable {r r' : Range} {v w k : Int64}

@[simp] theorem contains_top (v : Int64) : Range.top.contains v := trivial

@[simp] theorem not_contains_bottom (v : Int64) : ¬ Range.bottom.contains v := id

@[simp] theorem contains_interval {lo hi : Int64} :
    (Range.interval lo hi).contains v ↔ lo.toInt ≤ v.toInt ∧ v.toInt ≤ hi.toInt := by
  simp [contains, Int64.le_iff_toInt_le]

@[simp] theorem contains_exact : (exact k).contains v ↔ v = k := by
  rw [exact, contains_interval, ← Int64.toInt_inj]
  omega

theorem contains_mono (below : r ≤ r') (held : r.contains v) : r'.contains v := by
  cases r <;> cases r' <;> simp_all [le_def, Le, contains, Int64.le_iff_toInt_le]
  omega

theorem toInt_min (a b : Int64) : (lower a b).toInt = min a.toInt b.toInt := by
  unfold lower
  split <;> rename_i order <;> rw [Int64.le_iff_toInt_le] at order <;> omega

theorem toInt_max (a b : Int64) : (upper a b).toInt = max a.toInt b.toInt := by
  unfold upper
  split <;> rename_i order <;> rw [Int64.le_iff_toInt_le] at order <;> omega

theorem contains_meet : (r.meet r').contains v ↔ r.contains v ∧ r'.contains v := by
  cases r with
  | bottom => simp [meet]
  | top => cases r' <;> simp [meet]
  | interval l1 h1 =>
    cases r' with
    | bottom => simp [meet]
    | top => simp [meet]
    | interval l2 h2 =>
      simp only [meet]
      split
      · simp only [contains_interval, toInt_min, toInt_max]
        omega
      · rename_i crossed
        rw [Int64.le_iff_toInt_le, toInt_min, toInt_max] at crossed
        simp only [not_contains_bottom, contains_interval, false_iff]
        omega

/-- A pointwise operation keeps its values when its bounds do. -/
theorem contains_lift {f : Int64 → Int64 → Int64 → Int64 → Range} {u : Int64}
    (left : r.contains v) (right : r'.contains w)
    (bounds : ∀ l1 h1 l2 h2, (interval l1 h1).contains v → (interval l2 h2).contains w →
      (f l1 h1 l2 h2).contains u) : (lift f r r').contains u := by
  cases r with
  | bottom => exact absurd left (not_contains_bottom v)
  | top => cases r' <;> simp_all [lift]
  | interval l1 h1 =>
    cases r' with
    | bottom => exact absurd right (not_contains_bottom w)
    | top => simp [lift]
    | interval l2 h2 => exact bounds l1 h1 l2 h2 left right

theorem contains_checked {lo hi : Option Int64}
    (bounds : ∀ l h, lo = some l → hi = some h → l.toInt ≤ v.toInt ∧ v.toInt ≤ h.toInt) :
    (checked lo hi).contains v := by
  cases lo with
  | none => simp [checked]
  | some l =>
    cases hi with
    | none => simp [checked]
    | some h => exact contains_interval.mpr (bounds l h rfl rfl)

theorem contains_add (left : r.contains v) (right : r'.contains w) :
    (r.add r').contains (v + w) := by
  refine contains_lift left right fun l1 h1 l2 h2 inLeft inRight => contains_checked ?_
  intro l h low high
  rw [contains_interval] at inLeft inRight
  have low := checkedI64_eq_some.mp low
  have high := checkedI64_eq_some.mp high
  have bounds := toInt_lower l
  have bounds' := toInt_upper h
  rw [toInt_add (by omega) (by omega)]
  omega

theorem contains_sub (left : r.contains v) (right : r'.contains w) :
    (r.sub r').contains (v - w) := by
  refine contains_lift left right fun l1 h1 l2 h2 inLeft inRight => contains_checked ?_
  intro l h low high
  rw [contains_interval] at inLeft inRight
  have low := checkedI64_eq_some.mp low
  have high := checkedI64_eq_some.mp high
  have bounds := toInt_lower l
  have bounds' := toInt_upper h
  rw [toInt_sub (by omega) (by omega)]
  omega

/-! ### Refinement -/

/-- The comparison a refinement reads an operator as. -/
def signedOp : JumpOp → JumpOp
  | .gt => .sgt
  | .ge => .sge
  | .lt => .slt
  | .le => .sle
  | op => op

/-- The outcome of the signed 64-bit comparison. -/
def signedTaken (op : JumpOp) (v k : Int64) : Bool := jumpTaken (signedOp op) v k .b64

theorem signedTaken_eq (v k : Int64) : signedTaken .eq v k = decide (v = k) := by
  simp [signedTaken, signedOp, jumpTaken, jumpTaken64, Bool.beq_eq_decide_eq, toUInt64_inj]

theorem signedTaken_lt (v k : Int64) : signedTaken .lt v k = decide (v.toInt < k.toInt) := by
  simp [signedTaken, signedOp, jumpTaken, jumpTaken64, Int64.lt_iff_toInt_lt]

theorem signedTaken_le (v k : Int64) : signedTaken .le v k = decide (v.toInt ≤ k.toInt) := by
  simp [signedTaken, signedOp, jumpTaken, jumpTaken64, Int64.le_iff_toInt_le]

theorem signedTaken_slt (v k : Int64) : signedTaken .slt v k = decide (v.toInt < k.toInt) :=
  signedTaken_lt v k

theorem signedTaken_sle (v k : Int64) : signedTaken .sle v k = decide (v.toInt ≤ k.toInt) :=
  signedTaken_le v k

/-- Normalising a comparison keeps its signed outcome. -/
theorem normalize_agrees {op : JumpOp} {taken : Bool} (agrees : signedTaken op v k = taken) :
    signedTaken (normalize op taken).1 v k = (normalize op taken).2 := by
  subst agrees
  cases op with
  | ne => simp [normalize, signedTaken, signedOp, jumpTaken, jumpTaken64, bne]
  | ge | gt | sge | sgt =>
    simp only [normalize, signedTaken, signedOp, jumpTaken, jumpTaken64, ge_iff_le, gt_iff_lt,
      Int64.le_iff_toInt_le, Int64.lt_iff_toInt_lt, ← decide_not, decide_eq_decide]
    omega
  | _ => rfl

/-- Refining by a comparison keeps a value whose signed comparison had the same outcome. -/
theorem contains_refine {op : JumpOp} {taken : Bool} (held : r.contains v)
    (agrees : op ≠ .set → signedTaken op v k = taken) : (r.refine op k taken).contains v := by
  by_cases ignored : op = .set
  · subst ignored
    exact held
  have agrees := normalize_agrees (agrees ignored)
  have bounds := toInt_lower v
  have bounds' := toInt_upper v
  have least : Int64.minValue.toInt = -2 ^ 63 := rfl
  have greatest : Int64.maxValue.toInt = 2 ^ 63 - 1 := rfl
  -- the saturating bounds next to `k`
  have below : v.toInt < k.toInt →
      Int64.minValue.toInt ≤ v.toInt ∧ v.toInt ≤ (saturatingSub k 1).toInt := by
    intro less
    rw [saturatingSub, saturatingI64_toInt, show (1 : Int64).toInt = 1 from rfl]
    split <;> omega
  have above : k.toInt < v.toInt →
      (saturatingAdd k 1).toInt ≤ v.toInt ∧ v.toInt ≤ Int64.maxValue.toInt := by
    intro less
    rw [saturatingAdd, saturatingI64_toInt, show (1 : Int64).toInt = 1 from rfl]
    split <;> omega
  unfold refine
  generalize normalize op taken = normal at agrees
  split <;> simp only [contains_meet, held, true_and, contains_exact, contains_interval]
  · simpa [signedTaken_eq] using agrees
  · exact below (by simpa [signedTaken_lt] using agrees)
  · exact below (by simpa [signedTaken_slt] using agrees)
  · exact ⟨by simpa [signedTaken_lt] using agrees, by omega⟩
  · exact ⟨by simpa [signedTaken_slt] using agrees, by omega⟩
  · exact ⟨by omega, by simpa [signedTaken_le] using agrees⟩
  · exact ⟨by omega, by simpa [signedTaken_sle] using agrees⟩
  · exact above (by simpa [signedTaken_le] using agrees)
  · exact above (by simpa [signedTaken_sle] using agrees)

end Range

end EbpfLab.Verifier
