import Mathlib.Order.Basic
import Mathlib.Data.Int.Order.Basic

/-!
# Residues over an interval

Where the residues of the members of an interval lie, once a monotone function is applied to them: between
those of its ends when these are in one block, and anywhere when a block ends between them.
-/

namespace EbpfLab.Library

variable {K l h lo hi v : Int} {φ : Int → Int}

/-- The residues of an interval, through a function, lie between two bounds. -/
def Spread (K : Int) (φ : Int → Int) (l h lo hi : Int) : Prop :=
  if l / K = h / K then lo ≤ φ (l % K) ∧ φ (h % K) ≤ hi else lo ≤ φ 0 ∧ φ (K - 1) ≤ hi

instance : Decidable (Spread K φ l h lo hi) :=
  inferInstanceAs (Decidable (if l / K = h / K then lo ≤ φ (l % K) ∧ φ (h % K) ≤ hi
    else lo ≤ φ 0 ∧ φ (K - 1) ≤ hi))

/-- In one block the residues are in the order of the members. -/
theorem emod_le_of_block (block : l / K = h / K) (order : l ≤ h) : l % K ≤ h % K := by
  have left := Int.mul_ediv_add_emod l K
  have right := Int.mul_ediv_add_emod h K
  rw [block] at left
  omega

theorem ediv_between (pos : 0 < K) (block : l / K = h / K) (lower : l ≤ v) (upper : v ≤ h) : v / K = l / K :=
  le_antisymm (block ▸ Int.ediv_le_ediv pos upper) (Int.ediv_le_ediv pos lower)

/-- Where a block ends within the interval, it has a member with each extreme residue. -/
theorem extremes (pos : 0 < K) (apart : l / K ≠ h / K) (order : l ≤ h) :
    ∃ v, l < v ∧ v ≤ h ∧ v % K = 0 ∧ (v - 1) % K = K - 1 := by
  have below : l / K < h / K := lt_of_le_of_ne (Int.ediv_le_ediv pos order) apart
  refine ⟨h / K * K, ?_, ?_, Int.mul_emod_left .., ?_⟩
  · exact (Int.ediv_lt_iff_lt_mul pos).mp below
  · exact Int.ediv_mul_le h pos.ne'
  · rw [show h / K * K - 1 = K - 1 + (h / K - 1) * K by rw [Int.sub_mul, Int.one_mul]; omega,
      Int.add_mul_emod_self_right]
    exact Int.emod_eq_of_lt (by omega) (by omega)

/-- Every member's residue lies between two bounds exactly when the ends say so. -/
theorem spread_iff (mono : ∀ x y, x ≤ y → φ x ≤ φ y) (pos : 0 < K) (order : l ≤ h) :
    (∀ v, l ≤ v → v ≤ h → lo ≤ φ (v % K) ∧ φ (v % K) ≤ hi) ↔ Spread K φ l h lo hi := by
  unfold Spread
  split
  · rename_i block
    refine ⟨fun within => ⟨(within l le_rfl order).1, (within h order le_rfl).2⟩, fun ends v lower upper => ?_⟩
    have place := ediv_between pos block lower upper
    exact ⟨ends.1.trans (mono _ _ (emod_le_of_block place.symm lower)),
      (mono _ _ (emod_le_of_block (place.trans block) upper)).trans ends.2⟩
  · rename_i apart
    constructor
    · intro within
      obtain ⟨v, above, upper, first, last⟩ := extremes pos apart order
      have low := (within v above.le upper).1
      have high := (within (v - 1) (by omega) (by omega)).2
      rw [first] at low
      rw [last] at high
      exact ⟨low, high⟩
    · rintro ⟨low, high⟩ v _ _
      exact ⟨low.trans (mono _ _ (Int.emod_nonneg v pos.ne')),
        (mono _ _ (Int.le_sub_one_of_lt (Int.emod_lt_of_pos v pos))).trans high⟩

/-- The residues lie between those of the ends exactly in one block, or when they are all between them. -/
theorem spread_ends (pos : 0 < K) :
    Spread K id l h (l % K) (h % K) ↔ l / K = h / K ∨ l % K = 0 ∧ h % K = K - 1 := by
  have low := Int.emod_nonneg l pos.ne'
  have high := Int.emod_lt_of_pos h pos
  unfold Spread
  split
  · rename_i block
    simp [block]
  · rename_i apart
    simp only [id, apart, false_or]
    omega

end EbpfLab.Library
