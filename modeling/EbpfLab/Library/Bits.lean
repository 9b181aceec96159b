import Mathlib.Data.Int.Order.Basic
import Mathlib.Tactic.MkIffOfInductiveProp
import Mathlib.Tactic.Ring

/-!
# Bits of integers

The binary digits of an integer, those of a negative one in two's complement, and where two integers in
order first differ. What the conjunctions of the members of two intervals can be, from the digits of the bounds.
-/

namespace EbpfLab.Library

/-- The binary digit at a place. -/
def Bit (x : Int) (j : Nat) : Prop := x / 2 ^ j % 2 = 1

instance (x : Int) (j : Nat) : Decidable (Bit x j) := inferInstanceAs (Decidable (_ = _))

namespace Bit

variable {x y v w a b c d : Int} {i j k m n : Nat}

theorem two_pow_pos (j : Nat) : (0 : Int) < 2 ^ j := Int.pow_pos (by decide)

theorem ediv_succ (x : Int) (j : Nat) : x / 2 ^ (j + 1) = x / 2 ^ j / 2 := by
  rw [Int.pow_succ, Int.ediv_ediv_of_nonneg (two_pow_pos j).le]

theorem ediv_add (x : Int) (j i : Nat) : x / 2 ^ (j + i) = x / 2 ^ j / 2 ^ i := by
  rw [Int.pow_add, Int.ediv_ediv_of_nonneg (two_pow_pos j).le]

/-- What two integers share above a place. -/
theorem ediv_congr (same : x / 2 ^ m = y / 2 ^ m) (above : m ≤ i) : x / 2 ^ i = y / 2 ^ i := by
  obtain ⟨e, rfl⟩ := Nat.exists_eq_add_of_le above
  rw [ediv_add, ediv_add, same]

theorem congr (same : x / 2 ^ m = y / 2 ^ m) (above : m ≤ i) : Bit x i ↔ Bit y i := by
  unfold Bit
  rw [ediv_congr same above]

/-- The digits of a residue. -/
theorem emod_iff (below : j < n) : Bit (x % 2 ^ n) j ↔ Bit x j := by
  obtain ⟨e, rfl⟩ := Nat.exists_eq_add_of_lt below
  have split : x % 2 ^ (j + e + 1) = x + 2 ^ j * (2 * (-(2 ^ e * (x / 2 ^ (j + e + 1))))) := by
    rw [Int.emod_def, Int.pow_succ, Int.pow_add]
    ring
  unfold Bit
  rw [split, Int.add_mul_ediv_left _ _ (two_pow_pos j).ne', Int.add_mul_emod_self_left]

theorem emod_congr (same : x % 2 ^ n = y % 2 ^ n) (below : j < n) : Bit x j ↔ Bit y j := by
  rw [← emod_iff below, same, emod_iff below]

/-- Integers in order that share what is above a place first differ below it: there the smaller has no digit. -/
theorem first_difference (order : x < y) (same : x / 2 ^ n = y / 2 ^ n) :
    ∃ j < n, ¬Bit x j ∧ Bit y j ∧ x / 2 ^ (j + 1) = y / 2 ^ (j + 1) := by
  induction n with
  | zero =>
    rw [Int.pow_zero, Int.ediv_one, Int.ediv_one] at same
    omega
  | succ n ih =>
    by_cases here : x / 2 ^ n = y / 2 ^ n
    · obtain ⟨j, below, rest⟩ := ih here
      exact ⟨j, Nat.lt_succ_of_lt below, rest⟩
    · have le := Int.ediv_le_ediv (two_pow_pos n) order.le
      have halves := same
      rw [ediv_succ, ediv_succ] at halves
      refine ⟨n, Nat.lt_succ_self n, ?_, ?_, same⟩ <;> unfold Bit <;> omega

theorem ediv_lt (low : ¬Bit x j) (high : Bit y j) (same : x / 2 ^ (j + 1) = y / 2 ^ (j + 1)) :
    x / 2 ^ j < y / 2 ^ j := by
  rw [ediv_succ, ediv_succ] at same
  unfold Bit at low high
  omega

/-- Where residues in order first differ. -/
theorem low_difference (order : x % 2 ^ n < y % 2 ^ n) :
    ∃ j < n, ¬Bit x j ∧ Bit y j ∧ ∀ i, j < i → i < n → (Bit x i ↔ Bit y i) := by
  have small : ∀ z : Int, z % 2 ^ n / 2 ^ n = 0 := fun z =>
    Int.ediv_eq_zero_of_lt (Int.emod_nonneg z (two_pow_pos n).ne') (Int.emod_lt_of_pos z (two_pow_pos n))
  obtain ⟨j, below, low, high, same⟩ := first_difference order ((small x).trans (small y).symm)
  rw [emod_iff below] at low high
  refine ⟨j, below, low, high, fun i above bounded => ?_⟩
  rw [← emod_iff bounded, ← emod_iff (x := y) bounded]
  exact congr same above

/-- Fewer digits make a smaller residue. -/
theorem emod_le_emod (fewer : ∀ i < n, Bit x i → Bit y i) : x % 2 ^ n ≤ y % 2 ^ n := by
  by_contra order
  obtain ⟨j, below, low, high, _⟩ := low_difference (Int.not_le.mp order)
  exact low (fewer j below high)

/-- A residue that is not above one with fewer digits has the same. -/
theorem of_emod_le (fewer : ∀ i < n, Bit x i → Bit y i) (order : y % 2 ^ n ≤ x % 2 ^ n) (below : j < n)
    (high : Bit y j) : Bit x j :=
  (emod_congr (le_antisymm (emod_le_emod fewer) order) below).mpr high

/-! ### Members that leave a bound -/

theorem pred_ediv (t : Int) (i : Nat) : (t * 2 ^ i - 1) / 2 ^ i = t - 1 := by
  have below : (2 ^ i - 1 : Int) / 2 ^ i = 0 :=
    Int.ediv_eq_zero_of_lt (by have := two_pow_pos i; omega) (by omega)
  rw [show t * 2 ^ i - 1 = 2 ^ i - 1 + (t - 1) * 2 ^ i by ring,
    Int.add_mul_ediv_right _ _ (two_pow_pos i).ne', below, Int.zero_add]

/-- The greatest integer that has what `b` has above a place, but not the digit there. -/
def drop (b : Int) (j : Nat) : Int := b / 2 ^ j * 2 ^ j - 1

theorem drop_le (b : Int) (j : Nat) : drop b j ≤ b := by
  have := Int.ediv_mul_le b (two_pow_pos j).ne'
  unfold drop
  omega

theorem le_drop (below : a / 2 ^ j < b / 2 ^ j) : a ≤ drop b j := by
  have := (Int.ediv_lt_iff_lt_mul (two_pow_pos j)).mp below
  unfold drop
  omega

theorem drop_above (high : Bit b j) : drop b j / 2 ^ (j + 1) = b / 2 ^ (j + 1) := by
  rw [ediv_succ, ediv_succ, drop, pred_ediv]
  unfold Bit at high
  omega

theorem drop_below (below : i < j) : Bit (drop b j) i := by
  obtain ⟨e, rfl⟩ := Nat.exists_eq_add_of_lt below
  unfold Bit
  rw [drop, show b / 2 ^ (i + e + 1) * 2 ^ (i + e + 1) = b / 2 ^ (i + e + 1) * 2 ^ e * 2 * 2 ^ i by ring, pred_ediv]
  omega

/-- The smallest integer that has what `a` has above a place, and the digit there. -/
def raise (a : Int) (j : Nat) : Int := (a / 2 ^ j + 1) * 2 ^ j

theorem le_raise (a : Int) (j : Nat) : a ≤ raise a j :=
  (Int.lt_ediv_add_one_mul_self a (two_pow_pos j)).le

theorem raise_le (below : a / 2 ^ j < b / 2 ^ j) : raise a j ≤ b :=
  (Int.mul_le_mul_of_nonneg_right below (two_pow_pos j).le).trans (Int.ediv_mul_le b (two_pow_pos j).ne')

theorem raise_ediv (a : Int) (j : Nat) : raise a j / 2 ^ j = a / 2 ^ j + 1 :=
  Int.mul_ediv_cancel _ (two_pow_pos j).ne'

theorem raise_above (low : ¬Bit a j) : raise a j / 2 ^ (j + 1) = a / 2 ^ (j + 1) := by
  rw [ediv_succ, ediv_succ, raise_ediv]
  unfold Bit at low
  omega

theorem raise_below (below : i < j) : ¬Bit (raise a j) i := by
  obtain ⟨e, rfl⟩ := Nat.exists_eq_add_of_lt below
  unfold Bit
  rw [raise, show (a / 2 ^ (i + e + 1) + 1) * 2 ^ (i + e + 1) = (a / 2 ^ (i + e + 1) + 1) * 2 ^ e * 2 * 2 ^ i by ring,
    Int.mul_ediv_cancel _ (two_pow_pos i).ne']
  omega

theorem drop_member (below : a / 2 ^ j < b / 2 ^ j) : a ≤ drop b j ∧ drop b j ≤ b :=
  ⟨le_drop below, drop_le b j⟩

theorem raise_member (below : a / 2 ^ j < b / 2 ^ j) : a ≤ raise a j ∧ raise a j ≤ b :=
  ⟨le_raise a j, raise_le below⟩

/-- A member with a digit that the upper bound has not is below the bound at a higher place. -/
theorem falls (inside : k < n) (has : Bit v k) (misses : ¬Bit b k) (lower : a ≤ v) (upper : v ≤ b) :
    v / 2 ^ n < b / 2 ^ n ∨ ∃ j, k < j ∧ j < n ∧ Bit b j ∧ ¬Bit v j ∧ a / 2 ^ j < b / 2 ^ j := by
  rcases lt_or_eq_of_le (Int.ediv_le_ediv (two_pow_pos n) upper) with below | same
  · exact Or.inl below
  · have order : v < b := lt_of_le_of_ne upper fun equal => misses (equal ▸ has)
    obtain ⟨j, bounded, low, high, share⟩ := first_difference order same
    refine Or.inr ⟨j, ?_, bounded, high, low, ?_⟩
    · by_contra early
      rcases Nat.lt_or_eq_of_le (Nat.not_lt.mp early) with before | rfl
      · exact misses ((congr share before).mp has)
      · exact low has
    · exact (Int.ediv_le_ediv (two_pow_pos j) lower).trans_lt (ediv_lt low high share)

/-- A member without a digit that the lower bound has is above the bound at a higher place. -/
theorem rises (inside : k < n) (misses : ¬Bit v k) (has : Bit a k) (lower : a ≤ v) (upper : v ≤ b) :
    a / 2 ^ n < v / 2 ^ n ∨
      ∃ j, k < j ∧ j < n ∧ ¬Bit a j ∧ Bit v j ∧ a / 2 ^ j < b / 2 ^ j ∧ a / 2 ^ (j + 1) = v / 2 ^ (j + 1) := by
  rcases lt_or_eq_of_le (Int.ediv_le_ediv (two_pow_pos n) lower) with below | same
  · exact Or.inl below
  · have order : a < v := lt_of_le_of_ne lower fun equal => misses (equal ▸ has)
    obtain ⟨j, bounded, low, high, share⟩ := first_difference order same
    refine Or.inr ⟨j, ?_, bounded, low, high, ?_, share⟩
    · by_contra early
      rcases Nat.lt_or_eq_of_le (Nat.not_lt.mp early) with before | rfl
      · exact misses ((congr share before).mp has)
      · exact misses high
    · exact (ediv_lt low high share).trans_le (Int.ediv_le_ediv (two_pow_pos j) upper)

/-! ### Conjunctions over two intervals -/

/-- A digit that one upper bound has alone and a member can give up hides no digit of the other bound. -/
def UpperKept (n : Nat) (a b d : Int) : Prop :=
  ∀ j < n, Bit b j ∧ ¬Bit d j ∧ a / 2 ^ j < b / 2 ^ j → ∀ i < j, Bit d i → Bit b i

/-- A digit that neither lower bound has and a member can take on hides no digit that both bounds have. -/
def LowerKept (n : Nat) (a b c d : Int) : Prop :=
  ∀ j < n, ¬Bit a j ∧ ¬Bit c j ∧ (a / 2 ^ j < b / 2 ^ j ∨ c / 2 ^ j < d / 2 ^ j) → ∀ i < j, ¬(Bit a i ∧ Bit c i)

instance : Decidable (UpperKept n a b d) :=
  inferInstanceAs (Decidable (∀ j < n, Bit b j ∧ ¬Bit d j ∧ a / 2 ^ j < b / 2 ^ j → ∀ i < j, Bit d i → Bit b i))

instance : Decidable (LowerKept n a b c d) :=
  inferInstanceAs (Decidable (∀ j < n, ¬Bit a j ∧ ¬Bit c j ∧ (a / 2 ^ j < b / 2 ^ j ∨ c / 2 ^ j < d / 2 ^ j) →
    ∀ i < j, ¬(Bit a i ∧ Bit c i)))

/-- Two members whose conjunction first passes that of the upper bounds where the left bound has no digit. The
three conditions at the end say what follows when a member leaves its bound above all places. -/
theorem not_above_left (inside : k < n) (left : a ≤ v ∧ v ≤ b) (right : c ≤ w ∧ w ≤ d) (has : Bit v k)
    (has' : Bit w k)
    (misses : ¬Bit b k) (above : ∀ i, k < i → i < n → (Bit v i ∧ Bit w i ↔ Bit b i ∧ Bit d i))
    (kept : UpperKept n a b d) (kept' : UpperKept n c d b)
    (top : v / 2 ^ n < b / 2 ^ n → ∀ i < n, Bit d i → Bit b i)
    (top' : w / 2 ^ n < d / 2 ^ n → ∀ i < n, Bit b i → Bit d i)
    (both : v / 2 ^ n < b / 2 ^ n → w / 2 ^ n < d / 2 ^ n → ∀ i < n, Bit b i) : False := by
  -- the right bound has no digit at the place either, so the right member has left it too
  have reaches : ∀ (missed : ¬Bit d k), w / 2 ^ n < d / 2 ^ n ∨
      ∃ j, k < j ∧ j < n ∧ Bit d j ∧ ¬Bit b j ∧ c / 2 ^ j < d / 2 ^ j := by
    intro missed
    refine (falls inside has' missed right.1 right.2).imp id ?_
    rintro ⟨j, late, bounded, high, low, apart⟩
    exact ⟨j, late, bounded, high, fun also => low ((above j late bounded).mpr ⟨also, high⟩).2, apart⟩
  rcases falls inside has misses left.1 left.2 with free | ⟨j, late, bounded, high, low, apart⟩
  · have sub := top free
    rcases reaches fun also => misses (sub k inside also) with free' | ⟨j', _, bounded', high', low', _⟩
    · exact misses (both free free' k inside)
    · exact low' (sub j' bounded' high')
  · have alone : ¬Bit d j := fun also => low ((above j late bounded).mpr ⟨high, also⟩).1
    have sub := kept j bounded ⟨high, alone, apart⟩
    rcases reaches fun also => misses (sub k late also) with free' | ⟨j', late', bounded', high', low', apart'⟩
    · exact alone (top' free' j bounded high)
    · rcases Nat.lt_trichotomy j j' with before | rfl | behind
      · exact alone (kept' j' bounded' ⟨high', low', apart'⟩ j before high)
      · exact low' high
      · exact low' (sub j' behind high')

/-- No conjunction of members passes that of the upper bounds. -/
theorem not_above (inside : k < n) (left : a ≤ v ∧ v ≤ b) (right : c ≤ w ∧ w ≤ d) (has : Bit v k)
    (has' : Bit w k)
    (misses : ¬(Bit b k ∧ Bit d k)) (above : ∀ i, k < i → i < n → (Bit v i ∧ Bit w i ↔ Bit b i ∧ Bit d i))
    (kept : UpperKept n a b d) (kept' : UpperKept n c d b)
    (top : v / 2 ^ n < b / 2 ^ n → ∀ i < n, Bit d i → Bit b i)
    (top' : w / 2 ^ n < d / 2 ^ n → ∀ i < n, Bit b i → Bit d i)
    (both : v / 2 ^ n < b / 2 ^ n → w / 2 ^ n < d / 2 ^ n → ∀ i < n, Bit b i ∧ Bit d i) : False := by
  by_cases first : Bit b k
  · exact not_above_left inside right left has' has (fun also => misses ⟨first, also⟩)
      (fun i late bounded => and_comm.trans ((above i late bounded).trans and_comm)) kept' kept top' top
      fun free free' i below => (both free' free i below).2
  · exact not_above_left inside left right has has' first above kept kept' top top'
      fun free free' i below => (both free free' i below).1

/-- Two members whose conjunction first falls short of that of the lower bounds where the left has no digit. -/
theorem not_below_left (inside : k < n) (left : a ≤ v ∧ v ≤ b) (right : c ≤ w ∧ w ≤ d) (has : Bit a k)
    (has' : Bit c k)
    (misses : ¬Bit v k) (above : ∀ i, k < i → i < n → (Bit v i ∧ Bit w i ↔ Bit a i ∧ Bit c i))
    (kept : LowerKept n a b c d) (top : ¬a / 2 ^ n < v / 2 ^ n) (top' : ¬c / 2 ^ n < w / 2 ^ n) : False := by
  rcases rises inside misses has left.1 left.2 with free | ⟨j, late, bounded, low, high, apart, share⟩
  · exact top free
  · have alone : ¬Bit w j := fun also => low ((above j late bounded).mp ⟨high, also⟩).1
    by_cases other : Bit c j
    · -- the right member has left its bound higher up, where neither bound has a digit
      rcases rises bounded alone other right.1 right.2 with free | ⟨j', late', bounded', low', high', apart', _⟩
      · exact top' free
      · have missed : ¬Bit v j' := fun also => low' ((above j' (late.trans late') bounded').mp ⟨also, high'⟩).2
        have missed' : ¬Bit a j' := fun also => missed ((congr share late').mp also)
        exact kept j' bounded' ⟨missed', low', Or.inr apart'⟩ k (late.trans late') ⟨has, has'⟩
    · exact kept j bounded ⟨low, other, Or.inl apart⟩ k late ⟨has, has'⟩

theorem LowerKept.symm (kept : LowerKept n a b c d) : LowerKept n c d a b :=
  fun j bounded leaves i below both => kept j bounded ⟨leaves.2.1, leaves.1, leaves.2.2.symm⟩ i below both.symm

/-- No conjunction of members falls short of that of the lower bounds. -/
theorem not_below (inside : k < n) (left : a ≤ v ∧ v ≤ b) (right : c ≤ w ∧ w ≤ d) (has : Bit a k)
    (has' : Bit c k)
    (misses : ¬(Bit v k ∧ Bit w k)) (above : ∀ i, k < i → i < n → (Bit v i ∧ Bit w i ↔ Bit a i ∧ Bit c i))
    (kept : LowerKept n a b c d) (top : ¬a / 2 ^ n < v / 2 ^ n) (top' : ¬c / 2 ^ n < w / 2 ^ n) : False := by
  by_cases first : Bit v k
  · exact not_below_left inside right left has' has (fun also => misses ⟨first, also⟩)
      (fun i late bounded => and_comm.trans ((above i late bounded).trans and_comm)) kept.symm top' top
  · exact not_below_left inside left right has has' first above kept top top'

/-! ### All conjunctions of members -/

/-- When the residues of the conjunctions lie between those of the bounds. -/
@[mk_iff]
structure LowKept (n : Nat) (a b c d : Int) : Prop where
  upper : UpperKept n a b d
  upper' : UpperKept n c d b
  lower : LowerKept n a b c d
  /-- A member that can leave its upper bound above all places hides no digit of the other bound. -/
  top : a / 2 ^ n < b / 2 ^ n → ∀ i < n, Bit d i → Bit b i
  top' : c / 2 ^ n < d / 2 ^ n → ∀ i < n, Bit b i → Bit d i
  both : a / 2 ^ n < b / 2 ^ n ∧ c / 2 ^ n < d / 2 ^ n → ∀ i < n, Bit b i ∧ Bit d i
  bottom : a / 2 ^ n < b / 2 ^ n ∨ c / 2 ^ n < d / 2 ^ n → ∀ i < n, ¬(Bit a i ∧ Bit c i)

/-- When the conjunctions of integers with a sign above the places lie between those of the bounds. -/
@[mk_iff]
structure SignedKept (n : Nat) (a b c d : Int) : Prop where
  upper : UpperKept n a b d
  upper' : UpperKept n c d b
  lower : LowerKept n a b c d
  /-- A member that can be negative where its bound is not hides no digit of the other bound. -/
  top : a < 0 ∧ 0 ≤ b ∧ 0 ≤ d → ∀ i < n, Bit d i → Bit b i
  top' : c < 0 ∧ 0 ≤ d ∧ 0 ≤ b → ∀ i < n, Bit b i → Bit d i
  bottom : a < 0 ∧ 0 ≤ b ∧ 0 ≤ c → ∀ i < n, ¬(Bit a i ∧ Bit c i)
  bottom' : c < 0 ∧ 0 ≤ d ∧ 0 ≤ a → ∀ i < n, ¬(Bit a i ∧ Bit c i)

instance : Decidable (LowKept n a b c d) := decidable_of_iff _ (lowKept_iff n a b c d).symm

instance : Decidable (SignedKept n a b c d) := decidable_of_iff _ (signedKept_iff n a b c d).symm

section
variable {meet : Int → Int → Int} (conj : ∀ v w, ∀ i < n, Bit (meet v w) i ↔ Bit v i ∧ Bit w i)
include conj

/-- The conjunction of two members has no larger residue than that of the upper bounds. -/
theorem meet_emod_le (left : a ≤ v ∧ v ≤ b) (right : c ≤ w ∧ w ≤ d) (kept : UpperKept n a b d)
    (kept' : UpperKept n c d b) (top : v / 2 ^ n < b / 2 ^ n → ∀ i < n, Bit d i → Bit b i)
    (top' : w / 2 ^ n < d / 2 ^ n → ∀ i < n, Bit b i → Bit d i)
    (both : v / 2 ^ n < b / 2 ^ n → w / 2 ^ n < d / 2 ^ n → ∀ i < n, Bit b i ∧ Bit d i) :
    meet v w % 2 ^ n ≤ meet b d % 2 ^ n := by
  by_contra order
  obtain ⟨k, inside, low, high, above⟩ := low_difference (Int.not_le.mp order)
  rw [conj _ _ _ inside] at low high
  refine not_above inside left right high.1 high.2 low (fun i late bounded => ?_) kept kept' top top' both
  rw [← conj _ _ _ bounded, ← conj _ _ _ bounded, above i late bounded]

/-- The conjunction of two members has no smaller residue than that of the lower bounds. -/
theorem le_meet_emod (left : a ≤ v ∧ v ≤ b) (right : c ≤ w ∧ w ≤ d) (kept : LowerKept n a b c d)
    (bottom : a / 2 ^ n < v / 2 ^ n ∨ c / 2 ^ n < w / 2 ^ n → ∀ i < n, ¬(Bit a i ∧ Bit c i)) :
    meet a c % 2 ^ n ≤ meet v w % 2 ^ n := by
  by_contra order
  obtain ⟨k, inside, low, high, above⟩ := low_difference (Int.not_le.mp order)
  rw [conj _ _ _ inside] at low high
  refine not_below inside left right high.1 high.2 low (fun i late bounded => ?_) kept ?_ ?_
  · rw [← conj _ _ _ bounded, ← conj _ _ _ bounded, above i late bounded]
  · exact fun free => bottom (Or.inl free) k inside high
  · exact fun free => bottom (Or.inr free) k inside high

/-- Conjunctions in order, the smaller of which has the digits of the larger, have the same. -/
theorem digits_of_le (fewer : ∀ i < n, Bit b i ∧ Bit d i → Bit v i ∧ Bit w i)
    (order : meet v w % 2 ^ n ≤ meet b d % 2 ^ n) (below : i < n) (high : Bit v i ∧ Bit w i) :
    Bit b i ∧ Bit d i := by
  rw [← conj _ _ _ below]
  refine of_emod_le (fun j inside has => ?_) order below ((conj _ _ _ below).mpr high)
  rw [conj _ _ _ inside] at has ⊢
  exact fewer j inside has

theorem conj_swap (v w : Int) (i : Nat) (below : i < n) : Bit (Function.swap meet v w) i ↔ Bit v i ∧ Bit w i :=
  (conj w v i below).trans and_comm

/-- A digit given up next to the other upper bound has to hide nothing. -/
theorem UpperKept.of_le
    (order : ∀ j < n, Bit b j → a / 2 ^ j < b / 2 ^ j → meet (drop b j) d % 2 ^ n ≤ meet b d % 2 ^ n) :
    UpperKept n a b d := by
  rintro j inside ⟨high, alone, apart⟩ i below has
  refine (digits_of_le conj (fun k bounded both => ⟨?_, both.2⟩) (order j inside high apart) (below.trans inside)
    ⟨drop_below below, has⟩).1
  rcases Nat.lt_trichotomy k j with early | rfl | late
  · exact drop_below early
  · exact absurd both.2 alone
  · exact (congr (drop_above high) late).mpr both.1

/-- A digit taken on next to the other lower bound has to hide nothing. -/
theorem LowerKept.of_le
    (order : ∀ j < n, ¬Bit a j → a / 2 ^ j < b / 2 ^ j → meet a c % 2 ^ n ≤ meet (raise a j) c % 2 ^ n)
    (order' : ∀ j < n, ¬Bit c j → c / 2 ^ j < d / 2 ^ j → meet a c % 2 ^ n ≤ meet a (raise c j) % 2 ^ n) :
    LowerKept n a b c d := by
  rintro j inside ⟨low, low', apart | apart⟩ i below both
  · refine raise_below below (digits_of_le conj (fun k bounded both => ⟨?_, both.2⟩) (order j inside low apart)
      (below.trans inside) both).1
    rcases Nat.lt_trichotomy k j with early | rfl | late
    · exact absurd both.1 (raise_below early)
    · exact absurd both.2 low'
    · exact (congr (raise_above low) late).mp both.1
  · refine raise_below below (digits_of_le conj (fun k bounded both => ⟨both.1, ?_⟩) (order' j inside low' apart)
      (below.trans inside) both).2
    rcases Nat.lt_trichotomy k j with early | rfl | late
    · exact absurd both.2 (raise_below early)
    · exact absurd both.1 low
    · exact (congr (raise_above low') late).mp both.2

/-- The residues of all conjunctions lie between those of the bounds. -/
theorem low_kept_iff (left : a ≤ b) (right : c ≤ d) :
    (∀ v w, a ≤ v ∧ v ≤ b → c ≤ w ∧ w ≤ d →
      meet a c % 2 ^ n ≤ meet v w % 2 ^ n ∧ meet v w % 2 ^ n ≤ meet b d % 2 ^ n) ↔ LowKept n a b c d := by
  constructor
  · intro within
    exact {
      upper := .of_le conj fun j _ _ apart => (within _ d (drop_member apart) ⟨right, le_rfl⟩).2
      upper' := .of_le (conj_swap conj)
        fun j _ _ apart => (within b _ ⟨left, le_rfl⟩ (drop_member apart)).2
      lower := .of_le conj (fun j _ _ apart => (within _ c (raise_member apart) ⟨le_rfl, right⟩).1)
        fun j _ _ apart => (within a _ ⟨le_rfl, left⟩ (raise_member apart)).1
      top := fun apart i below has =>
        (digits_of_le conj (fun k inside both => ⟨drop_below inside, both.2⟩)
          (within _ d (drop_member apart) ⟨right, le_rfl⟩).2 below ⟨drop_below below, has⟩).1
      top' := fun apart i below has =>
        (digits_of_le conj (fun k inside both => ⟨both.1, drop_below inside⟩)
          (within b _ ⟨left, le_rfl⟩ (drop_member apart)).2 below ⟨has, drop_below below⟩).2
      both := fun apart i below =>
        digits_of_le conj (fun k inside _ => ⟨drop_below inside, drop_below inside⟩)
          (within _ _ (drop_member apart.1) (drop_member apart.2)).2 below ⟨drop_below below, drop_below below⟩
      bottom := by
        rintro (apart | apart) i below both
        · exact raise_below below (digits_of_le conj (fun k inside has => absurd has.1 (raise_below inside))
            (within _ c (raise_member apart) ⟨le_rfl, right⟩).1 below both).1
        · exact raise_below below (digits_of_le conj (fun k inside has => absurd has.2 (raise_below inside))
            (within a _ ⟨le_rfl, left⟩ (raise_member apart)).1 below both).2 }
  · intro kept v w inside inside'
    have lower := Int.ediv_le_ediv (two_pow_pos n) inside.1
    have upper := Int.ediv_le_ediv (two_pow_pos n) inside.2
    have lower' := Int.ediv_le_ediv (two_pow_pos n) inside'.1
    have upper' := Int.ediv_le_ediv (two_pow_pos n) inside'.2
    constructor
    · refine le_meet_emod conj inside inside' kept.lower fun free => kept.bottom ?_
      exact free.imp (fun more => more.trans_le upper) fun more => more.trans_le upper'
    · exact meet_emod_le conj inside inside' kept.upper kept.upper' (fun free => kept.top (lower.trans_lt free))
        (fun free => kept.top' (lower'.trans_lt free)) fun free free' =>
          kept.both ⟨lower.trans_lt free, lower'.trans_lt free'⟩

end

/-! ### Integers with a sign -/

theorem neg_one (i : Nat) : Bit (-1) i := by
  unfold Bit
  rw [show (-1 : Int) / 2 ^ i = -1 from Int.ediv_eq_neg_one_of_neg_of_le (by decide) (two_pow_pos i)]
  decide

theorem not_zero (i : Nat) : ¬Bit 0 i := by
  unfold Bit
  rw [Int.zero_ediv]
  decide

theorem ediv_neg_iff : x / 2 ^ n < 0 ↔ x < 0 := by
  rw [Int.ediv_lt_iff_lt_mul (two_pow_pos n), Int.zero_mul]

theorem quotient (lower : -2 ^ n ≤ x) (upper : x < 2 ^ n) : x / 2 ^ n = if x < 0 then -1 else 0 := by
  split
  · rename_i negative
    exact Int.ediv_eq_neg_one_of_neg_of_le negative (by omega)
  · rename_i positive
    exact Int.ediv_eq_zero_of_lt (Int.not_lt.mp positive) upper

theorem drop_neg_iff (has : Bit b j) (inside : j < n) : drop b j < 0 ↔ b < 0 := by
  rw [← ediv_neg_iff, ediv_congr (drop_above has) inside, ediv_neg_iff]

theorem raise_neg_iff (misses : ¬Bit a j) (inside : j < n) : raise a j < 0 ↔ a < 0 := by
  rw [← ediv_neg_iff, ediv_congr (raise_above misses) inside, ediv_neg_iff]

/-- An integer of the signed range whose place above all others differs from that of a larger one. -/
theorem crosses (lower : -2 ^ n ≤ x) (upper : y < 2 ^ n) (free : x / 2 ^ n < y / 2 ^ n) (order : x ≤ y) :
    x < 0 ∧ 0 ≤ y := by
  rw [quotient lower (order.trans_lt upper), quotient (lower.trans order) upper] at free
  split at free <;> split at free <;> omega

section
variable {meet : Int → Int → Int} (conj : ∀ v w, ∀ i < n, Bit (meet v w) i ↔ Bit v i ∧ Bit w i)
  (within : ∀ v w, -2 ^ n ≤ meet v w ∧ meet v w < 2 ^ n)
  (sign : ∀ v w, a ≤ v ∧ v ≤ b → c ≤ w ∧ w ≤ d → (meet v w < 0 ↔ v < 0 ∧ w < 0))

include within in
/-- Of one sign, conjunctions are ordered as their residues are. -/
theorem meet_le_iff {v' w' : Int} (same : meet v w < 0 ↔ meet v' w' < 0) :
    meet v w ≤ meet v' w' ↔ meet v w % 2 ^ n ≤ meet v' w' % 2 ^ n := by
  have quotients : meet v w / 2 ^ n = meet v' w' / 2 ^ n := by
    rw [quotient (within v w).1 (within v w).2, quotient (within v' w').1 (within v' w').2]
    simp only [same]
  have split := Int.mul_ediv_add_emod (meet v w) (2 ^ n)
  have split' := Int.mul_ediv_add_emod (meet v' w') (2 ^ n)
  rw [quotients] at split
  omega

include conj within sign

/-- The conjunction of two members is not above that of the upper bounds. -/
theorem SignedKept.meet_le (kept : SignedKept n a b c d) (lower : -2 ^ n ≤ a) (upper : b < 2 ^ n)
    (lower' : -2 ^ n ≤ c) (upper' : d < 2 ^ n) (left : a ≤ v ∧ v ≤ b) (right : c ≤ w ∧ w ≤ d) : meet v w ≤ meet b d := by
  have signs := sign v w left right
  have signs' := sign b d ⟨left.1.trans left.2, le_rfl⟩ ⟨right.1.trans right.2, le_rfl⟩
  by_cases same : meet v w < 0 ↔ meet b d < 0
  · have frees := fun free => crosses (lower.trans left.1) upper free left.2
    have frees' := fun free => crosses (lower'.trans right.1) upper' free right.2
    rw [meet_le_iff within same]
    refine meet_emod_le conj left right kept.upper kept.upper' (fun free => ?_) (fun free => ?_) fun free free' => ?_
    · have := frees free
      exact kept.top ⟨by omega, this.2, by omega⟩
    · have := frees' free
      exact kept.top' ⟨by omega, this.2, by omega⟩
    · have := frees free
      have := frees' free'
      omega
  · omega

/-- The conjunction of two members is not below that of the lower bounds. -/
theorem SignedKept.le_meet (kept : SignedKept n a b c d) (lower : -2 ^ n ≤ a) (upper : b < 2 ^ n)
    (lower' : -2 ^ n ≤ c) (upper' : d < 2 ^ n) (left : a ≤ v ∧ v ≤ b) (right : c ≤ w ∧ w ≤ d) : meet a c ≤ meet v w := by
  have signs := sign v w left right
  have signs' := sign a c ⟨le_rfl, left.1.trans left.2⟩ ⟨le_rfl, right.1.trans right.2⟩
  by_cases same : meet a c < 0 ↔ meet v w < 0
  · rw [meet_le_iff within same]
    refine le_meet_emod conj left right kept.lower ?_
    rintro (free | free)
    · have := crosses lower (left.2.trans_lt upper) free left.1
      exact kept.bottom ⟨this.1, by omega, by omega⟩
    · have := crosses lower' (right.2.trans_lt upper') free right.1
      exact kept.bottom' ⟨this.1, by omega, by omega⟩
  · omega

omit conj in
/-- Members with the same sign as others give residues in order. -/
theorem residues {v' w' : Int} (left : a ≤ v ∧ v ≤ b) (right : c ≤ w ∧ w ≤ d) (left' : a ≤ v' ∧ v' ≤ b)
    (right' : c ≤ w' ∧ w' ≤ d) (same : v < 0 ∧ w < 0 ↔ v' < 0 ∧ w' < 0) (order : meet v w ≤ meet v' w') :
    meet v w % 2 ^ n ≤ meet v' w' % 2 ^ n :=
  (meet_le_iff within ((sign v w left right).trans (same.trans (sign v' w' left' right').symm))).mp order

/-- The conjunctions of all members lie between those of the bounds. -/
theorem signed_kept_iff (left : a ≤ b) (right : c ≤ d) (lower : -2 ^ n ≤ a) (upper : b < 2 ^ n)
    (lower' : -2 ^ n ≤ c) (upper' : d < 2 ^ n) :
    (∀ v w, a ≤ v ∧ v ≤ b → c ≤ w ∧ w ≤ d → meet a c ≤ meet v w ∧ meet v w ≤ meet b d) ↔ SignedKept n a b c d := by
  refine ⟨fun between => ?_, fun kept v w inside inside' =>
    ⟨kept.le_meet conj within sign lower upper lower' upper' inside inside',
      kept.meet_le conj within sign lower upper lower' upper' inside inside'⟩⟩
  have low : a ≤ a ∧ a ≤ b := ⟨le_rfl, left⟩
  have high : a ≤ b ∧ b ≤ b := ⟨left, le_rfl⟩
  have low' : c ≤ c ∧ c ≤ d := ⟨le_rfl, right⟩
  have high' : c ≤ d ∧ d ≤ d := ⟨right, le_rfl⟩
  have order : ∀ {v w v' w'}, a ≤ v ∧ v ≤ b → c ≤ w ∧ w ≤ d → a ≤ v' ∧ v' ≤ b → c ≤ w' ∧ w' ≤ d →
      (v < 0 ∧ w < 0 ↔ v' < 0 ∧ w' < 0) → meet v w ≤ meet v' w' → meet v w % 2 ^ n ≤ meet v' w' % 2 ^ n :=
    residues within sign
  exact {
    upper := .of_le conj fun j inside has apart =>
      have member := drop_member apart
      order member high' high high' (by rw [drop_neg_iff has inside]) (between _ d member high').2
    upper' := .of_le (conj_swap conj)
      fun j inside has apart =>
        have member := drop_member apart
        order high member high high' (by rw [drop_neg_iff has inside]) (between b _ high member).2
    lower := .of_le conj
      (fun j inside misses apart =>
        have member := raise_member apart
        order low low' member low' (by rw [raise_neg_iff misses inside]) (between _ c member low').1)
      fun j inside misses apart =>
        have member := raise_member apart
        order low low' low member (by rw [raise_neg_iff misses inside]) (between a _ low member).1
    top := fun free i below has =>
      have member : a ≤ -1 ∧ -1 ≤ b := by omega
      (digits_of_le conj (fun k _ both => ⟨neg_one k, both.2⟩)
        (order member high' high high' (by omega) (between _ d member high').2) below ⟨neg_one i, has⟩).1
    top' := fun free i below has =>
      have member : c ≤ -1 ∧ -1 ≤ d := by omega
      (digits_of_le conj (fun k _ both => ⟨both.1, neg_one k⟩)
        (order high member high high' (by omega) (between b _ high member).2) below ⟨has, neg_one i⟩).2
    bottom := fun free i below both =>
      have member : a ≤ 0 ∧ 0 ≤ b := by omega
      not_zero i (digits_of_le conj (fun k _ has => absurd has.1 (not_zero k))
        (order low low' member low' (by omega) (between _ c member low').1) below both).1
    bottom' := fun free i below both =>
      have member : c ≤ 0 ∧ 0 ≤ d := by omega
      not_zero i (digits_of_le conj (fun k _ has => absurd has.2 (not_zero k))
        (order low low' low member (by omega) (between a _ low member).1) below both).2 }

end

end Bit
end EbpfLab.Library
