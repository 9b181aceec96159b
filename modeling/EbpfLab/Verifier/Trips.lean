import EbpfLab.Library.Ring
import EbpfLab.Verifier.Bound

/-!
# Trip arithmetic

How often a loop goes on whose counter takes one stride a round, compared with `count_traversals`. In
the order of the comparison the counter walks around the ring of 64-bit values.
-/

namespace EbpfLab.Verifier
open Isa Library

variable {cc : Cc} {bound stride lo hi c : Int64} {strict signed : Bool} {op : JumpOp} {taken : Bool} {n : Nat}

/-- Whether the loop goes on: the 64-bit comparison of the counter. -/
def Cc.holds : Cc → Int64 → Bool
  | .below bound true true, c => c < bound
  | .below bound false true, c => c ≤ bound
  | .below bound true false, c => c.toUInt64 < bound.toUInt64
  | .below bound false false, c => c.toUInt64 ≤ bound.toUInt64
  | .above bound true true, c => c > bound
  | .above bound false true, c => c ≥ bound
  | .above bound true false, c => c.toUInt64 > bound.toUInt64
  | .above bound false false, c => c.toUInt64 ≥ bound.toUInt64
  | .eq bound hold, c => (c == bound) == hold

/-- The continue-condition holds exactly when the comparison takes the back edge. -/
theorem continueCondition_holds {k : Int64} (canonical : continueCondition op k taken = some cc) (c : Int64) :
    cc.holds c = (jumpTaken64 op c k == taken) := by
  have same : (c.toUInt64 == k.toUInt64) = (c == k) := by
    rw [Bool.eq_iff_iff, beq_iff_eq, beq_iff_eq]
    exact toUInt64_inj
  cases op <;> cases taken <;> cases canonical <;>
    simp [Cc.holds, jumpTaken64, bne, ← decide_not, UInt64.not_le, UInt64.not_lt, Int64.not_le, Int64.not_lt,
      same]

/-- The loop that tests and then adds goes on at most so many times. -/
def testThenAdd (cc : Cc) (stride : Int64) : Nat → Int64 → Bool
  | 0, c => !cc.holds c
  | n + 1, c => !cc.holds c || testThenAdd cc stride n (c + stride)

/-- The loop that adds and then tests goes on at most so many times. -/
def addThenTest (cc : Cc) (stride : Int64) : Nat → Int64 → Bool
  | 0, c => !cc.holds (c + stride)
  | n + 1, c => !cc.holds (c + stride) || addThenTest cc stride n (c + stride)

theorem addThenTest_eq : addThenTest cc stride n c = testThenAdd cc stride n (c + stride) := by
  induction n generalizing c with
  | zero => rfl
  | succ n ih => rw [addThenTest, testThenAdd, ih]

/-- Both loops go on at most so many times from every start of the range. -/
def Bounds (cc : Cc) (stride lo hi : Int64) (n : Nat) : Prop :=
  ∀ c, lo ≤ c → c ≤ hi → addThenTest cc stride n c ∧ testThenAdd cc stride n c

/-! ### Places -/

/-- The place of a value in the order of the comparison. -/
def placeOf (signed : Bool) (c : Int64) : Int := if signed then c.toInt + 2 ^ 63 else c.toUInt64.toNat

/-- The place in the reverse order. -/
def mirror (signed : Bool) (c : Int64) : Int := 2 ^ 64 - 1 - placeOf signed c

/-- The condition on the places of a range: moving towards the edge, no walk passes the end of the ring
before it lands, and a step that does leads past the edge or to a walk no longer than from the low end;
moving away, no step crosses the edge. -/
def RangeFits (low high edge pace : Int) : Prop :=
  if 0 < pace then
    ∀ x, low ≤ x → x ≤ high → (x < edge → Lands (2 ^ 64) pace edge x) ∧
      (2 ^ 64 ≤ x + pace → edge ≤ x + pace - 2 ^ 64 ∨
        Lands (2 ^ 64) pace edge (x + pace - 2 ^ 64) ∧ stepsTo pace edge (x + pace - 2 ^ 64) ≤ stepsTo pace edge low)
  else ∀ x, low ≤ x → x ≤ high → x < -pace ∨ edge - pace ≤ x

/-- The edge of a strict or inclusive bound. -/
def edgeOf (strict : Bool) (bound : Int) : Int := if strict then bound else bound + 1

/-- When trip arithmetic bounds the loop. -/
def TripsFit (cc : Cc) (stride lo hi : Int64) : Prop :=
  match cc with
  | .below bound strict signed =>
    RangeFits (placeOf signed lo) (placeOf signed hi) (edgeOf strict (placeOf signed bound)) stride.toInt
  | .above bound strict signed =>
    RangeFits (mirror signed hi) (mirror signed lo) (edgeOf strict (mirror signed bound)) (-stride.toInt)
  | .eq bound true => lo = bound ∨ lo.toInt + stride.toInt ≠ bound.toInt
  | .eq bound false => stride = 1 ∧ lo < bound ∨ stride = -1 ∧ bound < lo

theorem placeOf_first : 0 ≤ placeOf signed c := by
  unfold placeOf
  have low := toInt_lower c
  split <;> omega

theorem placeOf_last : placeOf signed c < 2 ^ 64 := by
  unfold placeOf
  have high := toInt_upper c
  have bound := c.toUInt64.toNat_lt
  split <;> omega

/-- Every place is that of a value. -/
theorem placeOf_surjective {x : Int} (first : 0 ≤ x) (last : x < 2 ^ 64) : ∃ c, placeOf signed c = x := by
  cases signed with
  | true =>
    refine ⟨Int64.ofInt (x - 2 ^ 63), ?_⟩
    rw [placeOf, if_pos rfl, toInt_ofInt (by omega) (by omega)]
    omega
  | false =>
    refine ⟨(UInt64.ofNat x.toNat).toInt64, ?_⟩
    simp [placeOf]
    omega

/-- A stride moves the place around the ring. -/
theorem placeOf_add : placeOf signed (c + stride) = (placeOf signed c + stride.toInt) % 2 ^ 64 := by
  have low := toInt_lower c
  have high := toInt_upper c
  have low' := toInt_lower stride
  have high' := toInt_upper stride
  have sum : (c + stride).toInt = (c.toInt + stride.toInt).bmod (2 ^ 64) := Int64.toInt_add c stride
  rw [Int.bmod_def] at sum
  unfold placeOf
  split
  · split at sum <;> omega
  · rw [toNat_toUInt64, toNat_toUInt64]
    split at sum <;> split <;> split <;> omega

/-- The continue-condition holds of the places before the edge. -/
theorem below_holds :
    (Cc.below bound strict signed).holds c ↔ placeOf signed c < edgeOf strict (placeOf signed bound) := by
  cases strict <;> cases signed <;> simp [Cc.holds, placeOf, edgeOf, Int64.lt_iff_toInt_lt, Int64.le_iff_toInt_le,
    UInt64.lt_iff_toNat_lt, UInt64.le_iff_toNat_le] <;> omega

theorem above_holds : (Cc.above bound strict signed).holds c ↔ mirror signed c < edgeOf strict (mirror signed bound) := by
  cases strict <;> cases signed <;> simp [Cc.holds, mirror, placeOf, edgeOf, Int64.lt_iff_toInt_lt,
    Int64.le_iff_toInt_le, UInt64.lt_iff_toNat_lt, UInt64.le_iff_toNat_le] <;> omega

theorem mirror_add : mirror signed (c + stride) = (mirror signed c + -stride.toInt) % 2 ^ 64 := by
  have low : 0 ≤ placeOf signed c := placeOf_first
  have high : placeOf signed c < 2 ^ 64 := placeOf_last
  unfold mirror
  rw [placeOf_add]
  have low' := toInt_lower stride
  have high' := toInt_upper stride
  omega

/-! ### Loops as walks -/

section

variable {rank : Int64 → Int} {low high edge pace : Int}
  (onRing : ∀ c, 0 ≤ rank c ∧ rank c < 2 ^ 64) (moves : ∀ c, rank (c + stride) = (rank c + pace) % 2 ^ 64)
  (holds : ∀ c, cc.holds c ↔ rank c < edge)
include onRing moves holds

theorem testThenAdd_iff : testThenAdd cc stride n c ↔ Arrives (2 ^ 64) pace edge n (rank c) := by
  induction n generalizing c with
  | zero =>
    have stop : testThenAdd cc stride 0 c = !cc.holds c := rfl
    rw [stop, Bool.not_eq_true', Bool.eq_false_iff, ne_eq, holds, Int.not_lt]
    constructor
    · exact arrives_here (onRing c).1 (onRing c).2
    · rintro ⟨k, few, past⟩
      obtain rfl := Nat.le_zero.mp few
      rwa [Nat.cast_zero, Int.zero_mul, Int.add_zero, Int.emod_eq_of_lt (onRing c).1 (onRing c).2] at past
  | succ n ih =>
    rw [testThenAdd, Bool.or_eq_true, ih, moves, arrives_succ (onRing c).1 (onRing c).2, Bool.not_eq_true',
      Bool.eq_false_iff, ne_eq, holds, Int.not_lt]

theorem bounds_iff_arrives (onto : ∀ x, 0 ≤ x → x < 2 ^ 64 → ∃ c, rank c = x) (first : 0 ≤ low) (last : high < 2 ^ 64)
    (range : ∀ c, lo ≤ c ∧ c ≤ hi ↔ low ≤ rank c ∧ rank c ≤ high) :
    Bounds cc stride lo hi n ↔ ∀ x, low ≤ x → x ≤ high →
      Arrives (2 ^ 64) pace edge n x ∧ Arrives (2 ^ 64) pace edge n ((x + pace) % 2 ^ 64) := by
  have each : ∀ c, (addThenTest cc stride n c ∧ testThenAdd cc stride n c) ↔
      Arrives (2 ^ 64) pace edge n (rank c) ∧ Arrives (2 ^ 64) pace edge n ((rank c + pace) % 2 ^ 64) := by
    intro c
    rw [addThenTest_eq, testThenAdd_iff onRing moves holds, testThenAdd_iff onRing moves holds, moves, and_comm]
  constructor
  · intro bounds x above below
    obtain ⟨c, rfl⟩ := onto x (by omega) (by omega)
    obtain ⟨start, stop⟩ := (range c).mpr ⟨above, below⟩
    exact (each c).mp (bounds c start stop)
  · intro arrives c start stop
    obtain ⟨above, below⟩ := (range c).mp ⟨start, stop⟩
    exact (each c).mpr (arrives (rank c) above below)

/-- The bound on loops that walk through a range towards an edge or away from it. -/
theorem bounds_iff_rangeFits (onto : ∀ x, 0 ≤ x → x < 2 ^ 64 → ∃ c, rank c = x) (first : 0 ≤ low)
    (last : high < 2 ^ 64)
    (range : ∀ c, lo ≤ c ∧ c ≤ hi ↔ low ≤ rank c ∧ rank c ≤ high) (edgeFirst : 0 ≤ edge)
    (small : -2 ^ 31 ≤ pace ∧ pace ≤ 2 ^ 31 ∧ pace ≠ 0)
    (steps : if 0 < pace then (n : Int) = max 0 (stepsTo pace edge low) else n = 0 ∧ edge ≤ low) :
    Bounds cc stride lo hi n ↔ RangeFits low high edge pace := by
  rw [bounds_iff_arrives onRing moves holds onto first last range, RangeFits]
  split at steps
  · rename_i positive
    rw [if_pos positive]
    exact arrives_iff_lands (by omega) positive first last edgeFirst steps
  · rename_i negative
    obtain ⟨rfl, past⟩ := steps
    rw [if_neg negative]
    exact arrives_iff_room (by omega) (by omega) first last past

end

/-! ### Trip counts -/

/-- Non-negative values keep their distances. -/
theorem placeOf_sub {a b : Int64} (plain : signed = false → 0 ≤ a ∧ 0 ≤ b) :
    placeOf signed a - placeOf signed b = a.toInt - b.toInt := by
  unfold placeOf
  cases signed with
  | true =>
    rw [if_pos rfl, if_pos rfl]
    omega
  | false =>
    obtain ⟨left, right⟩ := plain rfl
    rw [Int64.le_iff_toInt_le, show (0 : Int64).toInt = 0 from rfl] at left right
    rw [if_neg (by decide), if_neg (by decide), toNat_toUInt64, toNat_toUInt64]
    split <;> split <;> omega

/-- The edge of `count_traversals` is one past an inclusive bound. -/
theorem edge_above (exits : ¬ (strict = false ∧ bound = Int64.maxValue)) :
    (if strict then bound else saturatingAdd bound 1).toInt = edgeOf strict bound.toInt := by
  cases strict with
  | true => rfl
  | false =>
    have high := toInt_upper bound
    have low := toInt_lower bound
    have other : bound.toInt ≠ 2 ^ 63 - 1 := fun same => exits ⟨rfl, Int64.toInt_inj.mp same⟩
    simp only [edgeOf, Bool.false_eq_true, if_false]
    rw [saturatingAdd, saturatingI64_toInt, show (1 : Int64).toInt = 1 from rfl]
    split
    · omega
    · split <;> omega

theorem edge_below (exits : ¬ (strict = false ∧ bound = Int64.minValue)) :
    (if strict then bound else saturatingSub bound 1).toInt = if strict then bound.toInt else bound.toInt - 1 := by
  cases strict with
  | true => rfl
  | false =>
    have high := toInt_upper bound
    have low := toInt_lower bound
    have other : bound.toInt ≠ -2 ^ 63 := fun same => exits ⟨rfl, Int64.toInt_inj.mp same⟩
    simp only [Bool.false_eq_true, if_false]
    rw [saturatingSub, saturatingI64_toInt, show (1 : Int64).toInt = 1 from rfl]
    split
    · omega
    · split <;> omega

theorem below_steps {count : Int} (counted : countTraversals (.below bound strict signed) stride lo hi = some count)
    (plain : signed = false → 0 ≤ bound ∧ 0 ≤ lo) :
    0 ≤ count ∧ if 0 < stride.toInt then
      (count.toNat : Int) = max 0 (stepsTo stride.toInt (edgeOf strict (placeOf signed bound)) (placeOf signed lo))
    else count.toNat = 0 ∧ edgeOf strict (placeOf signed bound) ≤ placeOf signed lo := by
  have apart := placeOf_sub plain
  unfold countTraversals at counted
  dsimp only at counted
  split at counted
  · cases counted
  rename_i exits
  have edge : _ = edgeOf strict bound.toInt := edge_above (by simpa using exits)
  have shift : edgeOf strict (placeOf signed bound) - placeOf signed lo = edgeOf strict bound.toInt - lo.toInt := by
    unfold edgeOf
    split <;> omega
  generalize (if strict then bound else saturatingAdd bound 1) = e at *
  simp only [Int64.le_iff_toInt_le, Int64.lt_iff_toInt_lt, ge_iff_le, show (0 : Int64).toInt = 0 from rfl] at counted
  split at counted
  · split at counted
    · cases counted
    · cases counted
      rw [if_neg (by omega)]
      exact ⟨Int.le_refl 0, rfl, by omega⟩
  · rename_i positive
    rw [if_pos (by omega)]
    split at counted
    · cases counted
      have none_ : stepsTo stride.toInt (edgeOf strict (placeOf signed bound)) (placeOf signed lo) ≤ 0 :=
        stepsTo_nonpos (by omega) (by omega)
      omega
    · cases counted
      rename_i before
      have some_ : 0 < stepsTo stride.toInt (edgeOf strict (placeOf signed bound)) (placeOf signed lo) :=
        stepsTo_pos (by omega) (by omega)
      have same : divCeil (e.toInt - lo.toInt) stride.toInt =
          stepsTo stride.toInt (edgeOf strict (placeOf signed bound)) (placeOf signed lo) := by
        rw [divCeil, stepsTo, shift, edge]
      rw [same]
      omega

theorem above_steps {count : Int} (counted : countTraversals (.above bound strict signed) stride lo hi = some count)
    (plain : signed = false → 0 ≤ hi ∧ 0 ≤ bound) :
    0 ≤ count ∧ if 0 < -stride.toInt then
      (count.toNat : Int) = max 0 (stepsTo (-stride.toInt) (edgeOf strict (mirror signed bound)) (mirror signed hi))
    else count.toNat = 0 ∧ edgeOf strict (mirror signed bound) ≤ mirror signed hi := by
  have apart := placeOf_sub plain
  unfold countTraversals at counted
  dsimp only at counted
  split at counted
  · cases counted
  rename_i exits
  have edge : _ = if strict then bound.toInt else bound.toInt - 1 := edge_below (by simpa using exits)
  generalize (if strict then bound else saturatingSub bound 1) = e at *
  have shift : edgeOf strict (mirror signed bound) - mirror signed hi = hi.toInt - e.toInt := by
    rw [edge]
    unfold edgeOf mirror
    split <;> omega
  simp only [Int64.le_iff_toInt_le, Int64.lt_iff_toInt_lt, ge_iff_le, gt_iff_lt, show (0 : Int64).toInt = 0 from rfl]
    at counted
  split at counted
  · split at counted
    · cases counted
    · cases counted
      rw [if_neg (by omega)]
      exact ⟨Int.le_refl 0, rfl, by omega⟩
  · rename_i negative
    rw [if_pos (by omega)]
    split at counted
    · cases counted
      have none_ : stepsTo (-stride.toInt) (edgeOf strict (mirror signed bound)) (mirror signed hi) ≤ 0 :=
        stepsTo_nonpos (by omega) (by omega)
      omega
    · cases counted
      have some_ : 0 < stepsTo (-stride.toInt) (edgeOf strict (mirror signed bound)) (mirror signed hi) :=
        stepsTo_pos (by omega) (by omega)
      have same : divCeil (hi.toInt - e.toInt) (-stride.toInt) =
          stepsTo (-stride.toInt) (edgeOf strict (mirror signed bound)) (mirror signed hi) := by
        rw [divCeil, stepsTo, shift]
      rw [same]
      omega

/-- The values of a range are those at the places of its ends and between. -/
theorem placeOf_range (plain : signed = false → 0 ≤ lo) (ordered : lo ≤ hi) (c : Int64) :
    lo ≤ c ∧ c ≤ hi ↔ placeOf signed lo ≤ placeOf signed c ∧ placeOf signed c ≤ placeOf signed hi := by
  simp only [Int64.le_iff_toInt_le] at ordered plain ⊢
  unfold placeOf
  cases signed with
  | true => simp
  | false =>
    have start := plain rfl
    rw [show (0 : Int64).toInt = 0 from rfl] at start
    have high := toInt_upper hi
    have low := toInt_lower c
    simp only [Bool.false_eq_true, if_false, toNat_toUInt64]
    split <;> split <;> split <;> omega

/-- How far the bound is ahead of a counter that moves by one. -/
def ahead (bound stride c : Int64) : Int :=
  if stride = 1 then (bound.toInt - c.toInt) % 2 ^ 64 else (c.toInt - bound.toInt) % 2 ^ 64

theorem ahead_range (bound stride c : Int64) : 0 ≤ ahead bound stride c ∧ ahead bound stride c < 2 ^ 64 := by
  unfold ahead
  split <;> omega

theorem ahead_add (unit : stride = 1 ∨ stride = -1) :
    2 ^ 64 - 1 - ahead bound stride (c + stride) = (2 ^ 64 - 1 - ahead bound stride c + 1) % 2 ^ 64 := by
  have sum : (c + stride).toInt = (c.toInt + stride.toInt).bmod (2 ^ 64) := Int64.toInt_add c stride
  rw [Int.bmod_def] at sum
  unfold ahead
  rcases unit with rfl | rfl
  · rw [if_pos rfl, if_pos rfl]
    rw [show (1 : Int64).toInt = 1 from rfl] at sum
    split at sum <;> omega
  · rw [if_neg (by decide), if_neg (by decide)]
    rw [show (-1 : Int64).toInt = -1 from rfl] at sum
    split at sum <;> omega

/-- A loop while unequal, one by one, goes on as long as the bound is ahead. -/
theorem testThenAdd_ahead (unit : stride = 1 ∨ stride = -1) :
    testThenAdd (.eq bound false) stride n c ↔ Arrives (2 ^ 64) 1 (2 ^ 64 - 1) n (2 ^ 64 - 1 - ahead bound stride c) := by
  have onRing : ∀ c, 0 ≤ 2 ^ 64 - 1 - ahead bound stride c ∧ 2 ^ 64 - 1 - ahead bound stride c < 2 ^ 64 := by
    intro c
    have range := ahead_range bound stride c
    omega
  refine testThenAdd_iff onRing (fun c => ahead_add unit) fun c => ?_
  · have low := toInt_lower c
    have high := toInt_upper c
    have low' := toInt_lower bound
    have high' := toInt_upper bound
    have same : (Cc.eq bound false).holds c ↔ c.toInt ≠ bound.toInt := by
      simp [Cc.holds, Int64.toInt_inj]
    rw [same]
    unfold ahead
    split <;> omega

/-- Looping while unequal is bounded by the distance exactly when the counter moves towards the bound. -/
theorem unequal_iff (unit : stride = 1 ∨ stride = -1) (apart : lo ≠ bound) (start : 0 ≤ lo) (positive : 0 ≤ bound)
    (distance : n = (bound.toInt - lo.toInt).natAbs) :
    (addThenTest (.eq bound false) stride n lo ∧ testThenAdd (.eq bound false) stride n lo) ↔
      stride = 1 ∧ lo < bound ∨ stride = -1 ∧ bound < lo := by
  have range := ahead_range bound stride lo
  have low := toInt_lower lo
  have high := toInt_upper lo
  have low' := toInt_lower bound
  have high' := toInt_upper bound
  have differ : lo.toInt ≠ bound.toInt := fun same => apart (Int64.toInt_inj.mp same)
  have steps : ∀ x : Int, stepsTo 1 (2 ^ 64 - 1) x = 2 ^ 64 - 1 - x := fun x => by simp [stepsTo]
  have lands : ∀ x : Int, Lands (2 ^ 64) 1 (2 ^ 64 - 1) x := fun x => by simp [Lands]
  rw [Int64.le_iff_toInt_le, show (0 : Int64).toInt = 0 from rfl] at start positive
  rw [Int64.lt_iff_toInt_lt, Int64.lt_iff_toInt_lt]
  rw [addThenTest_eq, testThenAdd_ahead unit, testThenAdd_ahead unit, ahead_add unit]
  constructor
  · rintro ⟨_, arrives⟩
    unfold ahead at arrives range
    rcases unit with rfl | rfl
    · rw [if_pos rfl] at arrives range
      refine Or.inl ⟨rfl, ?_⟩
      rcases lands_of_arrives (by omega) (by omega) (by omega) arrives with ⟨_, few⟩ | around
      · rw [steps] at few
        omega
      · omega
    · rw [if_neg (by decide)] at arrives range
      refine Or.inr ⟨rfl, ?_⟩
      rcases lands_of_arrives (by omega) (by omega) (by omega) arrives with ⟨_, few⟩ | around
      · rw [steps] at few
        omega
      · omega
  · intro towards
    have distance' : ahead bound stride lo = n := by
      unfold ahead
      rcases towards with ⟨rfl, before⟩ | ⟨rfl, behind⟩
      · rw [if_pos rfl]
        omega
      · rw [if_neg (by decide)]
        omega
    have some_ : 0 < n := by omega
    have next : (2 ^ 64 - 1 - ahead bound stride lo + 1) % 2 ^ 64 = 2 ^ 64 - n := by omega
    rw [next, distance']
    constructor
    · by_cases one : n = 1
      · exact arrives_here (by omega) (by omega) (by omega)
      · exact arrives_of_lands (by omega) (by omega) (by omega) (lands _) (by rw [steps]; omega)
    · exact arrives_of_lands (by omega) (by omega) (by omega) (lands _) (by rw [steps]; omega)

/-- The count for an equality bounds the loops exactly when they meet it, or never start to miss it. -/
theorem equality_iff {count : Int} {hold : Bool}
    (counted : countTraversals (.eq bound hold) stride lo hi = some count) (moving : stride ≠ 0)
    (small : -2 ^ 31 ≤ stride.toInt ∧ stride.toInt ≤ 2 ^ 31) (start : 0 ≤ lo) (positive : 0 ≤ bound) :
    0 ≤ count ∧ (Bounds (.eq bound hold) stride lo hi count.toNat ↔ TripsFit (.eq bound hold) stride lo hi) := by
  unfold countTraversals at counted
  dsimp only at counted
  split at counted
  · cases counted
  rename_i exact_
  have single : lo = hi := not_not.mp exact_
  subst single
  have only : ∀ n, Bounds (.eq bound hold) stride lo lo n ↔
      addThenTest (.eq bound hold) stride n lo ∧ testThenAdd (.eq bound hold) stride n lo := by
    intro n
    refine ⟨fun bounds => bounds lo (Int64.le_refl lo) (Int64.le_refl lo), fun both c above below => ?_⟩
    obtain rfl := Int64.le_antisymm below above
    exact both
  have sum : (lo + stride).toInt = (lo.toInt + stride.toInt).bmod (2 ^ 64) := Int64.toInt_add lo stride
  rw [Int.bmod_def] at sum
  have nonzero : stride.toInt ≠ 0 := fun zero => moving (Int64.toInt_inj.mp zero)
  have start' : 0 ≤ lo.toInt := Int64.le_iff_toInt_le.mp start
  have positive' : 0 ≤ bound.toInt := Int64.le_iff_toInt_le.mp positive
  have high := toInt_upper lo
  have high' := toInt_upper bound
  rw [only]
  cases hold with
  | true =>
    by_cases same : lo = bound
    · subst same
      have left : lo + stride ≠ lo := by
        intro back
        rw [back] at sum
        split at sum <;> omega
      simp only [decide_true] at counted
      cases counted
      refine ⟨by decide, iff_of_true ?_ (Or.inl rfl)⟩
      simp [addThenTest, testThenAdd, Cc.holds, left]
    · simp only [decide_eq_false same] at counted
      cases counted
      refine ⟨by decide, ?_⟩
      have meets : lo + stride = bound ↔ lo.toInt + stride.toInt = bound.toInt := by
        rw [← Int64.toInt_inj]
        split at sum <;> omega
      simp [addThenTest, testThenAdd, Cc.holds, TripsFit, same, meets]
  | false =>
    by_cases same : lo = bound
    · subst same
      simp only [decide_true] at counted
      cases counted
      refine ⟨by decide, iff_of_false ?_ ?_⟩
      · rintro ⟨stops, _⟩
        have back : lo + stride = lo := by simpa [addThenTest, Cc.holds] using stops
        rw [back] at sum
        split at sum <;> omega
      · rintro (⟨_, below⟩ | ⟨_, above⟩)
        · exact Int64.lt_irrefl below
        · exact Int64.lt_irrefl above
    · simp only [decide_eq_false same] at counted
      split at counted
      · cases counted
      · rename_i unit
        cases counted
        refine ⟨by omega, unequal_iff ?_ same start positive (by omega)⟩
        by_contra other
        exact unit (not_or.mp other)

theorem counted_iff_tripsFit (cc : Cc) (stride lo hi : Int64) (count : Int) (moving : stride ≠ 0)
    (small : -2 ^ 31 ≤ stride.toInt ∧ stride.toInt ≤ 2 ^ 31) (ordered : lo ≤ hi)
    (plain : cc.signed = false → 0 ≤ lo ∧ 0 ≤ cc.bound) (counted : countTraversals cc stride lo hi = some count) :
    0 ≤ count ∧ (Bounds cc stride lo hi count.toNat ↔ TripsFit cc stride lo hi) := by
  have pace : stride.toInt ≠ 0 := fun zero => moving (Int64.toInt_inj.mp zero)
  cases cc with
  | below bound strict signed =>
    obtain ⟨nonneg, steps⟩ := below_steps counted fun unsigned => ⟨(plain unsigned).2, (plain unsigned).1⟩
    have edgeFirst : 0 ≤ edgeOf strict (placeOf signed bound) := by
      have first : 0 ≤ placeOf signed bound := placeOf_first
      unfold edgeOf
      split <;> omega
    have range : ∀ c, lo ≤ c ∧ c ≤ hi ↔ placeOf signed lo ≤ placeOf signed c ∧ placeOf signed c ≤ placeOf signed hi :=
      placeOf_range (fun unsigned => (plain unsigned).1) ordered
    have onRing : ∀ c, 0 ≤ placeOf signed c ∧ placeOf signed c < 2 ^ 64 := fun c => ⟨placeOf_first, placeOf_last⟩
    exact ⟨nonneg, bounds_iff_rangeFits onRing
      (fun c => placeOf_add) (fun c => below_holds) (fun x => placeOf_surjective) placeOf_first placeOf_last
      range edgeFirst ⟨small.1, small.2, pace⟩ steps⟩
  | above bound strict signed =>
    obtain ⟨nonneg, steps⟩ := above_steps counted fun unsigned =>
      ⟨Int64.le_trans (plain unsigned).1 ordered, (plain unsigned).2⟩
    have onRing : ∀ c, 0 ≤ mirror signed c ∧ mirror signed c < 2 ^ 64 := by
      intro c
      have first : 0 ≤ placeOf signed c := placeOf_first
      have last : placeOf signed c < 2 ^ 64 := placeOf_last
      unfold mirror
      omega
    have edgeFirst : 0 ≤ edgeOf strict (mirror signed bound) := by
      have inside := onRing bound
      unfold edgeOf
      split <;> omega
    have onto : ∀ x, 0 ≤ x → x < 2 ^ 64 → ∃ c, mirror signed c = x := by
      intro x first last
      obtain ⟨c, found⟩ : ∃ c, placeOf signed c = 2 ^ 64 - 1 - x := placeOf_surjective (by omega) (by omega)
      exact ⟨c, by rw [mirror, found]; omega⟩
    have range : ∀ c, lo ≤ c ∧ c ≤ hi ↔ mirror signed hi ≤ mirror signed c ∧ mirror signed c ≤ mirror signed lo := by
      intro c
      have range : lo ≤ c ∧ c ≤ hi ↔ placeOf signed lo ≤ placeOf signed c ∧ placeOf signed c ≤ placeOf signed hi :=
        placeOf_range (fun unsigned => (plain unsigned).1) ordered c
      rw [range]
      unfold mirror
      omega
    exact ⟨nonneg, bounds_iff_rangeFits onRing (fun c => mirror_add) (fun c => above_holds)
      onto (onRing hi).1 (onRing lo).2 range edgeFirst ⟨by omega, by omega, by omega⟩ steps⟩
  | eq bound hold =>
    exact equality_iff counted moving small (plain rfl).1 (plain rfl).2

/-- Trip arithmetic bounds both loops exactly when the walk of the counter fits: moving towards the bound
it lands past it before the end of the values, and so does a walk that starts around that end, in no
more steps than from the start of the range; moving away no start steps across the bound; and a loop
while equal does not step onto the bound, a loop while unequal steps towards it one by one. -/
theorem trips_bound_iff (cc : Cc) (stride lo hi : Int64) (count : Int) (moving : stride ≠ 0)
    (small : -2 ^ 31 ≤ stride.toInt ∧ stride.toInt ≤ 2 ^ 31) (ordered : lo ≤ hi)
    (plain : cc.signed = false → 0 ≤ lo ∧ 0 ≤ cc.bound) (counted : countTraversals cc stride lo hi = some count) :
    (∀ op k taken, continueCondition op k taken = some cc → ∀ c, cc.holds c = (jumpTaken64 op c k == taken)) ∧
      0 ≤ count ∧ (Bounds cc stride lo hi count.toNat ↔ TripsFit cc stride lo hi) :=
  ⟨fun _ _ _ canonical => continueCondition_holds canonical,
    counted_iff_tripsFit cc stride lo hi count moving small ordered plain counted⟩

/-- From 0 to 5 in steps of 1, as long as the counter is below 10. -/
theorem trips_bound_iff_up : (0 : Int) ≤ 10 ∧
    (Bounds (.below 10 true false) 1 0 5 (10 : Int).toNat ↔ TripsFit (.below 10 true false) 1 0 5) :=
  (trips_bound_iff (.below 10 true false) 1 0 5 10 (by decide) (by decide) (by decide) (by decide) (by decide)).2

/-- From 10 down, tested after the step: below 10 at once, and counted as no trip. -/
theorem trips_exceed : ¬ ∀ (cc : Cc) (stride lo hi : Int64) (count : Int), stride ≠ 0 →
    (-2 ^ 31 ≤ stride.toInt ∧ stride.toInt ≤ 2 ^ 31) → lo ≤ hi → (cc.signed = false → 0 ≤ lo ∧ 0 ≤ cc.bound) →
    countTraversals cc stride lo hi = some count → Bounds cc stride lo hi count.toNat := by
  intro bounds
  have runs := bounds (.below 10 true false) (-1) 10 10 0 (by decide) (by decide) (by decide) (by decide) (by decide)
  exact absurd (runs 10 (by decide) (by decide)).1 (by decide)

end EbpfLab.Verifier
