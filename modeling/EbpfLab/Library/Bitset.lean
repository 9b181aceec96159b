/-!
# Bitsets in machine words

A fixed set of small naturals kept as 64-bit words, with the word masks that test or set a short
range at once. A range no longer than a word touches at most two words.
-/

namespace EbpfLab.Library

/-- Bits `0 .. 64 * n`, one word per 64 of them. -/
abbrev Bitset (n : Nat) := Vector (BitVec 64) n

namespace Bitset

variable {n : Nat}

def empty : Bitset n := Vector.replicate n 0

/-- Word `i`, zero past the end. -/
def word (s : Bitset n) (i : Nat) : BitVec 64 := s[i]?.getD 0

def test (s : Bitset n) (i : Nat) : Bool := (s.word (i / 64)).getLsbD (i % 64)

/-- Set the bits of `mask` in word `i`. -/
def orWord (s : Bitset n) (i : Nat) (mask : BitVec 64) : Bitset n :=
  s.setIfInBounds i (s.word i ||| mask)

def inter (s t : Bitset n) : Bitset n := Vector.zipWith (· &&& ·) s t

/-- Ones at `bit .. bit + width`. -/
def rangeMask (bit width : Nat) : BitVec 64 := ((1#64 <<< width) - 1#64) <<< bit

/-- Ones from `bit` to the top of the word. -/
def topMask (bit : Nat) : BitVec 64 := BitVec.allOnes 64 <<< bit

/-! ### Words -/

@[simp] theorem word_empty (i : Nat) : (empty : Bitset n).word i = 0 := by
  simp only [word, empty, Vector.getElem?_replicate]
  split <;> rfl

@[simp] theorem test_empty (i : Nat) : (empty : Bitset n).test i = false := by
  simp [test]

theorem word_orWord (s : Bitset n) (i j : Nat) (mask : BitVec 64) :
    (s.orWord i mask).word j = if i = j ∧ j < n then s.word j ||| mask else s.word j := by
  simp only [orWord, word, Vector.getElem?_setIfInBounds]
  by_cases same : i = j
  · subst same
    by_cases inside : i < n <;> simp [inside]
  · simp [same]

theorem test_orWord (s : Bitset n) (i k : Nat) (mask : BitVec 64) (inside : i < n) :
    (s.orWord i mask).test k = (s.test k || (decide (k / 64 = i) && mask.getLsbD (k % 64))) := by
  simp only [test, word_orWord]
  by_cases same : i = k / 64
  · subst same
    simp [inside]
  · simp [same, Ne.symm same]

theorem word_inter (s t : Bitset n) (i : Nat) : (s.inter t).word i = s.word i &&& t.word i := by
  simp only [word, inter, Vector.getElem?_zipWith]
  by_cases inside : i < n <;> simp [inside]

@[simp] theorem test_inter (s t : Bitset n) (i : Nat) :
    (s.inter t).test i = (s.test i && t.test i) := by
  simp [test, word_inter]

theorem getElem_eq_word (s : Bitset n) (i : Nat) (inside : i < n) : s[i] = s.word i := by
  simp [word, inside]

theorem ext_word {s t : Bitset n} (same : ∀ i, s.word i = t.word i) : s = t := by
  apply Vector.ext
  intro i inside
  rw [getElem_eq_word, getElem_eq_word, same]

/-- Bitsets with the same bits are equal. -/
theorem ext_test {s t : Bitset n} (same : ∀ k < 64 * n, s.test k = t.test k) : s = t := by
  apply Vector.ext
  intro i inside
  rw [getElem_eq_word, getElem_eq_word]
  apply BitVec.eq_of_getLsbD_eq
  intro bit short
  have entry := same (64 * i + bit) (by omega)
  simpa only [test, show (64 * i + bit) / 64 = i by omega,
    show (64 * i + bit) % 64 = bit by omega] using entry

theorem inter_assoc (s t u : Bitset n) : (s.inter t).inter u = s.inter (t.inter u) :=
  ext_word fun i => by simp only [word_inter, BitVec.and_assoc]

theorem inter_comm (s t : Bitset n) : s.inter t = t.inter s :=
  ext_word fun i => by rw [word_inter, word_inter, BitVec.and_comm]

@[simp] theorem inter_self (s : Bitset n) : s.inter s = s :=
  ext_word fun i => by simp only [word_inter, BitVec.and_self]

@[simp] theorem inter_inter_left (s t : Bitset n) : (s.inter t).inter s = s.inter t :=
  ext_word fun i => by
    simp only [word_inter]
    rw [BitVec.and_comm (s.word i), BitVec.and_assoc, BitVec.and_self]

@[simp] theorem inter_inter_right (s t : Bitset n) : (s.inter t).inter t = s.inter t := by
  rw [inter_assoc, inter_self]

/-! ### Masks -/

theorem getLsbD_lowOnes (width k : Nat) (short : width < 64) :
    ((1#64 <<< width) - 1#64).getLsbD k = decide (k < width) := by
  have value : ((1#64 <<< width) - 1#64).toNat = 2 ^ width - 1 := by
    have small : 2 ^ width < 2 ^ 64 := Nat.pow_lt_pow_right (by decide) short
    have positive : 0 < 2 ^ width := Nat.two_pow_pos width
    simp only [BitVec.toNat_sub, BitVec.toNat_shiftLeft, BitVec.toNat_ofNat, Nat.shiftLeft_eq]
    omega
  rw [BitVec.getLsbD, value, Nat.testBit_two_pow_sub_one]

theorem getLsbD_rangeMask (bit width k : Nat) (short : width < 64) (inside : k < 64) :
    (rangeMask bit width).getLsbD k = decide (bit ≤ k ∧ k < bit + width) := by
  simp only [rangeMask, BitVec.getLsbD_shiftLeft]
  by_cases below : k < bit
  · simp [below, Nat.not_le.mpr below]
  · rw [getLsbD_lowOnes _ _ short]
    by_cases upper : k < bit + width
    · simp [inside, below, upper, show k - bit < width by omega, show bit ≤ k by omega]
    · simp [upper, show ¬ k - bit < width by omega]

theorem getLsbD_topMask (bit k : Nat) (inside : k < 64) :
    (topMask bit).getLsbD k = decide (bit ≤ k) := by
  simp only [topMask, BitVec.getLsbD_shiftLeft, BitVec.getLsbD_allOnes]
  by_cases below : k < bit
  · simp [below, Nat.not_le.mpr below]
  · simp [inside, below, show k - bit < 64 by omega, show bit ≤ k by omega]

/-- Testing one bit of a word by its mask. -/
theorem and_bit (w : BitVec 64) {bit : Nat} (inside : bit < 64) : (w &&& 1#64 <<< bit != 0) = w.getLsbD bit := by
  rw [show 1#64 <<< bit = BitVec.twoPow 64 bit from rfl, BitVec.and_twoPow]
  by_cases isSet : w.getLsbD bit = true
  · have positive : BitVec.twoPow 64 bit ≠ 0#64 := by
      intro zero
      have clash := congrArg (fun w => w.getLsbD bit) zero
      simp [inside] at clash
    simp [isSet, positive]
  · simp [isSet]

/-- A masked word equals its mask exactly when it has every bit of the mask. -/
theorem and_eq_mask_iff (w mask : BitVec 64) :
    w &&& mask = mask ↔ ∀ k < 64, mask.getLsbD k = true → w.getLsbD k = true := by
  constructor
  · intro same k _ isSet
    have bit := congrArg (fun v => v.getLsbD k) same
    simpa [isSet] using bit
  · intro every
    apply BitVec.eq_of_getLsbD_eq
    intro k inside
    have bit := every k inside
    cases isSet : mask.getLsbD k
    · simp [isSet]
    · simp [isSet, bit isSet]

/-! ### Ranges -/

/-- Whether `i .. i + width` are all set, for a range no longer than a word. -/
def testRange (s : Bitset n) (i width : Nat) : Bool :=
  let bit := i % 64
  if bit + width ≤ 64 then
    let mask := rangeMask bit width
    s.word (i / 64) &&& mask == mask
  else
    let maskLo := topMask bit
    let maskHi := rangeMask 0 (width - (64 - bit))
    (s.word (i / 64) &&& maskLo == maskLo) && (s.word (i / 64 + 1) &&& maskHi == maskHi)

/-- Set `i .. i + width`, for a range no longer than a word. -/
def setRange (s : Bitset n) (i width : Nat) : Bitset n :=
  let bit := i % 64
  if bit + width ≤ 64 then s.orWord (i / 64) (rangeMask bit width)
  else
    (s.orWord (i / 64) (topMask bit)).orWord (i / 64 + 1) (rangeMask 0 (width - (64 - bit)))

theorem testRange_iff (s : Bitset n) (i width : Nat) (short : width < 64) :
    s.testRange i width = true ↔ ∀ k, i ≤ k → k < i + width → s.test k = true := by
  have split := Nat.div_add_mod i 64
  have small := Nat.mod_lt i (show 64 > 0 by decide)
  unfold testRange
  by_cases fits : i % 64 + width ≤ 64
  · simp only [fits, if_true, beq_iff_eq, and_eq_mask_iff]
    constructor
    · intro every k lower upper
      have word : k / 64 = i / 64 := by omega
      have bit := every (k % 64) (Nat.mod_lt _ (by decide))
      rw [getLsbD_rangeMask _ _ _ short (Nat.mod_lt _ (by decide))] at bit
      simpa [test, word] using bit (by simp; omega)
    · intro every k inside isSet
      rw [getLsbD_rangeMask _ _ _ short inside, decide_eq_true_eq] at isSet
      have bit := every (64 * (i / 64) + k) (by omega) (by omega)
      simpa [test, show (64 * (i / 64) + k) / 64 = i / 64 by omega,
        show (64 * (i / 64) + k) % 64 = k by omega] using bit
  · simp only [fits, if_false, Bool.and_eq_true, beq_iff_eq, and_eq_mask_iff]
    constructor
    · rintro ⟨low, high⟩ k lower upper
      by_cases first : k / 64 = i / 64
      · have bit := low (k % 64) (Nat.mod_lt _ (by decide))
        rw [getLsbD_topMask _ _ (Nat.mod_lt _ (by decide))] at bit
        simpa [test, first] using bit (by simp; omega)
      · have second : k / 64 = i / 64 + 1 := by omega
        have bit := high (k % 64) (Nat.mod_lt _ (by decide))
        rw [getLsbD_rangeMask _ _ _ (by omega) (Nat.mod_lt _ (by decide))] at bit
        simpa [test, second] using bit (by simp; omega)
    · intro every
      constructor <;> intro k inside isSet
      · rw [getLsbD_topMask _ _ inside, decide_eq_true_eq] at isSet
        have bit := every (64 * (i / 64) + k) (by omega) (by omega)
        simpa [test, show (64 * (i / 64) + k) / 64 = i / 64 by omega,
          show (64 * (i / 64) + k) % 64 = k by omega] using bit
      · rw [getLsbD_rangeMask _ _ _ (by omega) inside, decide_eq_true_eq] at isSet
        have bit := every (64 * (i / 64 + 1) + k) (by omega) (by omega)
        simpa [test, show (64 * (i / 64 + 1) + k) / 64 = i / 64 + 1 by omega,
          show (64 * (i / 64 + 1) + k) % 64 = k by omega] using bit

theorem test_setRange (s : Bitset n) (i width k : Nat) (short : width < 64)
    (inside : i + width ≤ 64 * n) (positive : 0 < width) :
    (s.setRange i width).test k = (s.test k || decide (i ≤ k ∧ k < i + width)) := by
  have split := Nat.div_add_mod i 64
  have small := Nat.mod_lt i (show 64 > 0 by decide)
  have place := Nat.div_add_mod k 64
  have bound := Nat.mod_lt k (show 64 > 0 by decide)
  unfold setRange
  by_cases fits : i % 64 + width ≤ 64
  · simp only [fits, if_true]
    rw [test_orWord _ _ _ _ (by omega), getLsbD_rangeMask _ _ _ short bound]
    congr 1
    by_cases word : k / 64 = i / 64
    · simp only [word, decide_true, Bool.true_and, decide_eq_decide]
      omega
    · simp only [word, decide_false, Bool.false_and, Bool.false_eq, decide_eq_false_iff_not]
      omega
  · simp only [fits, if_false]
    rw [test_orWord _ _ _ _ (by omega), test_orWord _ _ _ _ (by omega),
      getLsbD_topMask _ _ bound, getLsbD_rangeMask _ _ _ (by omega) bound, Bool.or_assoc]
    congr 1
    by_cases first : k / 64 = i / 64
    · simp only [first, decide_true, Bool.true_and, show ¬ i / 64 = i / 64 + 1 by omega,
        decide_false, Bool.false_and, Bool.or_false, decide_eq_decide]
      omega
    · by_cases second : k / 64 = i / 64 + 1
      · simp only [second, show ¬ i / 64 + 1 = i / 64 by omega, decide_true, decide_false,
          Bool.false_and, Bool.true_and, Bool.false_or, decide_eq_decide]
        omega
      · simp only [first, second, decide_false, Bool.false_and, Bool.or_false, Bool.false_eq,
          decide_eq_false_iff_not]
        omega

end Bitset

end EbpfLab.Library
