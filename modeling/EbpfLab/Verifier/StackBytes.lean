import EbpfLab.Verifier.Checks

/-!
# Stack bytes

The byte-wise bitmap operations of the abstract stack, and the bytes a checked stack access touches.
Byte `k` of the bitmap is the byte at `r10 - 512 + k`.
-/

namespace EbpfLab.Verifier
open Isa Interp Library

variable {s s' : VerifierState} {pc lo hi width : Nat} {o start : Int32} {offset : Int16} {base : Reg}

theorem checkedI32_eq_some {x : Int} {v : Int32} : checkedI32 x = some v ↔ v.toInt = x := by
  unfold checkedI32
  constructor
  · intro held
    split at held
    · rename_i fits
      cases held
      exact Int32.toInt_ofInt_of_le (by simpa using fits.1) (by simpa using fits.2)
    · cases held
  · rintro rfl
    have low := v.le_toInt
    have high := v.toInt_lt
    rw [if_pos ⟨by simpa using low, by simpa using high⟩, Int32.ofInt_toInt]

/-- The bytes of an access in the stack, counted from `r10 - 512`. -/
theorem byteRange_ok (ranged : byteRange o offset width pc = .ok (start, lo, hi)) :
    -512 ≤ o.toInt + offset.toInt ∧ o.toInt + offset.toInt + width ≤ 0 ∧
      (lo : Int) = o.toInt + offset.toInt + 512 ∧ (hi : Int) + 1 = lo + width := by
  unfold byteRange at ranged
  split at ranged
  · cases ranged
  · rename_i first first_eq
    split at ranged
    · cases ranged
    · rename_i last last_eq
      have first_eq := checkedI32_eq_some.mp first_eq
      have last_eq := checkedI32_eq_some.mp last_eq
      split at ranged
      · cases ranged
      · split at ranged
        · cases ranged
        · cases ranged
          omega

/-! ### The bitmap -/

theorem test_markStackByte (s : VerifierState) {byte k : Nat} (inside : byte < 512) :
    (s.markStackByte byte).stackInit.test k = (s.stackInit.test k || decide (k = byte)) := by
  simp only [VerifierState.markStackByte]
  rw [Bitset.test_orWord _ _ _ _ (by omega)]
  congr 1
  rw [show 1#64 <<< (byte % 64) = BitVec.twoPow 64 (byte % 64) from rfl, BitVec.getLsbD_twoPow]
  by_cases word : k / 64 = byte / 64
  · have bound : byte % 64 < 64 := Nat.mod_lt _ (by decide)
    simp only [word, bound, decide_true, Bool.true_and]
    rw [decide_eq_decide]
    omega
  · have other : k ≠ byte := fun same => word (by rw [same])
    simp [word, other]

theorem test_markStackRange (s : VerifierState) {k : Nat} (inside : hi < 512) :
    (s.markStackRange lo hi).stackInit.test k =
      (s.stackInit.test k || decide (lo ≤ k ∧ k ≤ hi)) := by
  have every : ∀ (bytes : List Nat) (s : VerifierState), (∀ byte ∈ bytes, byte < 512) →
      (bytes.foldl VerifierState.markStackByte s).stackInit.test k =
        (s.stackInit.test k || decide (k ∈ bytes)) := by
    intro bytes
    induction bytes with
    | nil => simp
    | cons byte bytes ih =>
      intro s below
      rw [List.foldl_cons, ih _ fun b later => below b (List.mem_cons_of_mem _ later),
        test_markStackByte s (below byte List.mem_cons_self), Bool.or_assoc]
      simp only [List.mem_cons, Bool.decide_or]
  rw [VerifierState.markStackRange, every]
  · congr 1
    rw [decide_eq_decide, List.mem_range'_1]
    omega
  · intro byte present
    obtain ⟨_, upper⟩ := List.mem_range'_1.mp present
    omega

theorem stackRangeInit_iff : s.stackRangeInit lo hi = true ↔
    ∀ k, lo ≤ k → k ≤ hi → s.stackInit.test k = true := by
  have bit : ∀ k, (s.stackInit.word (k / 64) &&& 1#64 <<< (k % 64) != 0) = s.stackInit.test k :=
    fun k => Bitset.and_bit _ (Nat.mod_lt k (by decide))
  simp only [VerifierState.stackRangeInit, List.all_eq_true, List.mem_range'_1, bit]
  constructor
  · intro every k lower upper
    exact every k ⟨lower, by omega⟩
  · rintro every k ⟨lower, upper⟩
    exact every k lower (by omega)

end EbpfLab.Verifier
