import EbpfLab.Verifier.StackBytes

/-!
# Stack slots in the trace

`format_stack` of the JSON trace walks the words of the bitmap, which hold eight stack slots each.
-/

namespace EbpfLab.Verifier
open Library

structure StackSummary where
  offset : Int32
  value : String
  deriving DecidableEq, Repr

/-- `format_stack`. -/
def formatStack (init : Bitset 8) : List StackSummary :=
  let base : Int32 := -512
  init.toList.zipIdx.flatMap fun (word, wordIdx) =>
    if word = BitVec.allOnes 64 then [{ offset := base + Int32.ofNat wordIdx * 8, value := "unknown" }]
    else if word ≠ 0 then
      ((List.range 64).filter fun bit => word &&& 1#64 <<< bit != 0).map fun bit =>
        { offset := base + Int32.ofNat (wordIdx * 64 + bit), value := "unknown" }
    else []

/-- The stack slots with all eight bytes written. -/
def fullSlots (init : Bitset 8) : List Nat :=
  (List.range 64).filter fun slot => (List.range 8).all fun byte => init.test (8 * slot + byte)

/-- The entry of a stack slot. -/
def slotEntry (slot : Nat) : StackSummary := { offset := -512 + 8 * Int32.ofNat slot, value := "unknown" }

/-- One entry for each full slot and no other. -/
def FormatsSlots (init : Bitset 8) : Prop := (formatStack init).Perm ((fullSlots init).map slotEntry)

variable {init : Bitset 8} {entry : StackSummary} {slot : Nat}

theorem mem_fullSlots : slot ∈ fullSlots init ↔ slot < 64 ∧ ∀ byte < 8, init.test (8 * slot + byte) = true := by
  simp [fullSlots]

/-- The entry of a byte of the frame. -/
def entryAt (byte : Nat) : StackSummary := { offset := -512 + Int32.ofNat byte, value := "unknown" }

theorem slotEntry_eq (slot : Nat) : slotEntry slot = entryAt (8 * slot) := by
  rw [slotEntry, entryAt, Int32.ofNat_mul]
  rfl

theorem entryAt_inj {byte other : Nat} (small : byte < 512) (small' : other < 512)
    (same : entryAt byte = entryAt other) : byte = other := by
  have offsets : -512 + Int32.ofNat byte = -512 + Int32.ofNat other := congrArg StackSummary.offset same
  have values := congrArg Int32.toInt ((Int32.add_right_inj (-512)).mp offsets)
  rw [Int32.toInt_ofNat_of_lt (by omega), Int32.toInt_ofNat_of_lt (by omega)] at values
  omega

/-- The entries: one for a full word, at the offset of its number in slots, and one for every written
byte of any other word. -/
theorem mem_formatStack : entry ∈ formatStack init ↔ ∃ i < 8,
    (init.word i = BitVec.allOnes 64 ∧ entry = entryAt (8 * i)) ∨
    (init.word i ≠ BitVec.allOnes 64 ∧ ∃ bit < 64, (init.word i).getLsbD bit = true ∧
      entry = entryAt (64 * i + bit)) := by
  have words : ∀ word i, (word, i) ∈ init.toList.zipIdx ↔ i < 8 ∧ init.word i = word := by
    intro word i
    rw [List.mem_zipIdx_iff_getElem?]
    by_cases inside : i < 8
    · simp [inside, Bitset.word]
    · simp [inside]
  have written : ∀ (word : BitVec 64) i, (entry ∈ if word = BitVec.allOnes 64 then
      [({ offset := -512 + Int32.ofNat i * 8, value := "unknown" } : StackSummary)]
      else if word ≠ 0 then
        ((List.range 64).filter fun bit => word &&& 1#64 <<< bit != 0).map fun bit =>
          { offset := -512 + Int32.ofNat (i * 64 + bit), value := "unknown" }
      else []) ↔ (word = BitVec.allOnes 64 ∧ entry = entryAt (8 * i)) ∨
        (word ≠ BitVec.allOnes 64 ∧ ∃ bit < 64, word.getLsbD bit = true ∧ entry = entryAt (64 * i + bit)) := by
    intro word i
    split
    · rename_i ones
      have place : ({ offset := -512 + Int32.ofNat i * 8, value := "unknown" } : StackSummary) = entryAt (8 * i) := by
        rw [entryAt, Nat.mul_comm 8, Int32.ofNat_mul]
        rfl
      simp [ones, place]
    rename_i mixed
    simp only [mixed, false_and, false_or, not_false_eq_true, true_and, ne_eq]
    split
    · rw [List.mem_map]
      constructor
      · rintro ⟨bit, chosen, rfl⟩
        obtain ⟨short, isSet⟩ := List.mem_filter.mp chosen
        rw [List.mem_range] at short
        rw [Bitset.and_bit word short] at isSet
        exact ⟨bit, short, isSet, by rw [entryAt, Nat.mul_comm i]⟩
      · rintro ⟨bit, short, isSet, rfl⟩
        refine ⟨bit, List.mem_filter.mpr ⟨List.mem_range.mpr short, ?_⟩, by rw [entryAt, Nat.mul_comm i]⟩
        rwa [Bitset.and_bit word short]
    · rename_i none
      rw [not_not] at none
      simp [none]
  simp only [formatStack, List.mem_flatMap, Prod.exists, words]
  constructor
  · rintro ⟨word, i, ⟨inside, rfl⟩, listed⟩
    exact ⟨i, inside, (written _ _).mp listed⟩
  · rintro ⟨i, inside, listed⟩
    exact ⟨_, i, ⟨inside, rfl⟩, (written _ _).mpr listed⟩

/-- The trace lists the full slots only when nothing is written: a full word of eight slots gets one
entry, and in any other word every byte does. -/
theorem formatsSlots_iff : FormatsSlots init ↔ init = .empty := by
  constructor
  · intro formats
    have listed : ∀ entry, entry ∈ formatStack init ↔ ∃ slot ∈ fullSlots init, entry = entryAt (8 * slot) := by
      intro entry
      rw [formats.mem_iff, List.mem_map]
      simp only [slotEntry_eq, eq_comm]
    -- a written byte of a word that is not full is listed, and so is the next byte of its slot
    have whole : ∀ i < 8, init.word i = BitVec.allOnes 64 ∨ init.word i = 0 := by
      intro i inside
      by_contra mixed
      rw [not_or] at mixed
      obtain ⟨bit, short, isSet⟩ : ∃ bit < 64, (init.word i).getLsbD bit = true := by
        by_contra none
        push Not at none
        exact mixed.2 (BitVec.eq_of_getLsbD_eq fun bit short => by simpa using none bit short)
      have slotted : ∀ bit < 64, (init.word i).getLsbD bit = true →
          ∃ slot ∈ fullSlots init, 8 * slot = 64 * i + bit := by
        intro bit short isSet
        obtain ⟨slot, full, same⟩ := (listed _).mp (mem_formatStack.mpr ⟨i, inside, .inr ⟨mixed.1, bit, short, isSet, rfl⟩⟩)
        have small := (mem_fullSlots.mp full).1
        exact ⟨slot, full, (entryAt_inj (by omega) (by omega) same).symm⟩
      obtain ⟨slot, full, place⟩ := slotted bit short isSet
      have next := (mem_fullSlots.mp full).2 1 (by decide)
      have word : (8 * slot + 1) / 64 = i ∧ (8 * slot + 1) % 64 = bit + 1 := by omega
      rw [Bitset.test, word.1, word.2] at next
      obtain ⟨other, _, place'⟩ := slotted (bit + 1) (by omega) next
      omega
    -- so the entries are those of full words, at the first eight slots
    have first : ∀ slot ∈ fullSlots init, slot < 8 ∧ init.word slot = BitVec.allOnes 64 := by
      intro slot full
      have small := (mem_fullSlots.mp full).1
      obtain ⟨i, inside, ⟨ones, same⟩ | ⟨mixed, bit, short, isSet, _⟩⟩ :=
        mem_formatStack.mp ((listed _).mpr ⟨slot, full, rfl⟩)
      · have place := entryAt_inj (by omega) (by omega) same
        have here : slot = i := by omega
        subst here
        exact ⟨inside, ones⟩
      · rcases whole i inside with ones | none
        · exact absurd ones mixed
        · rw [none] at isSet
          simp at isSet
    have last : ∀ i < 8, init.word i = BitVec.allOnes 64 → 8 * i + 7 ∈ fullSlots init := by
      intro i inside ones
      refine mem_fullSlots.mpr ⟨by omega, fun byte short => ?_⟩
      have word : (8 * (8 * i + 7) + byte) / 64 = i := by omega
      rw [Bitset.test, word, ones, BitVec.getLsbD_allOnes]
      simp
      omega
    refine Bitset.ext_word fun i => ?_
    rw [Bitset.word_empty]
    by_cases inside : i < 8
    · rcases whole i inside with ones | none
      · obtain ⟨below, more⟩ := first _ (last i inside ones)
        obtain ⟨below', _⟩ := first _ (last _ below more)
        omega
      · exact none
    · simp [Bitset.word, inside]
  · rintro rfl
    have none : formatStack .empty = [] := by decide
    have full : fullSlots .empty = [] := by decide
    rw [FormatsSlots, none, full]
    exact .nil

/-- After an eight-byte store at `r10 - 8` eight entries are listed for one slot. -/
theorem formatStack_store :
    ¬FormatsSlots ((VerifierState.initialWithMaps []).markStackRange 504 511).stackInit := by
  intro formats
  have lengths := formats.length_eq
  exact absurd lengths (by decide +kernel)

end EbpfLab.Verifier
