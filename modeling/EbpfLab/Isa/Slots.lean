import Mathlib.Data.List.Basic
import EbpfLab.Isa.Insn

/-!
# Slots

Jump offsets count 8-byte slots while a wide load is one decoded instruction, so the loader of the
interpreter and the graph builder each number the slots and invert the numbering.
-/

namespace EbpfLab.Isa

/-- Slot width of one decoded instruction. -/
def slotWidth : Insn → Nat
  | .loadImm64 .. => 2
  | _ => 1

/-- Slot number of each instruction, counting from `slot`. -/
def slotsFrom (slot : Nat) : List Insn → List Nat
  | [] => []
  | insn :: rest => slot :: slotsFrom (slot + slotWidth insn) rest

/-- Slots a program occupies. -/
def slotCount (insns : List Insn) : Nat := (insns.map slotWidth).sum

/-- A table over slots: `unset` everywhere, then `mark i` at the slot of each instruction `i`. -/
def slotTable {α : Type} (unset : α) (mark : Nat → α) (insns : List Insn) : List α :=
  ((slotsFrom 0 insns).zipIdx).foldl (fun table (slot, i) => table.set slot (mark i))
    (List.replicate (slotCount insns) unset)

theorem slotWidth_pos (insn : Insn) : 0 < slotWidth insn := by
  cases insn <;> simp [slotWidth]

@[simp] theorem length_slotsFrom (insns : List Insn) (slot : Nat) :
    (slotsFrom slot insns).length = insns.length := by
  induction insns generalizing slot with
  | nil => rfl
  | cons insn rest ih => simp [slotsFrom, ih]

theorem slotsFrom_lower {insns : List Insn} {slot s : Nat} (present : s ∈ slotsFrom slot insns) :
    slot ≤ s := by
  induction insns generalizing slot with
  | nil => cases present
  | cons insn rest ih =>
    rcases List.mem_cons.mp present with rfl | later
    · exact Nat.le_refl _
    · exact Nat.le_trans (Nat.le_add_right _ _) (ih later)

theorem slotsFrom_upper {insns : List Insn} {slot s : Nat} (present : s ∈ slotsFrom slot insns) :
    s < slot + slotCount insns := by
  induction insns generalizing slot with
  | nil => cases present
  | cons insn rest ih =>
    have wide := slotWidth_pos insn
    simp only [slotCount, List.map_cons, List.sum_cons]
    rcases List.mem_cons.mp present with rfl | later
    · omega
    · have := ih later
      simp only [slotCount] at this
      omega

theorem slotsFrom_nodup (insns : List Insn) (slot : Nat) : (slotsFrom slot insns).Nodup := by
  induction insns generalizing slot with
  | nil => exact List.nodup_nil
  | cons insn rest ih =>
    refine List.nodup_cons.mpr ⟨fun again => ?_, ih _⟩
    have lower := slotsFrom_lower again
    have wide := slotWidth_pos insn
    omega

/-- Successive writes at distinct places leave each place with the one value written there. -/
theorem foldl_set_getElem? {α : Type} (mark : Nat → α) (slots : List Nat) (k : Nat)
    (table : List α) (distinct : slots.Nodup) (slot : Nat) :
    ((slots.zipIdx k).foldl (fun table (s, i) => table.set s (mark i)) table)[slot]? =
      if slot < table.length then
        (if slot ∈ slots then some (mark (k + slots.idxOf slot)) else table[slot]?)
      else none := by
  induction slots generalizing k table with
  | nil => simp
  | cons s rest ih =>
    obtain ⟨fresh, distinct⟩ := List.nodup_cons.mp distinct
    simp only [List.zipIdx_cons, List.foldl_cons, ih _ _ distinct, List.length_set, List.mem_cons]
    by_cases inside : slot < table.length
    · simp only [inside, if_true]
      by_cases here : slot = s
      · subst here
        simp [fresh, inside]
      · by_cases later : slot ∈ rest
        · have other : (s == slot) = false := by simp [Ne.symm here]
          simp [later, List.idxOf_cons, other, Nat.add_assoc, Nat.add_comm 1]
        · simp [here, later, Ne.symm here]
    · simp [inside]

/-- The table holds `mark i` at the slot of instruction `i` and `unset` at every other slot. -/
theorem slotTable_getElem? {α : Type} (unset : α) (mark : Nat → α) (insns : List Insn)
    (slot : Nat) :
    (slotTable unset mark insns)[slot]? =
      if slot < slotCount insns then
        (if slot ∈ slotsFrom 0 insns then some (mark ((slotsFrom 0 insns).idxOf slot))
        else some unset)
      else none := by
  rw [slotTable, foldl_set_getElem? mark _ 0 _ (slotsFrom_nodup insns 0)]
  by_cases inside : slot < slotCount insns <;> simp [inside]

/-! ### Jumps -/

/-- The jump at instruction `i` lands on instruction `j`: the slot it names is where `j` starts. -/
def JumpsTo (insns : List Insn) (i : Nat) (offset : Int16) (j : Nat) : Prop :=
  ∃ s t, (slotsFrom 0 insns)[i]? = some s ∧ (slotsFrom 0 insns)[j]? = some t ∧
    (t : Int) = s + 1 + offset.toInt

theorem JumpsTo.target_lt {insns : List Insn} {i j : Nat} {offset : Int16}
    (jump : JumpsTo insns i offset j) : j < insns.length := by
  obtain ⟨_, _, _, target, _⟩ := jump
  simpa using (List.getElem?_eq_some_iff.mp target).1

theorem JumpsTo.unique {insns : List Insn} {i j k : Nat} {offset : Int16}
    (first : JumpsTo insns i offset j) (second : JumpsTo insns i offset k) : j = k := by
  obtain ⟨s, t, source, target, same⟩ := first
  obtain ⟨s', t', source', target', same'⟩ := second
  have sources : s = s' := by simpa [source] using source'
  subst sources
  have targets : t = t' := by omega
  subst targets
  have inside := (List.getElem?_eq_some_iff.mp target).1
  exact (List.getElem?_inj inside (slotsFrom_nodup insns 0)).mp (target.trans target'.symm)

/-- Each instruction takes at least one slot, so slots run ahead of instruction numbers. -/
theorem index_le_slot {insns : List Insn} {slot i s : Nat}
    (found : (slotsFrom slot insns)[i]? = some s) : slot + i ≤ s := by
  induction insns generalizing slot i with
  | nil => simp [slotsFrom] at found
  | cons insn rest ih =>
    have wide := slotWidth_pos insn
    cases i with
    | zero =>
      have here : slot = s := by simpa [slotsFrom] using found
      omega
    | succ i =>
      have read : (slotsFrom (slot + slotWidth insn) rest)[i]? = some s := by
        simpa [slotsFrom] using found
      have later := ih read
      omega

theorem JumpsTo.target_lt_slotCount {insns : List Insn} {i j : Nat} {offset : Int16}
    (jump : JumpsTo insns i offset j) : j < slotCount insns := by
  obtain ⟨_, t, _, target, _⟩ := jump
  have ahead := index_le_slot target
  have upper := slotsFrom_upper (List.mem_of_getElem? target)
  omega

/-- Reading a slot table at the slot a jump names. -/
theorem slotTable_eq_some_iff {α : Type} (unset : α) (mark : Nat → α) {insns : List Insn}
    {j : Nat} {t : Nat} (injective : ∀ a b, mark a = mark b → a = b) (fresh : ∀ a, mark a ≠ unset) :
    (slotTable unset mark insns)[t]? = some (mark j) ↔ (slotsFrom 0 insns)[j]? = some t := by
  rw [slotTable_getElem?]
  constructor
  · intro read
    split at read
    · split at read
      · rename_i present
        have same := injective _ _ (Option.some.inj read)
        rw [← same]
        exact List.getElem?_idxOf present
      · exact absurd (Option.some.inj read).symm (fresh j)
    · cases read
  · intro found
    have present := List.mem_of_getElem? found
    have inside : t < slotCount insns := by simpa using slotsFrom_upper present
    have position : (slotsFrom 0 insns).idxOf t = j := by
      have here := List.getElem?_idxOf present
      exact (List.getElem?_inj (by simpa using List.idxOf_lt_length_iff.mpr present)
        (slotsFrom_nodup insns 0)).mp (here.trans found.symm)
    simp [inside, present, position]

end EbpfLab.Isa
