import Mathlib.Data.Option.Basic

/-!
# Partial memories

A memory that is a partial map from addresses to cells, written and read a range at a time.
-/

namespace EbpfLab.Library

variable {α : Type}

/-- A partial map from addresses. -/
abbrev Cells (α : Type) := Int → Option α

namespace Cells

def empty : Cells α := fun _ => none

/-- Write a range of cells. -/
def write (cells : Cells α) (addr : Int) (new : List α) : Cells α := fun k =>
  if addr ≤ k ∧ k < addr + new.length then new[(k - addr).toNat]? else cells k

/-- Read a range of cells, all of which must be there. -/
def read (cells : Cells α) (addr : Int) : Nat → Option (List α)
  | 0 => some []
  | width + 1 => (cells addr).bind fun a => (cells.read (addr + 1) width).map (a :: ·)

variable {cells : Cells α} {addr k : Int} {new values : List α} {width : Nat}

theorem write_inside {i : Nat} (inside : i < new.length) : cells.write addr new (addr + i) = new[i]? := by
  have offset : (addr + i - addr).toNat = i := by omega
  rw [write, if_pos (by omega), offset]

theorem write_outside (outside : k < addr ∨ addr + new.length ≤ k) : cells.write addr new k = cells k :=
  if_neg (by omega)

/-- A range reads as the cells that are there. -/
theorem read_eq_some_iff : cells.read addr width = some values ↔
    values.length = width ∧ ∀ i < width, cells (addr + i) = values[i]? := by
  induction width generalizing addr values with
  | zero =>
    rw [read, Option.some_inj, eq_comm, List.length_eq_zero_iff]
    exact (and_iff_left fun i absent => absurd absent (Nat.not_lt_zero i)).symm
  | succ width ih =>
    have shift : ∀ i : Nat, addr + (i + 1 : Nat) = addr + 1 + i := fun i => by omega
    rw [read, Option.bind_eq_some_iff]
    constructor
    · rintro ⟨a, here, rest⟩
      obtain ⟨tail, read, rfl⟩ := Option.map_eq_some_iff.mp rest
      obtain ⟨length, cells⟩ := ih.mp read
      refine ⟨by rw [List.length_cons, length], fun i inside => ?_⟩
      cases i with
      | zero => simpa using here
      | succ i =>
        rw [shift, cells i (by omega)]
        rfl
    · rintro ⟨length, here⟩
      cases values with
      | nil => cases length
      | cons a tail =>
        have first := here 0 (by omega)
        rw [Int.ofNat_zero, Int.add_zero] at first
        refine ⟨a, first, ?_⟩
        rw [ih.mpr ⟨Nat.succ_inj.mp length, fun i inside => ?_⟩]
        · rfl
        · rw [← shift, here (i + 1) (by omega)]
          rfl

end Cells

end EbpfLab.Library
