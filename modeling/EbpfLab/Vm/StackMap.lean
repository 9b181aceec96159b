import EbpfLab.Library.Cells
import EbpfLab.Library.Mutating
import EbpfLab.Vm.Access

/-!
# The stack as a partial byte map

Over every run of accesses, the stack's bytes and its bitmap together hold the bytes last stored. The
stores are made in place, in the order of their writes, so that an error shows what was written before.
-/

namespace EbpfLab.Interp
open Isa Library

/-! ### Stores in place -/

/-- Copy bytes over those at `i`. -/
def StackMemory.copyBytes (s : StackMemory) (i : Nat) (new : Bytes) (inside : i + new.length ≤ stackSize) :
    StackMemory :=
  { s with
    bytes := overwrite s.bytes i new
    length_bytes := s.length_overwritten inside }

/-- `mark_init`. -/
def StackMemory.markInit (s : StackMemory) (i width : Nat) : StackMemory :=
  { s with initialized := s.initialized.setRange i width }

/-- `StackMemory::store` in place. -/
def StackMemory.storeInPlace (addr : Int64) (size : MemSize) (value : Int64) (alignChecks : Bool) :
    Mutating MemError StackMemory Unit :=
  match found : index addr size with
  | .error e => throw e
  | .ok i => do
    Mutating.check (alignedIf alignChecks addr size)
    modify fun s => s.copyBytes i (leBytes value size.bytes) (value_inside found)
    modify fun s => s.markInit i size.bytes

namespace MemoryView

/-- `scratch_store` in place. -/
def scratchStoreInPlace (addr : Int64) (size : MemSize) (value : Int64) : Mutating MemError MemoryView Unit := do
  let m ← get
  match boundedOffset addr mapScratchBase size.bytes m.mapScratch.length with
  | none => throw (.outOfBounds addr size.bytes)
  | some off =>
    Mutating.check (alignedIf m.alignChecks addr size)
    modify fun m => { m with mapScratch := overwrite m.mapScratch off (leBytes value size.bytes) }

/-- `MemoryView::store` in place. -/
def storeInPlace (addr : Int64) (size : MemSize) (value : Int64) : Mutating MemError MemoryView Unit := do
  match classify addr with
  | .stack =>
    let m ← get
    Mutating.focus MemoryView.stack (fun stack m => { m with stack })
      (StackMemory.storeInPlace addr size value m.alignChecks)
  | .mapScratch => scratchStoreInPlace addr size value
  | .packet | .xdpMd | .rodata | .unknown => throw (.outOfBounds addr size.bytes)

end MemoryView

/-! ### Runs -/

/-- What a guest or its host does to the memory. -/
inductive Access where
  | load (addr : Int64) (size : MemSize)
  | store (addr : Int64) (size : MemSize) (value : Int64)
  | setAlignChecks (enabled : Bool)
  deriving DecidableEq, Repr

/-- The memory after an access, and what the access returns. -/
def MemoryView.perform (m : MemoryView) : Access → MemoryView × Except MemError (Option Int64)
  | .load addr size => (m, (m.load addr size).map some)
  | .store addr size value =>
    let (result, m) := (MemoryView.storeInPlace addr size value).exec m
    (m, result.map fun _ => none)
  | .setAlignChecks enabled => ({ m with alignChecks := enabled }, .ok none)

/-- The memory after a run of accesses. -/
def MemoryView.after (m : MemoryView) (run : List Access) : MemoryView :=
  run.foldl (fun m access => (m.perform access).1) m

/-- The bytes last stored, after one more access. -/
def MemoryView.record (m : MemoryView) (stored : Cells UInt8) : Access → Cells UInt8
  | .store addr size value =>
    match (m.perform (.store addr size value)).2 with
    | .ok _ => stored.write addr.toInt (leDigits size.bytes value.toUInt64.toNat)
    | .error _ => stored
  | _ => stored

/-- The bytes last stored by the accesses of a run that succeed. -/
def MemoryView.lastStored (m : MemoryView) (stored : Cells UInt8) : List Access → Cells UInt8
  | [] => stored
  | access :: run => (m.perform access).1.lastStored (m.record stored access) run

/-- The range of an access is in the stack frame. -/
def InFrame (addr : Int64) (size : MemSize) : Prop :=
  stackBase.toInt - 512 ≤ addr.toInt ∧ addr.toInt + size.bytes ≤ stackBase.toInt

/-- The stack holds the bytes last stored, and knows the others. -/
def StackMemory.Holds (s : StackMemory) (stored : Cells UInt8) : Prop :=
  ∀ i : Nat, i < 512 → stored (0xFE00 + i) = if s.initialized.test i then s.bytes[i]? else none

variable {addr v : Int64} {size : MemSize} {i : Nat} {m m' : MemoryView} {s s' : StackMemory} {checks : Bool}
  {stored : Cells UInt8} {access : Access} {run : List Access}

/-! ### The stores as functions -/

theorem StackMemory.store_refused {e : MemError} (refused : StackMemory.index addr size = .error e) :
    s.store addr size v checks = .error e ∧ (StackMemory.storeInPlace addr size v checks).exec s = (.error e, s) := by
  constructor
  · unfold StackMemory.store
    split
    · rename_i e' same
      cases refused.symm.trans same
      rfl
    · rename_i i found
      cases refused.symm.trans found
  · unfold StackMemory.storeInPlace
    split
    · rename_i e' same
      cases refused.symm.trans same
      rfl
    · rename_i i found
      cases refused.symm.trans found

theorem StackMemory.store_indexed (found : StackMemory.index addr size = .ok i) :
    (s.store addr size v checks = alignedIf checks addr size >>= fun _ =>
      .ok (s.write i (leBytes v size.bytes) (by simpa using StackMemory.index_inside found))) ∧
    (StackMemory.storeInPlace addr size v checks).exec s =
      match alignedIf checks addr size with
      | .ok _ => (.ok (), s.write i (leBytes v size.bytes) (by simpa using StackMemory.index_inside found))
      | .error e => (.error e, s) := by
  constructor
  · unfold StackMemory.store
    split
    · rename_i e refused
      cases found.symm.trans refused
    · rename_i i' same
      cases found.symm.trans same
      rfl
  · unfold StackMemory.storeInPlace
    split
    · rename_i e refused
      cases found.symm.trans refused
    · rename_i i' same
      cases found.symm.trans same
      have marked : (leBytes v size.bytes).length = size.bytes := length_leBytes v size.bytes
      rw [Mutating.exec_check_bind]
      simp only [Mutating.exec_modify_bind, Mutating.exec_modify, StackMemory.write, marked]
      cases alignedIf checks addr size <;> rfl

theorem StackMemory.exec_storeInPlace : (StackMemory.storeInPlace addr size v checks).exec s =
    Mutating.writeOnSuccess ((s.store addr size v checks).map fun s => ((), s)) s := by
  cases placed : StackMemory.index addr size with
  | error e =>
    obtain ⟨stored, inPlace⟩ := @StackMemory.store_refused addr v size s checks e placed
    rw [stored, inPlace]
    rfl
  | ok i =>
    obtain ⟨stored, inPlace⟩ := @StackMemory.store_indexed addr v size i s checks placed
    rw [stored, inPlace]
    cases alignedIf checks addr size <;> rfl

theorem MemoryView.exec_scratchStoreInPlace : (MemoryView.scratchStoreInPlace addr size v).exec m =
    Mutating.writeOnSuccess ((m.scratchStore addr size v).map fun m => ((), m)) m := by
  unfold MemoryView.scratchStoreInPlace MemoryView.scratchStore
  rw [Mutating.exec_get_bind]
  cases boundedOffset addr mapScratchBase size.bytes m.mapScratch.length with
  | none => rfl
  | some off =>
    dsimp only
    rw [Mutating.exec_check_bind]
    cases alignedIf m.alignChecks addr size <;> rfl

/-- The store in place writes only when it succeeds, and then what the store as a function returns. -/
theorem MemoryView.exec_storeInPlace : (MemoryView.storeInPlace addr size v).exec m =
    Mutating.writeOnSuccess ((m.store addr size v).map fun m => ((), m)) m := by
  unfold MemoryView.storeInPlace MemoryView.store
  cases MemoryView.classify addr with
  | stack =>
    dsimp only
    rw [Mutating.exec_get_bind, Mutating.exec_focus, StackMemory.exec_storeInPlace]
    cases m.stack.store addr size v m.alignChecks <;> rfl
  | mapScratch => exact MemoryView.exec_scratchStoreInPlace
  | packet | xdpMd | rodata | unknown => rfl

/-- A store performed is the store as a function. -/
theorem MemoryView.perform_store : m.perform (.store addr size v) =
    match m.store addr size v with
    | .ok m' => (m', .ok none)
    | .error e => (m, .error e) := by
  simp only [MemoryView.perform, MemoryView.exec_storeInPlace]
  cases m.store addr size v <;> rfl

/-- An access that fails leaves the memory. -/
theorem MemoryView.perform_error {e : MemError} (failed : (m.perform access).2 = .error e) :
    (m.perform access).1 = m := by
  cases access with
  | load addr size => rfl
  | setAlignChecks enabled => cases failed
  | store addr size value =>
    rw [MemoryView.perform_store] at failed ⊢
    cases result : m.store addr size value with
    | error e => rfl
    | ok m' =>
      rw [result] at failed
      cases failed

/-! ### Single accesses -/

theorem StackMemory.index_ok_iff :
    StackMemory.index addr size = .ok i ↔ addr.toInt = 0xFE00 + i ∧ i + size.bytes ≤ 512 := by
  refine ⟨fun found => ?_, fun place => StackMemory.index_ok place.1 place.2⟩
  have base : stackLow.toInt = 0xFE00 := by decide
  have width := MemSize.bytes_pos size
  unfold StackMemory.index at found
  split at found
  · cases found
  rename_i off gap
  have distance := checkedI64_eq_some.mp gap
  rw [base] at distance
  split at found
  · cases found
  rename_i inside
  cases found
  omega

theorem alignedIf_ok_iff (low : 0 ≤ addr.toInt) :
    alignedIf checks addr size = .ok () ↔ (checks = true → addr.toInt % size.bytes = 0) := by
  unfold alignedIf
  split
  · rename_i on
    rw [checkAlignment_iff low, forall_prop_of_true on]
  · rename_i off
    exact iff_of_true rfl fun on => absurd on off

/-- A load succeeds in the frame, aligned, where every byte was written. -/
theorem StackMemory.load_ok_iff : s.load addr size checks = .ok v ↔
    ∃ i : Nat, addr.toInt = 0xFE00 + i ∧ i + size.bytes ≤ 512 ∧
      (checks = true → addr.toInt % size.bytes = 0) ∧ s.Written i size.bytes ∧
      v = leValue (slice s.bytes i size.bytes) := by
  have width := MemSize.bytes_pos size
  have written : ∀ i, s.isInit i size.bytes = true ↔ s.Written i size.bytes := fun i =>
    Bitset.testRange_iff _ _ _ (by omega)
  constructor
  · intro loaded
    obtain ⟨i, found, loaded⟩ := bind_eq_ok.mp loaded
    obtain ⟨_, aligned, loaded⟩ := bind_eq_ok.mp loaded
    obtain ⟨place, inside⟩ := index_ok_iff.mp found
    split at loaded
    · rename_i init
      cases loaded
      exact ⟨i, place, inside, (alignedIf_ok_iff (by omega)).mp aligned, (written i).mp init, rfl⟩
    · cases loaded
  · rintro ⟨i, place, inside, aligned, init, rfl⟩
    have checked := (alignedIf_ok_iff (show 0 ≤ addr.toInt by omega)).mpr aligned
    simp only [StackMemory.load, index_ok place inside, ok_bind, checked, (written i).mpr init, if_true]

theorem StackMemory.store_ok (accepted : s.store addr size v checks = .ok s') :
    ∃ (i : Nat) (inside : i + (leBytes v size.bytes).length ≤ stackSize),
      addr.toInt = 0xFE00 + i ∧ s' = s.write i (leBytes v size.bytes) inside := by
  unfold StackMemory.store at accepted
  split at accepted
  · cases accepted
  rename_i i found
  obtain ⟨_, _, accepted⟩ := bind_eq_ok.mp accepted
  cases accepted
  exact ⟨i, _, (index_ok_iff.mp found).1, rfl⟩

theorem classify_scratch (scratch : MemoryView.classify addr = .mapScratch) : 0x10000 < addr.toInt := by
  unfold MemoryView.classify at scratch
  split at scratch
  · cases scratch
  split at scratch
  · cases scratch
  split at scratch
  · cases scratch
  split at scratch
  · rename_i above
    have place := Int64.le_iff_toInt_le.mp above
    have base : mapScratchBase.toInt = 0x30000 := by decide
    omega
  split at scratch <;> cases scratch

/-- A store that succeeds writes the stack, or leaves it and writes above it. -/
theorem MemoryView.store_ok (accepted : m.store addr size v = .ok m') :
    (m.stack.store addr size v m.alignChecks = .ok m'.stack) ∨ (m'.stack = m.stack ∧ 0x10000 < addr.toInt) := by
  unfold MemoryView.store at accepted
  split at accepted
  · obtain ⟨stack, written, accepted⟩ := bind_eq_ok.mp accepted
    cases accepted
    exact .inl written
  · rename_i scratch
    refine .inr ⟨?_, classify_scratch scratch⟩
    unfold MemoryView.scratchStore at accepted
    split at accepted
    · cases accepted
    · obtain ⟨_, _, accepted⟩ := bind_eq_ok.mp accepted
      cases accepted
      rfl
  all_goals cases accepted

/-! ### The byte map is kept -/

theorem StackMemory.default_holds : StackMemory.default.Holds .empty := by
  intro i _
  change none = if (Bitset.empty : Bitset 8).test i then _ else none
  rw [Bitset.test_empty, if_neg Bool.false_ne_true]

theorem StackMemory.write_holds (holds : s.Holds stored) {new : Bytes} (inside : i + new.length ≤ stackSize)
    (short : new.length < 64) (positive : 0 < new.length) : (s.write i new inside).Holds (stored.write (0xFE00 + i) new) := by
  intro k bounded
  have fits : i + new.length ≤ s.bytes.length := s.length_bytes ▸ inside
  have marked : (s.write i new inside).initialized.test k =
      (s.initialized.test k || decide (i ≤ k ∧ k < i + new.length)) :=
    Bitset.test_setRange _ _ _ _ short inside positive
  rw [marked]
  by_cases within : i ≤ k ∧ k < i + new.length
  · have place : (0xFE00 : Int) + k = 0xFE00 + i + (k - i : Nat) := by omega
    rw [decide_eq_true within, Bool.or_true, if_pos rfl, place, Cells.write_inside (by omega)]
    exact (getElem?_overwrite_inside fits within.1 within.2).symm
  · rw [decide_eq_false within, Bool.or_false, Cells.write_outside (by omega), holds k bounded]
    change _ = if _ then (overwrite s.bytes i new)[k]? else none
    rw [getElem?_overwrite fits (by omega)]

/-- One access keeps the byte map. -/
theorem MemoryView.perform_holds (holds : m.stack.Holds stored) (access : Access) :
    (m.perform access).1.stack.Holds (m.record stored access) := by
  cases access with
  | load addr size => exact holds
  | setAlignChecks enabled => exact holds
  | store addr size value =>
    simp only [MemoryView.record, MemoryView.perform_store]
    cases accepted : m.store addr size value with
    | error e => exact holds
    | ok m' =>
      have width := MemSize.bytes_pos size
      dsimp only
      rcases MemoryView.store_ok accepted with written | ⟨same, above⟩
      · obtain ⟨i, inside, place, stack⟩ := StackMemory.store_ok written
        rw [stack, place, ← leBytes_eq value width.2]
        exact StackMemory.write_holds holds inside (by rw [length_leBytes]; omega) (by rw [length_leBytes]; omega)
      · rw [same]
        intro i bounded
        rw [Cells.write_outside (by omega), holds i bounded]

/-- A run keeps the byte map. -/
theorem MemoryView.after_holds (holds : m.stack.Holds stored) (run : List Access) :
    (m.after run).stack.Holds (m.lastStored stored run) := by
  induction run generalizing m stored with
  | nil => exact holds
  | cons access run ih => exact ih (MemoryView.perform_holds holds access)

/-! ### Loads -/

/-- What the byte map reads is what the stack holds. -/
theorem StackMemory.Holds.read_iff (holds : s.Holds stored) (inside : i + size.bytes ≤ 512) {bytes : Bytes} :
    stored.read (0xFE00 + i) size.bytes = some bytes ↔
      s.Written i size.bytes ∧ bytes = slice s.bytes i size.bytes := by
  have length := s.length_bytes
  have full : (slice s.bytes i size.bytes).length = size.bytes := length_slice (by rw [length]; exact inside)
  have cell : ∀ k < size.bytes, stored (0xFE00 + i + k) =
      if s.initialized.test (i + k) then (slice s.bytes i size.bytes)[k]? else none := by
    intro k short
    have place : (0xFE00 : Int) + i + k = 0xFE00 + (i + k : Nat) := by omega
    rw [place, holds (i + k) (by omega), slice, List.getElem?_take_of_lt short, List.getElem?_drop]
  rw [Cells.read_eq_some_iff]
  constructor
  · rintro ⟨width, here⟩
    have written : s.Written i size.bytes := by
      intro k lower upper
      have found := here (k - i) (by omega)
      rw [cell (k - i) (by omega), Nat.add_sub_cancel' lower] at found
      by_contra fresh
      rw [if_neg fresh, List.getElem?_eq_getElem (by omega)] at found
      cases found
    refine ⟨written, List.ext_getElem? fun k => ?_⟩
    by_cases short : k < size.bytes
    · rw [← here k short, cell k short, if_pos (written _ (by omega) (by omega))]
    · rw [List.getElem?_eq_none (by omega), List.getElem?_eq_none (by omega)]
  · rintro ⟨written, rfl⟩
    refine ⟨full, fun k short => ?_⟩
    rw [cell k short, if_pos (written _ (by omega) (by omega))]

/-- Over every run, a stack load succeeds exactly in the frame, aligned where that is checked, where every
byte was stored, and returns the bytes last stored; and what fails changes nothing. -/
theorem stack_refines (m : MemoryView) (run : List Access) :
    (∀ addr size v,
      (MemoryView.classify addr = .stack ∧ (({ m with stack := .default }).after run).load addr size = .ok v) ↔
        InFrame addr size ∧
          ((({ m with stack := .default }).after run).alignChecks = true → addr.toInt % size.bytes = 0) ∧
          ∃ bytes, (({ m with stack := .default }).lastStored .empty run).read addr.toInt size.bytes = some bytes ∧
            v = (UInt64.ofNat (leNat bytes)).toInt64) ∧
    ∀ access e, ((({ m with stack := .default }).after run).perform access).2 = .error e →
      ((({ m with stack := .default }).after run).perform access).1 = ({ m with stack := .default }).after run := by
  have holds := @MemoryView.after_holds { m with stack := .default } .empty StackMemory.default_holds run
  generalize ({ m with stack := .default } : MemoryView).after run = reached at *
  generalize ({ m with stack := .default } : MemoryView).lastStored .empty run = stored at *
  have base : stackBase.toInt = 0x10000 := by decide
  refine ⟨fun addr size v => ?_, fun access e failed => ?_⟩
  · have width := MemSize.bytes_pos size
    constructor
    · rintro ⟨region, loaded⟩
      rw [MemoryView.load, region] at loaded
      obtain ⟨i, place, inside, aligned, written, rfl⟩ := StackMemory.load_ok_iff.mp loaded
      have length : (slice reached.stack.bytes i size.bytes).length = size.bytes :=
        length_slice (by rw [reached.stack.length_bytes]; exact inside)
      refine ⟨⟨by omega, by omega⟩, aligned, slice reached.stack.bytes i size.bytes, ?_, leValue_eq (by omega)⟩
      rw [place]
      exact (holds.read_iff inside).mpr ⟨written, rfl⟩
    · rintro ⟨⟨low, high⟩, aligned, bytes, read, rfl⟩
      obtain ⟨i, place⟩ : ∃ i : Nat, addr.toInt = 0xFE00 + i := ⟨(addr.toInt - 0xFE00).toNat, by omega⟩
      have inside : i + size.bytes ≤ 512 := by omega
      rw [place] at read
      obtain ⟨written, rfl⟩ := (holds.read_iff inside).mp read
      have region : MemoryView.classify addr = .stack := classify_stack (by omega) (by omega)
      have length : (slice reached.stack.bytes i size.bytes).length = size.bytes :=
        length_slice (by rw [reached.stack.length_bytes]; exact inside)
      refine ⟨region, ?_⟩
      rw [MemoryView.load, region, ← leValue_eq (by omega)]
      exact StackMemory.load_ok_iff.mpr ⟨i, place, inside, aligned, written, rfl⟩
  · exact MemoryView.perform_error failed

end EbpfLab.Interp
