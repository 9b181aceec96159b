import EbpfLab.Elf.Program
import EbpfLab.Vm.Access

/-!
# Staged data

`data_table` gives each data section an address, `stage_data` the bytes behind the addresses.
-/

namespace EbpfLab.Elf
open Isa Library Interp

/-- One turn of the loop of `data_table`: the table so far and the next base. -/
def placeSection (acc : Table (Int64 × Nat) × Int64) (s : DataSection) : Table (Int64 × Nat) × Int64 :=
  (acc.1.insert s.name (acc.2, s.bytes.length),
    saturatingI64 (acc.2.toInt + (saturatingI64 s.bytes.length).toInt))

/-- `data_table`. -/
def dataTable (sections : List DataSection) : Table (Int64 × Nat) :=
  (sections.foldl placeSection (fun _ => none, rodataBase)).1

/-- `stage_data`. -/
def stageData (sections : List DataSection) : Bytes := sections.flatMap DataSection.bytes

variable {before after sections : List DataSection} {s : DataSection} {m : MemoryView} {size : MemSize}
  {o : Nat}

/-! ### Addresses -/

theorem placeSection_base {acc : Table (Int64 × Nat) × Int64} (low : 0 ≤ acc.2.toInt)
    (fits : acc.2.toInt + (stageData sections).length < 2 ^ 63) :
    (sections.foldl placeSection acc).2.toInt = acc.2.toInt + (stageData sections).length := by
  induction sections generalizing acc with
  | nil => simp [stageData]
  | cons s sections ih =>
    have split : (stageData (s :: sections)).length = s.bytes.length + (stageData sections).length := by
      simp [stageData]
    rw [split] at fits ⊢
    have next : (placeSection acc s).2.toInt = acc.2.toInt + s.bytes.length := by
      simp only [placeSection, saturatingI64_toInt]
      split <;> split <;> omega
    rw [List.foldl_cons, ih (by omega) (by omega), next]
    omega

theorem placeSection_other {name : String} (acc : Table (Int64 × Nat) × Int64)
    (fresh : name ∉ sections.map DataSection.name) :
    (sections.foldl placeSection acc).1 name = acc.1 name := by
  induction sections generalizing acc with
  | nil => rfl
  | cons s sections ih =>
    obtain ⟨here, later⟩ := List.ne_and_not_mem_of_not_mem_cons fresh
    rw [List.foldl_cons, ih _ later]
    exact if_neg here

/-- A section's base is behind the bytes of the sections before it. -/
theorem dataTable_base (names : ((before ++ s :: after).map DataSection.name).Nodup)
    (short : (stageData (before ++ s :: after)).length < 2 ^ 62) :
    ∃ base : Int64, dataTable (before ++ s :: after) s.name = some (base, s.bytes.length) ∧
      base.toInt = 0x50000 + (stageData before).length := by
  have start : rodataBase.toInt = 0x50000 := by decide
  have split : (stageData (before ++ s :: after)).length =
      (stageData before).length + (stageData (s :: after)).length := by
    simp [stageData]
  rw [List.map_append, List.map_cons] at names
  have fresh := (List.nodup_cons.mp (List.nodup_append.mp names).2.1).1
  refine ⟨(before.foldl placeSection (fun _ => none, rodataBase)).2, ?_, ?_⟩
  · rw [dataTable, List.foldl_append, List.foldl_cons, placeSection_other _ fresh]
    exact if_pos rfl
  · rw [placeSection_base (by rw [start]; decide) (by rw [start]; omega), start]

/-! ### Loads -/

theorem checkAlignment_misaligned {addr : Int64} (low : 0 ≤ addr.toInt) (off : addr.toInt % size.bytes ≠ 0) :
    checkAlignment addr size = .error (.misaligned addr size.bytes size.bytes) := by
  have refused := (not_congr (checkAlignment_iff low)).mpr off
  unfold checkAlignment at refused ⊢
  dsimp only at refused ⊢
  split
  · rfl
  · rename_i admitted
    rw [if_neg admitted] at refused
    exact absurd rfl refused

/-- The bytes a staged section's range holds. -/
theorem slice_stageData (inside : o + size.bytes ≤ s.bytes.length) :
    slice (stageData (before ++ s :: after)) ((stageData before).length + o) size.bytes =
      slice s.bytes o size.bytes := by
  have split : stageData (before ++ s :: after) = stageData before ++ (s.bytes ++ stageData after) := by
    simp [stageData]
  rw [split, slice, ← List.drop_drop, List.drop_left, List.drop_append_of_le_length (by omega),
    List.take_append_of_le_length (by rw [List.length_drop]; omega)]
  rfl

/-- With the table's addresses and the staged bytes, a load at a multiple of its width in a section reads
the section's bytes when the width divides what is staged before the section, and faults otherwise. -/
theorem staged_load (names : ((before ++ s :: after).map DataSection.name).Nodup)
    (short : (stageData (before ++ s :: after)).length < 2 ^ 62)
    (staged : m.rodata = some (stageData (before ++ s :: after))) (checks : m.alignChecks = true) :
    ∃ base : Int64, dataTable (before ++ s :: after) s.name = some (base, s.bytes.length) ∧
      ∀ (size : MemSize) (o : Nat), o % size.bytes = 0 → o + size.bytes ≤ s.bytes.length →
        ((stageData before).length % size.bytes = 0 → m.load (base + Int64.ofNat o) size =
          .ok (UInt64.ofNat (leNat (slice s.bytes o size.bytes))).toInt64) ∧
        ((stageData before).length % size.bytes ≠ 0 → m.load (base + Int64.ofNat o) size =
          .error (.misaligned (base + Int64.ofNat o) size.bytes size.bytes)) := by
  obtain ⟨base, found, place⟩ := dataTable_base names short
  refine ⟨base, found, fun size o whole inside => ?_⟩
  have width := MemSize.bytes_pos size
  have split : (stageData (before ++ s :: after)).length =
      (stageData before).length + (s.bytes.length + (stageData after).length) := by
    simp [stageData]
  have start : rodataBase.toInt = 0x50000 := by decide
  have offset : (Int64.ofNat o).toInt = o := Int64.toInt_ofNat_of_lt (by omega)
  have addr : (base + Int64.ofNat o).toInt = rodataBase.toInt + ((stageData before).length + o : Nat) := by
    rw [toInt_add (by omega) (by omega), place, offset, start]
    omega
  have low : 0 ≤ (base + Int64.ofNat o).toInt := by omega
  have aligned : (base + Int64.ofNat o).toInt % size.bytes = 0 ↔ (stageData before).length % size.bytes = 0 := by
    rw [addr, start]
    cases size <;> simp only [MemSize.bytes] at whole ⊢ <;> omega
  have bounded : boundedOffset (base + Int64.ofNat o) rodataBase size.bytes (stageData (before ++ s :: after)).length =
      some ((stageData before).length + o) :=
    boundedOffset_eq_some (by decide) addr (by omega)
  have region : MemoryView.classify (base + Int64.ofNat o) = .rodata := by
    rw [classify_above (by omega), if_pos (by omega)]
  have loads : m.load (base + Int64.ofNat o) size =
      alignedIf true (base + Int64.ofNat o) size >>= fun _ => .ok (leValue (slice s.bytes o size.bytes)) := by
    rw [MemoryView.load, region]
    simp only [staged, regionLoad, bounded, checks]
    rw [slice_stageData inside]
  constructor
  · intro divides
    rw [loads, alignedIf_ok true low (aligned.mpr divides), ok_bind,
      leValue_eq (by rw [length_slice inside]; exact width.2)]
  · intro odd
    have refused := checkAlignment_misaligned low ((not_congr aligned).mpr odd)
    rw [loads, alignedIf, if_pos rfl, refused]
    rfl

/-- A two-byte section behind one of two bytes: its half-word is read, and a word is not asked for. -/
theorem staged_load_second : ∃ base : Int64,
    dataTable [⟨".rodata", [1, 2]⟩, ⟨".data", [3, 4]⟩] ".data" = some (base, 2) ∧
      (MemoryView.default.setRodata (stageData [⟨".rodata", [1, 2]⟩, ⟨".data", [3, 4]⟩])).load (base + Int64.ofNat 0) .h =
        .ok 0x403 := by
  let before : List DataSection := [⟨".rodata", [1, 2]⟩]
  let s : DataSection := ⟨".data", [3, 4]⟩
  have names : ((before ++ s :: []).map DataSection.name).Nodup := by decide
  have short : (stageData (before ++ s :: [])).length < 2 ^ 62 := by decide
  have staged : (MemoryView.default.setRodata (stageData (before ++ s :: []))).rodata = some _ := rfl
  obtain ⟨base, found, loads⟩ := staged_load names short staged rfl
  exact ⟨base, found, (loads .h 0 (by decide) (by decide)).1 (by decide)⟩

/-- A two-byte load at the start of a section behind one of one byte. -/
theorem staged_load_odd : ¬∀ (sections : List DataSection) (s : DataSection) (base : Int64) (size : MemSize) (o : Nat),
    (sections.map DataSection.name).Nodup → (stageData sections).length < 2 ^ 62 → s ∈ sections →
    dataTable sections s.name = some (base, s.bytes.length) → o % size.bytes = 0 →
    o + size.bytes ≤ s.bytes.length → (MemoryView.default.setRodata (stageData sections)).load (base + Int64.ofNat o) size =
      .ok (UInt64.ofNat (leNat (slice s.bytes o size.bytes))).toInt64 := by
  intro loads
  have read := loads [⟨".rodata", [1]⟩, ⟨".data", [2, 3]⟩] ⟨".data", [2, 3]⟩ 0x50001 .h 0 (by decide) (by decide)
    (by decide) (by decide) (by decide) (by decide)
  exact absurd read (by decide)

end EbpfLab.Elf
