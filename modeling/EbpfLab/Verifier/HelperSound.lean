import EbpfLab.Verifier.CallSound
import Mathlib.Tactic.FinCases

/-!
# Signatures against helpers

The signature of a map helper checks the pointers of an exact descriptor and takes every update and
deletion for a success. With any other scalar it checks nothing.
-/

namespace EbpfLab.Verifier
open Isa FlowGraph Interp Library

variable {s : VerifierState} {u : Vm} {t : RegType} {pc : Nat} {func : UInt32} {fd : Int64}
  {helper : HelperFn} {effect : HelperSignature} {pointers : MapDesc → List (Reg × Nat)}

/-! ### What a state says of a machine about to call -/

/-- The scratch window shows a value of the map the state knows under `fd`. -/
def Shows (s : VerifierState) (scratch : Bytes) (fd : Int64) : Prop :=
  ∃ desc, mapDesc s fd = some desc ∧ scratch.length = desc.valueSize

/-- Registers hold their types, written stack bytes were written, and the stores, whatever their
entries, are those of the descriptors the state knows. -/
structure DescribesCall (s : VerifierState) (u : Vm) : Prop where
  regs : ∀ r, Holds (Shows s u.memory.mapScratch) r (u.regs r) (s.reg r)
  stack : ∀ k, s.stackInit.test k = true → u.memory.stack.initialized.test k = true
  stores : ∀ fd, (u.mapStore fd).map (·.desc) = mapDesc s fd

/-- The helper returns, with a value of the type in `r0`. -/
def ReturnsAs (helper : HelperFn) (s : VerifierState) (u : Vm) (t : RegType) : Prop :=
  ∃ r0 w, helper u.regs u.toWorld = .ok (r0, w) ∧ Holds (Shows s w.memory.mapScratch) 0 r0 t

/-- What a map call needs that its signature does not check: readable pointers to the map an inexact
descriptor names, and a store that serves the update or the deletion. -/
structure CallFits (s : VerifierState) (u : Vm) (func : UInt32) : Prop where
  inexact : (∀ fd, s.reg 1 ≠ .scalar (.exact fd)) → ∀ store, u.mapStore (u.regs 1) = some store →
    (∃ key, u.memory.loadBytes (u.regs 2) store.desc.keySize = .ok key) ∧
      (func = 2 → ∃ value, u.memory.loadBytes (u.regs 3) store.desc.valueSize = .ok value)
  serves : ∀ fd, s.reg 1 = .scalar (.exact fd) → ∀ store key, u.mapStore fd = some store →
    u.memory.loadBytes (u.regs 2) store.desc.keySize = .ok key →
      (func = 2 → store.TakesUpdate key (flagsOf (u.regs 4))) ∧
        (func = 3 → store.hasKey key = true)

/-! ### The three helpers -/

/-- A known map's lookup leaves null or a pointer to a value of the map. -/
theorem helperMapLookup_answer {w : World} {r0 : Int64} {store : MapStore}
    (live : u.mapStore (u.regs 1) = some store) (known : mapDesc s (u.regs 1) = some store.desc)
    (called : helperMapLookup u.regs u.toWorld = .ok (r0, w)) :
    Holds (Shows s w.memory.mapScratch) 0 r0 (.maybeMapPtr (u.regs 1)) := by
  obtain ⟨_, missed | ⟨store', value, live', length, shown, memory⟩⟩ := helperMapLookup_ok called
  · exact ⟨rfl, Or.inl missed.1⟩
  · have live' : u.mapStore (u.regs 1) = some store' := live'
    rw [live, Option.some.injEq] at live'
    subst live'
    exact ⟨rfl, Or.inr ⟨shown, store.desc, known, by rw [memory]; exact length⟩⟩

/-! ### The signatures -/

/-- A signature that does not know the descriptor promises nothing. -/
theorem mapHelperEffect_inexact {result : Int64 → RegType} (inexact : ∀ fd, s.reg 1 ≠ .scalar (.exact fd))
    (passed : mapHelperEffect pointers result s pc = .ok t) : t = .scalar .top := by
  obtain ⟨known, found, passed⟩ := bind_eq_ok.mp passed
  cases known with
  | none =>
    cases passed
    rfl
  | some fd => exact absurd (mapFd_eq_some.mp found) (inexact fd)

/-- What a signature checked of the map it knows. -/
theorem mapHelperEffect_exact {result : Int64 → RegType} (describes : DescribesCall s u)
    (exact_fd : s.reg 1 = .scalar (.exact fd))
    (passed : mapHelperEffect pointers result s pc = .ok t) :
    u.regs 1 = fd ∧ t = result fd ∧ (∃ store, u.mapStore fd = some store ∧
      mapDesc s fd = some store.desc) ∧ Readable pointers u.regs u.toWorld := by
  obtain ⟨known, found, passed⟩ := bind_eq_ok.mp passed
  rw [mapFd_eq_some.mpr exact_fd] at found
  cases found
  simp only at passed
  split at passed
  · cases passed
  · rename_i desc described
    obtain ⟨_, checked, passed⟩ := bind_eq_ok.mp passed
    cases passed
    have value := describes.regs 1
    rw [exact_fd] at value
    have value : u.regs 1 = fd := Range.contains_exact.mp value
    obtain ⟨store, live, rfl⟩ := Option.map_eq_some_iff.mp ((describes.stores fd).trans described)
    refine ⟨value, rfl, ⟨store, live, described⟩, fun store' live' r size present => ?_⟩
    have live' : u.mapStore (u.regs 1) = some store' := live'
    rw [value, live, Option.some.injEq] at live'
    subst live'
    exact checkMapPtr_reads (describes.regs r) describes.stack (forM_eq_ok checked (r, size) present)

/-- The pointers of a map helper, written out. -/
theorem IsMapHelper.readable_iff (mapHelper : IsMapHelper func helper pointers) :
    Readable pointers u.regs u.toWorld ↔ ∀ store, u.mapStore (u.regs 1) = some store →
      (∃ key, u.memory.loadBytes (u.regs 2) store.desc.keySize = .ok key) ∧
        (func = 2 → ∃ value, u.memory.loadBytes (u.regs 3) store.desc.valueSize = .ok value) := by
  refine forall_congr' fun store => imp_congr Iff.rfl ?_
  cases mapHelper <;> simp [keyPointer, keyValuePointers, or_imp, forall_and]

theorem returnsAs_iff {r0 : Int64} {w : World} (called : helper u.regs u.toWorld = .ok (r0, w)) :
    ReturnsAs helper s u t ↔ Holds (Shows s w.memory.mapScratch) 0 r0 t := by
  constructor
  · rintro ⟨r0', w', called', held⟩
    rw [called] at called'
    cases called'
    exact held
  · intro held
    exact ⟨r0, w, called, held⟩

/-- With an exact descriptor only the answer of the store is left. -/
theorem callFits_exact {store : MapStore} {key : Bytes} (exact_fd : s.reg 1 = .scalar (.exact fd))
    (live : u.mapStore fd = some store)
    (read : u.memory.loadBytes (u.regs 2) store.desc.keySize = .ok key) :
    CallFits s u func ↔ (func = 2 → store.TakesUpdate key (flagsOf (u.regs 4))) ∧
      (func = 3 → store.hasKey key = true) := by
  constructor
  · intro fits
    exact fits.serves fd exact_fd store key live read
  · intro served
    refine ⟨fun inexact => absurd exact_fd (inexact fd), fun fd' exact_fd' store' key' live' read' => ?_⟩
    rw [exact_fd] at exact_fd'
    cases exact_fd'
    rw [live] at live'
    cases live'
    rw [read] at read'
    cases read'
    exact served

/-- The signature of a map helper is sound for a machine its state describes exactly when the call
fits. -/
theorem helper_sound_iff (known : builtInHelper func = some effect)
    (registered : HelperRegistry.withMapHelpers func = some helper) (describes : DescribesCall s u)
    (passed : effect s pc = .ok t) : ReturnsAs helper s u t ↔ CallFits s u func := by
  obtain ⟨pointers, mapHelper⟩ := withMapHelpers_eq_some registered
  obtain ⟨_, result, rfl, kind⟩ := IsMapHelper.signature mapHelper known
  by_cases named : ∃ fd, s.reg 1 = .scalar (.exact fd)
  · obtain ⟨fd, exact_fd⟩ := named
    obtain ⟨rfl, rfl, ⟨store, live, described⟩, readable⟩ :=
      mapHelperEffect_exact describes exact_fd passed
    obtain ⟨⟨r0, w⟩, called⟩ := mapHelper.runs_iff.mpr readable
    obtain ⟨⟨key, read⟩, _⟩ := (IsMapHelper.readable_iff mapHelper).mp readable store live
    rw [returnsAs_iff called, callFits_exact exact_fd live read]
    cases mapHelper with
    | lookup =>
      obtain ⟨_, rfl⟩ := kind.resolve_right fun other => absurd other.1 (by decide)
      exact iff_of_true (helperMapLookup_answer live described called) ⟨nofun, nofun⟩
    | update =>
      obtain ⟨_, rfl⟩ := kind.resolve_left fun other => absurd other.1 (by decide)
      refine Range.contains_exact.trans ((helperMapUpdate_answer live read called).trans ?_)
      exact ⟨fun takes => ⟨fun _ => takes, nofun⟩, fun both => both.1 rfl⟩
    | delete =>
      obtain ⟨_, rfl⟩ := kind.resolve_left fun other => absurd other.1 (by decide)
      refine Range.contains_exact.trans ((helperMapDelete_answer live read called).trans ?_)
      exact ⟨fun held => ⟨nofun, fun _ => held⟩, fun both => both.2 rfl⟩
  · have inexact : ∀ fd, s.reg 1 ≠ .scalar (.exact fd) := fun fd same => named ⟨fd, same⟩
    cases mapHelperEffect_inexact inexact passed
    have unserved : ∀ fd, s.reg 1 = .scalar (.exact fd) → ∀ store key, u.mapStore fd = some store →
        u.memory.loadBytes (u.regs 2) store.desc.keySize = .ok key →
          (func = 2 → store.TakesUpdate key (flagsOf (u.regs 4))) ∧
            (func = 3 → store.hasKey key = true) := fun fd same => absurd same (inexact fd)
    constructor
    · rintro ⟨r0, w, called, _⟩
      have readable := mapHelper.runs_iff.mp ⟨_, called⟩
      exact ⟨fun _ => (IsMapHelper.readable_iff mapHelper).mp readable, unserved⟩
    · intro fits
      have readable := (IsMapHelper.readable_iff mapHelper).mpr (fits.inexact inexact)
      obtain ⟨⟨r0, w⟩, called⟩ := mapHelper.runs_iff.mpr readable
      exact ⟨r0, w, called, trivial⟩

/-! ### Two machines -/

/-- Stores of the descriptors in a table, by their index. -/
theorem mapStore_desc {w : World} (same : w.maps.map (Option.map (·.desc)) = s.maps) (fd : Int64) :
    (w.mapStore fd).map (·.desc) = mapDesc s fd := by
  unfold World.mapStore mapDesc
  cases usizeOf fd with
  | none => rfl
  | some i =>
    rw [Option.bind_some, Option.bind_some, ← same, List.getElem?_map]
    cases w.maps[i]? <;> rfl

/-- Any scalar may be the descriptor. -/
def looseState : VerifierState := (VerifierState.initialWithMaps [none, some tinyHash]).setReg 1 (.scalar .top)

/-- The descriptor names a map, and `r2` points nowhere. -/
def looseVm : Vm :=
  { Vm.newWithStores [] [none, some ⟨tinyHash, .hash []⟩] with
    regs := Regs.zeroedWithFramePointer.write 1 1 }

theorem looseVm_described : DescribesCall looseState looseVm := by
  refine ⟨fun r => ?_, fun k init => ?_, mapStore_desc rfl⟩
  · fin_cases r <;> trivial
  · cases (Bitset.test_empty k).symm.trans init

/-- The descriptor of the one map, with a key on the stack. -/
def keyedState : VerifierState :=
  (((VerifierState.initialWithMaps [none, some tinyHash]).setReg 1 (.scalar (.exact 1))).setReg 2
    (.stackPtr (-1))).markStackRange 511 511

/-- The map is empty. -/
def keyedVm : Vm :=
  { Vm.newWithStores [] [none, some ⟨tinyHash, .hash []⟩] with
    regs := (Regs.zeroedWithFramePointer.write 1 1).write 2 0xFFFF
    memory := { MemoryView.default with stack := StackMemory.default.write 511 [7] (by decide) } }

theorem keyedVm_described : DescribesCall keyedState keyedVm := by
  refine ⟨fun r => ?_, fun k init => ?_, mapStore_desc rfl⟩
  · fin_cases r <;> trivial
  · unfold keyedState at init
    rw [test_markStackRange _ (by decide)] at init
    have place : k = 511 := by
      rcases Bool.or_eq_true_iff.mp init with empty | here
      · cases (Bitset.test_empty k).symm.trans empty
      · have here := of_decide_eq_true here
        omega
    subst place
    decide

set_option maxRecDepth 4000 in
/-- A lookup faults on a pointer its signature did not check, and a deletion fails that its signature
takes for a success. -/
theorem helpers_unsound :
    (DescribesCall looseState looseVm ∧ mapLookup looseState 0 = .ok (.scalar .top) ∧
      helperMapLookup looseVm.regs looseVm.toWorld = .error (.memory (.outOfBounds 0 1))) ∧
    (DescribesCall keyedState keyedVm ∧ mapDelete keyedState 0 = .ok (.scalar (.exact 0)) ∧
      helperMapDelete keyedVm.regs keyedVm.toWorld = .ok (-1, keyedVm.toWorld)) := by
  refine ⟨⟨looseVm_described, by decide, rfl⟩, keyedVm_described, by decide, rfl⟩

theorem helper_sound_iff_keyed :
    ReturnsAs helperMapDelete keyedState keyedVm (.scalar (.exact 0)) ↔ CallFits keyedState keyedVm 3 :=
  helper_sound_iff rfl rfl keyedVm_described (show mapDelete keyedState 0 = _ by decide)

end EbpfLab.Verifier
