import EbpfLab.Library.Outcome
import EbpfLab.Vm.Exec
import Mathlib.Tactic.ByContra

/-!
# What the map helpers do

A map helper touches its guest pointers, its map and the scratch window only, and fails only when a
guest pointer cannot be read.
-/

namespace EbpfLab.Interp
open Isa Library

variable {regs : Regs} {w w' : World} {r0 : Int64} {e : VmError}

/-- The guest pointers of a map helper, each with the width read through it. -/
def keyPointer (desc : MapDesc) : List (Reg × Nat) := [(2, desc.keySize)]

def keyValuePointers (desc : MapDesc) : List (Reg × Nat) := [(2, desc.keySize), (3, desc.valueSize)]

/-- A guest pointer of the map in `r1` that cannot be read. -/
def PointerFault (pointers : MapDesc → List (Reg × Nat)) (regs : Regs) (w : World) (e : VmError) :
    Prop :=
  ∃ store, w.mapStore (regs 1) = some store ∧ ∃ r size, (r, size) ∈ pointers store.desc ∧
    ∃ m, w.memory.loadBytes (regs r) size = .error m ∧ e = .memory m

theorem readGuestBytes_error {addr : Int64} {len : Nat} (failed : w.readGuestBytes addr len = .error e) :
    ∃ m, w.memory.loadBytes addr len = .error m ∧ e = .memory m := by
  unfold World.readGuestBytes at failed
  cases read : w.memory.loadBytes addr len with
  | ok bytes =>
    rw [read] at failed
    cases failed
  | error m =>
    rw [read] at failed
    cases failed
    exact ⟨m, rfl, rfl⟩

theorem helperMapLookup_error (failed : helperMapLookup regs w = .error e) :
    PointerFault keyPointer regs w e := by
  unfold helperMapLookup at failed
  split at failed
  · cases failed
  · rename_i store found
    rcases bind_eq_error.mp failed with unread | ⟨key, _, failed⟩
    · exact ⟨store, found, 2, _, by simp [keyPointer], readGuestBytes_error unread⟩
    · split at failed <;> cases failed

theorem helperMapUpdate_error (failed : helperMapUpdate regs w = .error e) :
    PointerFault keyValuePointers regs w e := by
  unfold helperMapUpdate at failed
  split at failed
  · cases failed
  · rename_i store found
    rcases bind_eq_error.mp failed with unread | ⟨key, _, failed⟩
    · exact ⟨store, found, 2, _, by simp [keyValuePointers], readGuestBytes_error unread⟩
    · rcases bind_eq_error.mp failed with unread | ⟨value, _, failed⟩
      · exact ⟨store, found, 3, _, by simp [keyValuePointers], readGuestBytes_error unread⟩
      · split at failed <;> cases failed

theorem helperMapDelete_error (failed : helperMapDelete regs w = .error e) :
    PointerFault keyPointer regs w e := by
  unfold helperMapDelete at failed
  split at failed
  · cases failed
  · rename_i store found
    rcases bind_eq_error.mp failed with unread | ⟨key, _, failed⟩
    · exact ⟨store, found, 2, _, by simp [keyPointer], readGuestBytes_error unread⟩
    · split at failed <;> cases failed

/-- The registered map helpers. -/
inductive IsMapHelper : UInt32 → HelperFn → (MapDesc → List (Reg × Nat)) → Prop where
  | lookup : IsMapHelper 1 helperMapLookup keyPointer
  | update : IsMapHelper 2 helperMapUpdate keyValuePointers
  | delete : IsMapHelper 3 helperMapDelete keyPointer

theorem withMapHelpers_eq_some {func : UInt32} {helper : HelperFn}
    (known : HelperRegistry.withMapHelpers func = some helper) :
    ∃ pointers, IsMapHelper func helper pointers := by
  unfold HelperRegistry.withMapHelpers HelperRegistry.insert HelperRegistry.empty at known
  split at known
  · rename_i same
    cases known
    subst same
    exact ⟨_, .delete⟩
  · split at known
    · rename_i same
      cases known
      subst same
      exact ⟨_, .update⟩
    · split at known
      · rename_i same
        cases known
        subst same
        exact ⟨_, .lookup⟩
      · cases known

theorem IsMapHelper.error {func : UInt32} {helper : HelperFn} {pointers : MapDesc → List (Reg × Nat)}
    (mapHelper : IsMapHelper func helper pointers) (failed : helper regs w = .error e) :
    PointerFault pointers regs w e := by
  cases mapHelper with
  | lookup => exact helperMapLookup_error failed
  | update => exact helperMapUpdate_error failed
  | delete => exact helperMapDelete_error failed

/-! ### Successful calls -/

/-- The two worlds have the same maps, whatever their entries. -/
def SameMaps (w w' : World) : Prop :=
  ∀ fd, (w'.mapStore fd).map (·.desc) = (w.mapStore fd).map (·.desc)

theorem setStore_sameMaps {fd : Int64} {store : MapStore} (found : w.mapStore fd = some store)
    (data : StoreData store.desc) : SameMaps w (w.setStore fd ⟨store.desc, data⟩) := by
  intro fd'
  unfold World.mapStore at found
  unfold World.setStore World.mapStore
  cases index : usizeOf fd with
  | none => rfl
  | some i =>
    rw [index, Option.bind_some] at found
    have inside : i < w.maps.length := by
      by_contra outside
      rw [List.getElem?_eq_none (Nat.le_of_not_lt outside)] at found
      cases found
    simp only
    cases usizeOf fd' with
    | none => rfl
    | some j =>
      simp only [Option.bind_some, List.getElem?_set]
      split
      · rename_i same
        subst same
        rw [found]
        rfl
      · rfl

theorem setStore_memory (w : World) (fd : Int64) (store : MapStore) :
    (w.setStore fd store).memory = w.memory := by
  unfold World.setStore
  split <;> rfl

/-- A successful lookup shows the value of a map in the scratch window, or yields null. -/
theorem helperMapLookup_ok (called : helperMapLookup regs w = .ok (r0, w')) :
    SameMaps w w' ∧ (r0 = 0 ∧ w'.memory = w.memory ∨
      ∃ store value, w.mapStore (regs 1) = some store ∧ value.length = store.desc.valueSize ∧
        r0 = mapScratchBase ∧ w'.memory = w.memory.setMapScratch value) := by
  unfold helperMapLookup at called
  split at called
  · cases called
    exact ⟨fun _ => rfl, Or.inl ⟨rfl, rfl⟩⟩
  · rename_i store found
    obtain ⟨key, _, called⟩ := bind_eq_ok.mp called
    split at called
    · cases called
      exact ⟨fun _ => rfl, Or.inl ⟨rfl, rfl⟩⟩
    · rename_i data _
      cases called
      exact ⟨setStore_sameMaps found data, Or.inl ⟨rfl, setStore_memory w _ _⟩⟩
    · rename_i value data _
      cases called
      refine ⟨setStore_sameMaps found data, Or.inr ⟨store, value.val, found, value.property, rfl, ?_⟩⟩
      simp only [setStore_memory]

theorem helperMapUpdate_ok (called : helperMapUpdate regs w = .ok (r0, w')) :
    SameMaps w w' ∧ w'.memory = w.memory := by
  unfold helperMapUpdate at called
  split at called
  · cases called
    exact ⟨fun _ => rfl, rfl⟩
  · rename_i store found
    obtain ⟨key, _, called⟩ := bind_eq_ok.mp called
    obtain ⟨value, _, called⟩ := bind_eq_ok.mp called
    split at called
    · cases called
      exact ⟨fun _ => rfl, rfl⟩
    · rename_i data _
      cases called
      exact ⟨setStore_sameMaps found data, setStore_memory w _ _⟩

theorem helperMapDelete_ok (called : helperMapDelete regs w = .ok (r0, w')) :
    SameMaps w w' ∧ w'.memory = w.memory := by
  unfold helperMapDelete at called
  split at called
  · cases called
    exact ⟨fun _ => rfl, rfl⟩
  · rename_i store found
    obtain ⟨key, _, called⟩ := bind_eq_ok.mp called
    split at called
    · cases called
      exact ⟨fun _ => rfl, rfl⟩
    · rename_i data _
      cases called
      exact ⟨setStore_sameMaps found data, setStore_memory w _ _⟩

/-- The guest pointers of the map in `r1` can be read. -/
def Readable (pointers : MapDesc → List (Reg × Nat)) (regs : Regs) (w : World) : Prop :=
  ∀ store, w.mapStore (regs 1) = some store → ∀ r size, (r, size) ∈ pointers store.desc →
    ∃ bytes, w.memory.loadBytes (regs r) size = .ok bytes

theorem readGuestBytes_ok {addr : Int64} {len : Nat} {bytes : Bytes} :
    w.readGuestBytes addr len = .ok bytes ↔ w.memory.loadBytes addr len = .ok bytes := by
  unfold World.readGuestBytes
  cases w.memory.loadBytes addr len <;> simp [Except.mapError]

/-- A map helper runs exactly when its guest pointers can be read. -/
theorem IsMapHelper.runs_iff {func : UInt32} {helper : HelperFn}
    {pointers : MapDesc → List (Reg × Nat)} (mapHelper : IsMapHelper func helper pointers) :
    (∃ out, helper regs w = .ok out) ↔ Readable pointers regs w := by
  constructor
  · rintro ⟨out, called⟩ store live r size present
    cases mapHelper with
    | lookup =>
      rw [helperMapLookup, live] at called
      obtain ⟨key, read, _⟩ := bind_eq_ok.mp called
      cases List.mem_singleton.mp present
      exact ⟨key, readGuestBytes_ok.mp read⟩
    | update =>
      rw [helperMapUpdate, live] at called
      obtain ⟨key, read, called⟩ := bind_eq_ok.mp called
      obtain ⟨value, second, _⟩ := bind_eq_ok.mp called
      rcases List.mem_cons.mp present with same | later
      · cases same
        exact ⟨key, readGuestBytes_ok.mp read⟩
      · cases List.mem_singleton.mp later
        exact ⟨value, readGuestBytes_ok.mp second⟩
    | delete =>
      rw [helperMapDelete, live] at called
      obtain ⟨key, read, _⟩ := bind_eq_ok.mp called
      cases List.mem_singleton.mp present
      exact ⟨key, readGuestBytes_ok.mp read⟩
  · intro readable
    cases ran : helper regs w with
    | ok out => exact ⟨out, rfl⟩
    | error e =>
      obtain ⟨store, live, r, size, present, m, unread, _⟩ := mapHelper.error ran
      obtain ⟨bytes, read⟩ := readable store live r size present
      rw [read] at unread
      cases unread

end EbpfLab.Interp
