import EbpfLab.Vm.Bulk
import EbpfLab.Vm.Helpers
import EbpfLab.Vm.MapRefine

/-!
# Requests a store serves

When an update or a deletion succeeds, told from the request and the entries, and what the map helpers
answer then.
-/

namespace EbpfLab.Interp
open Isa Library

/-! ### Requests a store serves -/

namespace MapStore

variable {store : MapStore} {key value : Bytes} {flags : Nat}

/-- The key is bound, or spells an index of the array. -/
def hasKey (store : MapStore) (key : Bytes) : Bool :=
  match store.data with
  | .hash data => (data.get key).isSome
  | .array _ => (arrayIndex key store.desc.maxEntries).isOk
  | .lruArray data _ _ _ => (data.get key).isSome

/-- A fresh key finds a place. -/
def hasRoom (store : MapStore) : Bool :=
  match store.data with
  | .hash data => data.length < store.desc.maxEntries
  | .array _ => false
  | .lruArray _ _ _ _ => true

/-- The flags allow an update of the key and the store has a place for it. -/
def TakesUpdate (store : MapStore) (key : Bytes) (flags : Nat) : Prop :=
  flags ≤ 2 ∧ (flags = 1 → store.hasKey key = false) ∧ (flags = 2 → store.hasKey key = true) ∧
    (store.hasKey key = true ∨ store.hasRoom = true)

theorem flags_served {α : Type} {flag : UpdateFlags} {present : Bool} {rest : Except MapError α}
    (noExist : flag = .noExist ↔ flags = 1) (exist : flag = .exist ↔ flags = 2) :
    (∃ data, (checkUpdateFlags flag present >>= fun _ => rest) = .ok data) ↔
      (flags = 1 → present = false) ∧ (flags = 2 → present = true) ∧ ∃ data, rest = .ok data := by
  rw [← noExist, ← exist]
  cases flag <;> cases present <;> simp [checkUpdateFlags, bind, Except.bind]

theorem unserved {α ε : Type} {e : ε} : ¬∃ data, (.error e : Except ε α) = .ok data := by
  rintro ⟨data, served⟩
  cases served

theorem served_if {α ε : Type} {c : Prop} [Decidable c] {out : α} {e : ε} :
    (∃ data, (if c then .ok out else .error e : Except ε α) = .ok data) ↔ c := by
  split
  · rename_i holds
    exact iff_of_true ⟨out, rfl⟩ holds
  · rename_i fails
    exact iff_of_false unserved fails

theorem update_serves (fits : key.length = store.desc.keySize)
    (sized : value.length = store.desc.valueSize) :
    (∃ data, store.update key value flags = .ok data) ↔ store.TakesUpdate key flags := by
  unfold update TakesUpdate hasKey hasRoom
  by_cases unknown : 2 < flags
  · rw [tryFrom_unknown unknown]
    exact iff_of_false unserved fun takes => absurd takes.1 (by omega)
  obtain ⟨flag, known, noExist, exist⟩ := tryFrom_known unknown
  have small : flags ≤ 2 := by omega
  simp only [known, ok_bind, checkKey, checkValue, fits, sized, if_true, dif_pos, small, true_and]
  cases store.data with
  | hash entries =>
    simp only []
    rw [flags_served noExist exist]
    refine and_congr Iff.rfl (and_congr Iff.rfl ?_)
    rw [throw_bind, ← ite_not, served_if]
    cases (entries.get key).isSome <;> simp
  | array slots =>
    simp only []
    cases arrayIndex key store.desc.maxEntries with
    | error e =>
      refine iff_of_false unserved fun takes => ?_
      rcases takes.2.2 with inside | room <;> contradiction
    | ok i =>
      simp only [ok_bind, throw_bind]
      rw [← ite_not, served_if, noExist]
      simp [Except.isOk, Except.toBool]
  | lruArray entries stamps stampOf seq =>
    simp only []
    rw [flags_served noExist exist]
    exact and_congr Iff.rfl (and_congr Iff.rfl (iff_of_true ⟨_, rfl⟩ (Or.inr trivial)))

theorem delete_serves (fits : key.length = store.desc.keySize) :
    (∃ data, store.delete key = .ok data) ↔ store.hasKey key = true := by
  unfold delete hasKey
  simp only [checkKey, fits, if_true, ok_bind]
  cases store.data with
  | hash entries => exact served_if
  | array slots =>
    simp only []
    cases arrayIndex key store.desc.maxEntries with
    | ok i => exact iff_of_true ⟨_, rfl⟩ rfl
    | error e => exact iff_of_false unserved Bool.false_ne_true
  | lruArray entries stamps stampOf seq =>
    simp only []
    cases entries.get key with
    | none => exact iff_of_false unserved Bool.false_ne_true
    | some v => exact iff_of_true ⟨_, rfl⟩ rfl

end MapStore

/-! ### Answers of the helpers -/

/-- The answer of a running update. -/
theorem helperMapUpdate_answer {regs : Regs} {w w' : World} {r0 : Int64} {store : MapStore} {key : Bytes}
    (live : w.mapStore (regs 1) = some store)
    (read : w.memory.loadBytes (regs 2) store.desc.keySize = .ok key)
    (called : helperMapUpdate regs w = .ok (r0, w')) :
    r0 = 0 ↔ store.TakesUpdate key (flagsOf (regs 4)) := by
  rw [helperMapUpdate, live] at called
  obtain ⟨key', first, called⟩ := bind_eq_ok.mp called
  obtain ⟨value, second, called⟩ := bind_eq_ok.mp called
  have same := read.symm.trans (readGuestBytes_ok.mp first)
  cases same
  rw [← MapStore.update_serves (loadBytes_length read) (loadBytes_length (readGuestBytes_ok.mp second))]
  cases served : store.update key value (flagsOf (regs 4)) with
  | error e =>
    rw [served] at called
    cases called
    exact iff_of_false (by decide) MapStore.unserved
  | ok data =>
    rw [served] at called
    cases called
    exact iff_of_true rfl ⟨data, rfl⟩

/-- The answer of a running deletion. -/
theorem helperMapDelete_answer {regs : Regs} {w w' : World} {r0 : Int64} {store : MapStore} {key : Bytes}
    (live : w.mapStore (regs 1) = some store)
    (read : w.memory.loadBytes (regs 2) store.desc.keySize = .ok key)
    (called : helperMapDelete regs w = .ok (r0, w')) : r0 = 0 ↔ store.hasKey key = true := by
  rw [helperMapDelete, live] at called
  obtain ⟨key', first, called⟩ := bind_eq_ok.mp called
  have same := read.symm.trans (readGuestBytes_ok.mp first)
  cases same
  rw [← MapStore.delete_serves (loadBytes_length read)]
  cases served : store.delete key with
  | error e =>
    rw [served] at called
    cases called
    exact iff_of_false (by decide) MapStore.unserved
  | ok data =>
    rw [served] at called
    cases called
    exact iff_of_true rfl ⟨data, rfl⟩

end EbpfLab.Interp
