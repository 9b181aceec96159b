import EbpfLab.Library.Mutating
import EbpfLab.Library.Outcome
import EbpfLab.Library.Simulation
import EbpfLab.Vm.Maps

/-!
# Map operations in place

The entry points of a store change it through a mutable reference, and an error leaves behind
whatever was written before it. Here they are written so, in the order of their writes, and are
shown to write only when they succeed.
-/

namespace EbpfLab.Interp
open Isa Library

variable {desc : MapDesc} {α : Type}

/-- A fallible operation on a store in place. -/
abbrev InPlace (desc : MapDesc) := Mutating MapError (StoreData desc)

namespace InPlace
open Mutating

/-- `lru_touch` in place. -/
def touch (key : Bytes) : InPlace desc Unit :=
  modify fun
    | .lruArray data stamps stampOf seq =>
      let (stamps, stampOf, seq) := lruTouch stamps stampOf seq key
      .lruArray data stamps stampOf seq
    | data => data

/-- Drop the least recently touched entry. -/
def evict : InPlace desc Unit :=
  modify fun
    | .lruArray data stamps stampOf seq =>
      match stamps.popFirst with
      | none => .lruArray data stamps stampOf seq
      | some ((_, old), stamps) => .lruArray (data.remove old) stamps (stampOf.remove old) seq
    | data => data

def lookup (key : Bytes) : InPlace desc (Option (Sized desc.valueSize)) := do
  check (checkKey desc.keySize key)
  match ← get with
  | .hash data => return data.get key
  | .array data =>
    let idx ← check (arrayIndex key desc.maxEntries)
    return some (data.get idx)
  | .lruArray data _ _ _ =>
    match data.get key with
    | none => return none
    | some v =>
      touch key
      return some v

def update (key value : Bytes) (flags : Nat) : InPlace desc Unit := do
  let flag ← check (UpdateFlags.tryFrom flags)
  check (checkKey desc.keySize key)
  let value ← check (checkValue desc.valueSize value)
  match ← get with
  | .hash data =>
    let present := (data.get key).isSome
    check (checkUpdateFlags flag present)
    if !present ∧ data.length ≥ desc.maxEntries then
      throw (.full desc.maxEntries)
    set (StoreData.hash (data.insert key value) : StoreData desc)
  | .array data =>
    let idx ← check (arrayIndex key desc.maxEntries)
    if flag = .noExist then
      throw .keyExists
    set (StoreData.array (data.setIfInBounds idx value) : StoreData desc)
  | .lruArray data _ _ _ =>
    let present := (data.get key).isSome
    check (checkUpdateFlags flag present)
    if !present ∧ data.length ≥ desc.maxEntries then
      evict
    touch key
    modify fun
      | .lruArray data stamps stampOf seq => .lruArray (data.insert key value) stamps stampOf seq
      | data => data

def delete (key : Bytes) : InPlace desc Unit := do
  check (checkKey desc.keySize key)
  match ← get with
  | .hash data =>
    set (StoreData.hash (data.remove key) : StoreData desc)
    if (data.get key).isNone then
      throw .keyNotFound
  | .array data =>
    let idx ← check (arrayIndex key desc.maxEntries)
    set (StoreData.array (data.setIfInBounds idx (Sized.zero _)) : StoreData desc)
  | .lruArray data stamps stampOf seq =>
    set (StoreData.lruArray (data.remove key) stamps stampOf seq : StoreData desc)
    if (data.get key).isNone then
      throw .keyNotFound
    set (StoreData.lruArray (data.remove key) (unstamp stamps stampOf key) (stampOf.remove key) seq :
      StoreData desc)

/-! ### The same operations as functions -/

variable {β : Type} {data data' : StoreData desc} {key value : Bytes} {flags : Nat}

theorem exec_lookup : exec (lookup key) data =
    writeOnSuccess (MapStore.lookup ⟨desc, data⟩ key) data := by
  unfold lookup MapStore.lookup
  rw [exec_check_bind]
  cases checkKey desc.keySize key with
  | error e => rfl
  | ok u =>
    simp only [exec_get_bind, ok_bind]
    cases data with
    | hash data => rfl
    | array data =>
      simp only [exec_check_bind]
      cases arrayIndex key desc.maxEntries <;> rfl
    | lruArray data stamps stampOf seq =>
      dsimp only
      cases data.get key <;> rfl

theorem exec_update : exec (update key value flags) data =
    writeOnSuccess ((MapStore.update ⟨desc, data⟩ key value flags).map fun data' => ((), data'))
      data := by
  unfold update MapStore.update
  rw [exec_check_bind]
  cases UpdateFlags.tryFrom flags with
  | error e => rfl
  | ok flag =>
    simp only [exec_check_bind, ok_bind]
    cases checkKey desc.keySize key with
    | error e => rfl
    | ok u =>
      simp only [ok_bind]
      cases checkValue desc.valueSize value with
      | error e => rfl
      | ok value =>
        simp only [exec_get_bind, ok_bind]
        cases data with
        | hash data =>
          simp only [exec_check_bind]
          cases checkUpdateFlags flag (data.get key).isSome with
          | error e => rfl
          | ok u =>
            simp only [ok_bind]
            split <;> rfl
        | array data =>
          simp only [exec_check_bind]
          cases arrayIndex key desc.maxEntries with
          | error e => rfl
          | ok idx =>
            simp only [ok_bind]
            split <;> rfl
        | lruArray data stamps stampOf seq =>
          simp only [exec_check_bind]
          cases checkUpdateFlags flag (data.get key).isSome with
          | error e => rfl
          | ok u =>
            simp only [ok_bind]
            split
            · cases first : stamps.popFirst with
              | none => simp [evict, touch, first, writeOnSuccess, Except.map]
              | some found => simp [evict, touch, first, writeOnSuccess, Except.map]
            · rfl

theorem remove_absent {entries : Entries β} (absent : (entries.get key).isNone = true) :
    entries.remove key = entries := by
  unfold Entries.remove
  rw [List.filter_eq_self]
  intro e present
  simp only [Entries.get, Option.isNone_iff_eq_none, List.lookup_eq_none_iff] at absent
  exact bne_iff_ne.mpr (bne_iff_ne.mp (absent e present)).symm

theorem exec_delete : exec (delete key) data =
    writeOnSuccess ((MapStore.delete ⟨desc, data⟩ key).map fun data' => ((), data')) data := by
  unfold delete MapStore.delete
  rw [exec_check_bind]
  cases checkKey desc.keySize key with
  | error e => rfl
  | ok u =>
    simp only [exec_get_bind, ok_bind]
    cases data with
    | hash data =>
      simp only [exec_set_bind]
      cases held : data.get key with
      | none => simp [writeOnSuccess, Except.map, remove_absent, held]
      | some v => rfl
    | array data =>
      simp only [exec_check_bind]
      cases arrayIndex key desc.maxEntries <;> rfl
    | lruArray data stamps stampOf seq =>
      simp only [exec_set_bind]
      cases held : data.get key with
      | none => simp [writeOnSuccess, Except.map, remove_absent, held]
      | some v => rfl

end InPlace

/-! ### Requests -/

inductive MapOp where
  | lookup (key : Bytes)
  | update (key value : Bytes) (flags : Nat)
  | delete (key : Bytes)

/-- What an operation answers: the value of a lookup hit, or nothing. -/
abbrev MapReply := Except MapError (Option Bytes)

/-- Serve one operation in place. -/
def StoreData.step (data : StoreData desc) : MapOp → MapReply × StoreData desc
  | .lookup key =>
    let (result, data) := (InPlace.lookup key).exec data
    (result.map fun v => v.map Subtype.val, data)
  | .update key value flags =>
    let (result, data) := (InPlace.update key value flags).exec data
    (result.map fun _ => none, data)
  | .delete key =>
    let (result, data) := (InPlace.delete key).exec data
    (result.map fun _ => none, data)

/-- An operation that fails leaves the store as it was. -/
theorem StoreData.step_atomic {data : StoreData desc} {op : MapOp} {e : MapError}
    (failed : (data.step op).1 = .error e) : (data.step op).2 = data := by
  cases op with
  | lookup key =>
    simp only [step, InPlace.exec_lookup] at failed ⊢
    cases result : MapStore.lookup ⟨desc, data⟩ key with
    | error e => rfl
    | ok found => simp [result, Mutating.writeOnSuccess, Except.map] at failed
  | update key value flags =>
    simp only [step, InPlace.exec_update] at failed ⊢
    cases result : MapStore.update ⟨desc, data⟩ key value flags with
    | error e => rfl
    | ok found => simp [result, Mutating.writeOnSuccess, Except.map] at failed
  | delete key =>
    simp only [step, InPlace.exec_delete] at failed ⊢
    cases result : MapStore.delete ⟨desc, data⟩ key with
    | error e => rfl
    | ok found => simp [result, Mutating.writeOnSuccess, Except.map] at failed

end EbpfLab.Interp
