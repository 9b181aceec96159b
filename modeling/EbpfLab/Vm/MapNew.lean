import EbpfLab.Library.Outcome
import EbpfLab.Vm.Maps

/-!
# Building a store

What a descriptor must satisfy to get a store, and what the store holds at first.
-/

namespace EbpfLab.Interp
open Isa Library

variable {desc : MapDesc} {store : MapStore}

theorem checkKey_ok {keySize : Nat} {key : Bytes} (passed : checkKey keySize key = .ok ()) :
    key.length = keySize := by
  unfold checkKey at passed
  split at passed
  · assumption
  · cases passed

theorem checkValue_ok {valueSize : Nat} {value : Bytes} {sized : Sized valueSize}
    (passed : checkValue valueSize value = .ok sized) : sized.val = value := by
  unfold checkValue at passed
  split at passed
  · cases passed
    rfl
  · cases passed

/-- The initial entries keep their order and their bytes. -/
theorem checkInitial_ok {listed : List (Bytes × Bytes)} {initial : List (Bytes × Sized desc.valueSize)}
    (passed : MapStore.checkInitial desc listed = .ok initial) :
    initial.map (fun e => (e.1, e.2.val)) = listed ∧ ∀ e ∈ initial, e.1.length = desc.keySize := by
  induction listed generalizing initial with
  | nil =>
    cases passed
    simp
  | cons e rest ih =>
    obtain ⟨k, v⟩ := e
    unfold MapStore.checkInitial at passed
    obtain ⟨_, key, passed⟩ := bind_eq_ok.mp passed
    obtain ⟨value, sized, passed⟩ := bind_eq_ok.mp passed
    obtain ⟨others, later, passed⟩ := bind_eq_ok.mp passed
    cases passed
    obtain ⟨same, fits⟩ := ih later
    constructor
    · rw [List.map_cons, same, checkValue_ok sized]
    · intro e present
      rcases List.mem_cons.mp present with rfl | present
      · exact checkKey_ok key
      · exact fits e present

/-- The keys of the initial entries are distinct: the descriptor lists them in order. -/
theorem initial_distinct {initial : List (Bytes × Sized desc.valueSize)}
    (same : initial.map (fun e => (e.1, e.2.val)) = desc.initial.entries) :
    (initial.map Prod.fst).Nodup := by
  have keys : initial.map Prod.fst = desc.initial.entries.map Prod.fst := by
    rw [← same, List.map_map]
    rfl
  rw [keys, List.Nodup, List.pairwise_map]
  refine desc.initial.sorted.imp fun {a b} below equal => ?_
  rw [equal] at below
  exact Std.Irrefl.irrefl (r := (· < · : Bytes → Bytes → Prop)) _ below

/-- The storage a map kind gets for its initial entries. -/
inductive InitialData (desc : MapDesc) (initial : List (Bytes × Sized desc.valueSize)) :
    StoreData desc → Prop where
  | hash : desc.mapType = .hash → InitialData desc initial (.hash initial)
  | array {slots} : desc.mapType = .array →
      MapStore.fillArray desc initial (Vector.replicate _ (Sized.zero _)) = .ok slots →
      InitialData desc initial (.array slots)
  | lruArray {stamps stampOf seq} : desc.mapType = .lruArray →
      MapStore.stampInitial initial .empty [] 0 = (stamps, stampOf, seq) →
      InitialData desc initial (.lruArray initial stamps stampOf seq)

/-- What a successful build says of the descriptor and of the store. -/
structure Built (desc : MapDesc) (data : StoreData desc)
    (initial : List (Bytes × Sized desc.valueSize)) : Prop where
  listed : initial.map (fun e => (e.1, e.2.val)) = desc.initial.entries
  keySized : ∀ e ∈ initial, e.1.length = desc.keySize
  bounded : initial.length ≤ desc.maxEntries
  positive : 0 < desc.maxEntries
  arrayKey : desc.mapType = .array → desc.keySize = 4
  data : InitialData desc initial data

theorem new_ok (made : MapStore.new desc = .ok store) :
    ∃ data initial, store = ⟨desc, data⟩ ∧ Built desc data initial := by
  simp only [MapStore.new, throw_bind] at made
  split at made
  · cases made
  · split at made
    · cases made
    · rename_i nonzero
      split at made
      · cases made
      · rename_i arrayKey
        obtain ⟨initial, checked, made⟩ := bind_eq_ok.mp made
        obtain ⟨listed, keySized⟩ := checkInitial_ok checked
        split at made
        · cases made
        · rename_i bounded
          have built : ∀ data, InitialData desc initial data → Built desc data initial :=
            fun data held => ⟨listed, keySized, by omega, by omega,
              fun array => Decidable.byContradiction fun wrong => arrayKey ⟨array, wrong⟩, held⟩
          split at made
          · rename_i hash
            cases made
            exact ⟨_, _, rfl, built _ (.hash hash)⟩
          · rename_i array
            obtain ⟨slots, filled, made⟩ := bind_eq_ok.mp made
            cases made
            exact ⟨_, _, rfl, built _ (.array array filled)⟩
          · rename_i lruArray
            cases made
            exact ⟨_, _, rfl, built _ (.lruArray lruArray rfl)⟩

end EbpfLab.Interp
