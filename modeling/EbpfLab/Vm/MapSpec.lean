import Mathlib.Data.Finmap
import Mathlib.Data.Nat.Digits.Defs
import EbpfLab.Vm.MapOps

/-!
# What the map kinds are for

The abstract store behind each kind of map, with the answers it gives: a finite partial map of
bounded size, a total array, and a list of pairs in the order of their last use. A request is
answered by the first check it fails.
-/

namespace EbpfLab.Interp
open Isa Library

variable {desc : MapDesc}

/-! ### Hash maps -/

/-- A finite partial map of bounded size. -/
structure PartialStore (desc : MapDesc) where
  entries : Finmap fun _ : Bytes => Sized desc.valueSize
  keySized : ∀ key ∈ entries, key.length = desc.keySize
  bounded : entries.keys.card ≤ desc.maxEntries

namespace PartialStore

def insert (m : PartialStore desc) (key : Bytes) (value : Sized desc.valueSize)
    (fits : key.length = desc.keySize)
    (room : key ∈ m.entries ∨ m.entries.keys.card < desc.maxEntries) : PartialStore desc where
  entries := m.entries.insert key value
  keySized k present := by
    rcases Finmap.mem_insert.mp present with rfl | held
    · exact fits
    · exact m.keySized k held
  bounded := by
    have keys : (m.entries.insert key value).keys = Insert.insert key m.entries.keys := by
      ext k
      simp [Finmap.mem_keys]
    rw [keys]
    rcases room with present | room
    · rw [Finset.insert_eq_of_mem (Finmap.mem_keys.mpr present)]
      exact m.bounded
    · exact (Finset.card_insert_le _ _).trans room

def erase (m : PartialStore desc) (key : Bytes) : PartialStore desc where
  entries := m.entries.erase key
  keySized k present := m.keySized k (Finmap.mem_erase.mp present).2
  bounded := by
    rw [Finmap.keys_erase]
    exact (Finset.card_erase_le).trans m.bounded

def step (m : PartialStore desc) : MapOp → MapReply × PartialStore desc
  | .lookup key =>
    if key.length = desc.keySize then (.ok ((m.entries.lookup key).map Subtype.val), m)
    else (.error (.keySizeMismatch desc.keySize key.length), m)
  | .update key value flags =>
    if 2 < flags then (.error (.invalidDesc s!"unknown map update flags {flags}"), m)
    else if fits : key.length = desc.keySize then
      if sized : value.length = desc.valueSize then
        if flags = 1 ∧ key ∈ m.entries then (.error .keyExists, m)
        else if flags = 2 ∧ key ∉ m.entries then (.error .keyNotFound, m)
        else if room : key ∈ m.entries ∨ m.entries.keys.card < desc.maxEntries then
          (.ok none, m.insert key ⟨value, sized⟩ fits room)
        else (.error (.full desc.maxEntries), m)
      else (.error (.valueSizeMismatch desc.valueSize value.length), m)
    else (.error (.keySizeMismatch desc.keySize key.length), m)
  | .delete key =>
    if key.length = desc.keySize then
      if key ∈ m.entries then (.ok none, m.erase key) else (.error .keyNotFound, m)
    else (.error (.keySizeMismatch desc.keySize key.length), m)

end PartialStore

/-! ### Arrays -/

/-- A value for every index. -/
abbrev TotalStore (desc : MapDesc) := Fin desc.maxEntries → Sized desc.valueSize

namespace TotalStore

/-- The index a key spells, least significant byte first. -/
def indexOf (key : Bytes) : Nat := Nat.ofDigits 256 (key.map UInt8.toNat)

def step (a : TotalStore desc) : MapOp → MapReply × TotalStore desc
  | .lookup key =>
    if key.length = desc.keySize then
      if inside : indexOf key < desc.maxEntries then (.ok (some (a ⟨indexOf key, inside⟩).val), a)
      else (.error (.full desc.maxEntries), a)
    else (.error (.keySizeMismatch desc.keySize key.length), a)
  | .update key value flags =>
    if 2 < flags then (.error (.invalidDesc s!"unknown map update flags {flags}"), a)
    else if key.length = desc.keySize then
      if sized : value.length = desc.valueSize then
        if inside : indexOf key < desc.maxEntries then
          if flags = 1 then (.error .keyExists, a)
          else (.ok none, Function.update a ⟨indexOf key, inside⟩ ⟨value, sized⟩)
        else (.error (.full desc.maxEntries), a)
      else (.error (.valueSizeMismatch desc.valueSize value.length), a)
    else (.error (.keySizeMismatch desc.keySize key.length), a)
  | .delete key =>
    if key.length = desc.keySize then
      if inside : indexOf key < desc.maxEntries then
        (.ok none, Function.update a ⟨indexOf key, inside⟩ (Sized.zero _))
      else (.error (.full desc.maxEntries), a)
    else (.error (.keySizeMismatch desc.keySize key.length), a)

end TotalStore

/-! ### Least recently used -/

/-- Distinct keys with their values, the least recently touched first. -/
structure RecencyList (desc : MapDesc) where
  pairs : List (Bytes × Sized desc.valueSize)
  distinct : (pairs.map Prod.fst).Nodup
  bounded : pairs.length ≤ desc.maxEntries
  positive : 0 < desc.maxEntries

namespace RecencyList

def keys (l : RecencyList desc) : List Bytes := l.pairs.map Prod.fst

def remove (l : RecencyList desc) (key : Bytes) : RecencyList desc where
  pairs := l.pairs.filter (·.1 ≠ key)
  distinct := (List.filter_sublist.map _).nodup l.distinct
  bounded := (List.length_filter_le _ _).trans l.bounded
  positive := l.positive

/-- Drop the least recently touched pair. -/
def evict (l : RecencyList desc) : RecencyList desc where
  pairs := l.pairs.tail
  distinct := ((List.tail_sublist _).map _).nodup l.distinct
  bounded := (List.tail_sublist _).length_le.trans l.bounded
  positive := l.positive

/-- Make a pair the most recent one. -/
def place (l : RecencyList desc) (key : Bytes) (value : Sized desc.valueSize)
    (room : (l.remove key).pairs.length < desc.maxEntries) : RecencyList desc where
  pairs := (l.remove key).pairs ++ [(key, value)]
  distinct := by
    rw [List.map_append, List.nodup_append]
    refine ⟨(l.remove key).distinct, by simp, ?_⟩
    intro k present k' here
    simp only [List.map_cons, List.map_nil, List.mem_singleton] at here
    obtain ⟨e, held, rfl⟩ := List.mem_map.mp present
    rw [here]
    simpa using List.of_mem_filter held
  bounded := by
    rw [List.length_append]
    exact room
  positive := l.positive

/-- Removing a key that is present, or any key of a list that is not full, makes room. -/
theorem room {l : RecencyList desc} {key : Bytes}
    (able : key ∈ l.keys ∨ l.pairs.length < desc.maxEntries) :
    (l.remove key).pairs.length < desc.maxEntries := by
  rcases able with present | short
  · obtain ⟨e, held, rfl⟩ := List.mem_map.mp present
    refine Nat.lt_of_lt_of_le ?_ l.bounded
    exact List.length_filter_lt_length_iff_exists.mpr ⟨e, held, by simp⟩
  · exact (List.length_filter_le _ _).trans_lt short

theorem room_evict {l : RecencyList desc} {key : Bytes} :
    (l.evict.remove key).pairs.length < desc.maxEntries := by
  refine (List.length_filter_le _ _).trans_lt ?_
  show l.pairs.tail.length < _
  have := l.bounded
  have := l.positive
  rw [List.length_tail]
  omega

def step (l : RecencyList desc) : MapOp → MapReply × RecencyList desc
  | .lookup key =>
    if key.length = desc.keySize then
      if present : key ∈ l.keys then
        match l.pairs.lookup key with
        | some v => (.ok (some v.val), l.place key v (room (.inl present)))
        | none => (.ok none, l)
      else (.ok none, l)
    else (.error (.keySizeMismatch desc.keySize key.length), l)
  | .update key value flags =>
    if 2 < flags then (.error (.invalidDesc s!"unknown map update flags {flags}"), l)
    else if key.length = desc.keySize then
      if sized : value.length = desc.valueSize then
        if flags = 1 ∧ key ∈ l.keys then (.error .keyExists, l)
        else if flags = 2 ∧ key ∉ l.keys then (.error .keyNotFound, l)
        else if able : key ∈ l.keys ∨ l.pairs.length < desc.maxEntries then
          (.ok none, l.place key ⟨value, sized⟩ (room able))
        else (.ok none, l.evict.place key ⟨value, sized⟩ room_evict)
      else (.error (.valueSizeMismatch desc.valueSize value.length), l)
    else (.error (.keySizeMismatch desc.keySize key.length), l)
  | .delete key =>
    if key.length = desc.keySize then
      if key ∈ l.keys then (.ok none, l.remove key) else (.error .keyNotFound, l)
    else (.error (.keySizeMismatch desc.keySize key.length), l)

end RecencyList

end EbpfLab.Interp
