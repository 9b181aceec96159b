import EbpfLab.Library.OrdMap
import EbpfLab.Vm.Memory

/-!
# Map stores

The key-value stores behind the map helpers. A stored value carries its width, so every store holds
values of the width its descriptor declares. Hash maps are association lists with one entry a key.
-/

namespace EbpfLab.Interp
open Isa Library

/-- `MAX_MAP_FD`. -/
def maxMapFd : Int64 := 1024

inductive MapType where
  | hash | array | lruArray
  deriving DecidableEq, Repr

/-- Static map description. -/
structure MapDesc where
  fd : Int64
  mapType : MapType
  keySize : Nat
  valueSize : Nat
  maxEntries : Nat
  initial : OrdMap Bytes Bytes
  name : Option String
  deriving DecidableEq

inductive MapError where
  | badFd (fd : Int64)
  | fdTooLarge (fd max : Int64)
  | duplicateFd (fd : Int64)
  | invalidDesc (reason : String)
  | keySizeMismatch (expected got : Nat)
  | valueSizeMismatch (expected got : Nat)
  | full (maxEntries : Nat)
  | keyNotFound
  | keyExists
  deriving DecidableEq, Repr

inductive UpdateFlags where
  | any | noExist | exist
  deriving DecidableEq, Repr

/-- `UpdateFlags::try_from`. -/
def UpdateFlags.tryFrom (flags : Nat) : Except MapError UpdateFlags :=
  match flags with
  | 0 => .ok .any
  | 1 => .ok .noExist
  | 2 => .ok .exist
  | _ => .error (.invalidDesc s!"unknown map update flags {flags}")

/-- Bytes of a known length. -/
abbrev Sized (n : Nat) := { bytes : Bytes // bytes.length = n }

def Sized.zero (n : Nat) : Sized n := ⟨List.replicate n 0, List.length_replicate⟩

/-- Key-value entries, at most one a key. -/
abbrev Entries (α : Type) := List (Bytes × α)

namespace Entries

variable {α : Type}

def get (entries : Entries α) (key : Bytes) : Option α := List.lookup key entries

def remove (entries : Entries α) (key : Bytes) : Entries α := entries.filter (·.1 != key)

def insert (entries : Entries α) (key : Bytes) (value : α) : Entries α :=
  (key, value) :: entries.remove key

end Entries

/-- The entries of a store. In an LRU map `stamps` orders the live keys by their last touch, `stampOf`
is its reverse index and `seq` the next stamp. -/
inductive StoreData (desc : MapDesc) where
  | hash (data : Entries (Sized desc.valueSize))
  | array (data : Vector (Sized desc.valueSize) desc.maxEntries)
  | lruArray (data : Entries (Sized desc.valueSize)) (stamps : OrdMap UInt64 Bytes)
      (stampOf : Entries UInt64) (seq : UInt64)

/-- Runtime storage of the map a descriptor declares. -/
structure MapStore where
  desc : MapDesc
  data : StoreData desc

/-- `check_key`. -/
def checkKey (keySize : Nat) (key : Bytes) : Except MapError Unit :=
  if key.length = keySize then .ok () else .error (.keySizeMismatch keySize key.length)

/-- `check_value`, returning the value at its checked width. -/
def checkValue (valueSize : Nat) (value : Bytes) : Except MapError (Sized valueSize) :=
  if fits : value.length = valueSize then .ok ⟨value, fits⟩
  else .error (.valueSizeMismatch valueSize value.length)

/-- `array_index`: the first four key bytes, little-endian. -/
def arrayIndex (key : Bytes) (maxEntries : Nat) : Except MapError (Fin maxEntries) :=
  if key.length < 4 then .error (.keySizeMismatch 4 key.length)
  else
    let idx := (leValue (key.take 4)).toUInt64.toNat
    if inside : idx < maxEntries then .ok ⟨idx, inside⟩ else .error (.full maxEntries)

/-- `check_update_flags`. -/
def checkUpdateFlags (flag : UpdateFlags) (present : Bool) : Except MapError Unit :=
  match flag, present with
  | .noExist, true => .error .keyExists
  | .exist, false => .error .keyNotFound
  | _, _ => .ok ()

/-- Take the stamp of a key out of the recency index. -/
def unstamp (stamps : OrdMap UInt64 Bytes) (stampOf : Entries UInt64) (key : Bytes) :
    OrdMap UInt64 Bytes :=
  match stampOf.get key with
  | some old => stamps.remove old
  | none => stamps

/-- `lru_touch` on the recency index: drop the stale stamp, then insert a fresh one. -/
def lruTouch (stamps : OrdMap UInt64 Bytes) (stampOf : Entries UInt64) (seq : UInt64) (key : Bytes) :
    OrdMap UInt64 Bytes × Entries UInt64 × UInt64 :=
  ((unstamp stamps stampOf key).insert seq key, stampOf.insert key seq, seq + 1)

namespace MapStore

/-- The width checks of `MapStore::new` on the initial entries. -/
def checkInitial (desc : MapDesc) :
    List (Bytes × Bytes) → Except MapError (List (Bytes × Sized desc.valueSize))
  | [] => .ok []
  | (k, v) :: rest => do
    checkKey desc.keySize k
    let v ← checkValue desc.valueSize v
    let rest ← checkInitial desc rest
    .ok ((k, v) :: rest)

/-- Place the initial entries of an array map. -/
def fillArray (desc : MapDesc) :
    List (Bytes × Sized desc.valueSize) → Vector (Sized desc.valueSize) desc.maxEntries →
      Except MapError (Vector (Sized desc.valueSize) desc.maxEntries)
  | [], data => .ok data
  | (k, v) :: rest, data => do
    let idx ← arrayIndex k desc.maxEntries
    fillArray desc rest (data.setIfInBounds idx v)

/-- Stamp the initial keys of an LRU map in order. -/
def stampInitial {α : Type} :
    List (Bytes × α) → OrdMap UInt64 Bytes → Entries UInt64 → UInt64 →
      OrdMap UInt64 Bytes × Entries UInt64 × UInt64
  | [], stamps, stampOf, seq => (stamps, stampOf, seq)
  | (k, _) :: rest, stamps, stampOf, seq =>
    stampInitial rest (stamps.insert seq k) (stampOf.insert k seq) (seq + 1)

/-- `MapStore::new`. -/
def new (desc : MapDesc) : Except MapError MapStore := do
  if desc.fd ≤ 0 then
    throw (.badFd desc.fd)
  if desc.keySize = 0 ∨ desc.valueSize = 0 ∨ desc.maxEntries = 0 then
    throw (.invalidDesc s!"zero key_size/value_size/max_entries for fd {desc.fd}")
  if desc.mapType = .array ∧ desc.keySize ≠ 4 then
    throw (.invalidDesc s!"array fd {desc.fd} needs key_size 4, got {desc.keySize}")
  let initial ← checkInitial desc desc.initial.entries
  if initial.length > desc.maxEntries then
    throw (.full desc.maxEntries)
  match desc.mapType with
  | .hash => .ok ⟨desc, .hash initial⟩
  | .array => do
    let data ← fillArray desc initial (Vector.replicate _ (Sized.zero _))
    .ok ⟨desc, .array data⟩
  | .lruArray =>
    let (stamps, stampOf, seq) := stampInitial initial .empty [] 0
    .ok ⟨desc, .lruArray initial stamps stampOf seq⟩

/-- `MapStore::lookup`; a hit in an LRU map touches the key. -/
def lookup (s : MapStore) (key : Bytes) :
    Except MapError (Option (Sized s.desc.valueSize) × StoreData s.desc) := do
  checkKey s.desc.keySize key
  match s.data with
  | .hash data => .ok (data.get key, s.data)
  | .array data => do
    let idx ← arrayIndex key s.desc.maxEntries
    .ok (some (data.get idx), s.data)
  | .lruArray data stamps stampOf seq =>
    match data.get key with
    | none => .ok (none, s.data)
    | some v =>
      let (stamps, stampOf, seq) := lruTouch stamps stampOf seq key
      .ok (some v, .lruArray data stamps stampOf seq)

/-- `MapStore::update`. -/
def update (s : MapStore) (key value : Bytes) (flags : Nat) :
    Except MapError (StoreData s.desc) := do
  let flag ← UpdateFlags.tryFrom flags
  checkKey s.desc.keySize key
  let value ← checkValue s.desc.valueSize value
  match s.data with
  | .hash data => do
    let present := (data.get key).isSome
    checkUpdateFlags flag present
    if !present ∧ data.length ≥ s.desc.maxEntries then
      throw (.full s.desc.maxEntries)
    .ok (.hash (data.insert key value))
  | .array data => do
    let idx ← arrayIndex key s.desc.maxEntries
    if flag = .noExist then
      throw .keyExists
    .ok (.array (data.setIfInBounds idx value))
  | .lruArray data stamps stampOf seq => do
    let present := (data.get key).isSome
    checkUpdateFlags flag present
    let (data, stamps, stampOf) :=
      if !present ∧ data.length ≥ s.desc.maxEntries then
        match stamps.popFirst with
        | none => (data, stamps, stampOf)
        | some ((_, old), stamps) => (data.remove old, stamps, stampOf.remove old)
      else (data, stamps, stampOf)
    let (stamps, stampOf, seq) := lruTouch stamps stampOf seq key
    .ok (.lruArray (data.insert key value) stamps stampOf seq)

/-- `MapStore::delete`; an array slot is zeroed. -/
def delete (s : MapStore) (key : Bytes) : Except MapError (StoreData s.desc) := do
  checkKey s.desc.keySize key
  match s.data with
  | .hash data =>
    if (data.get key).isSome then .ok (.hash (data.remove key)) else .error .keyNotFound
  | .array data => do
    let idx ← arrayIndex key s.desc.maxEntries
    .ok (.array (data.setIfInBounds idx (Sized.zero _)))
  | .lruArray data stamps stampOf seq =>
    if (data.get key).isNone then .error .keyNotFound
    else .ok (.lruArray (data.remove key) (unstamp stamps stampOf key) (stampOf.remove key) seq)

end MapStore

/-- The fd-indexed table; index 0 is never bound. -/
abbrev Stores := List (Option MapStore)

/-- Install the descriptors of `build_stores` one by one. -/
def installStores : List MapDesc → Stores → Except MapError Stores
  | [], table => .ok table
  | desc :: rest, table => do
    match usizeOf desc.fd with
    | none => throw (.badFd desc.fd)
    | some idx =>
      if (table[idx]?.join).isSome then
        throw (.duplicateFd desc.fd)
      let store ← MapStore.new desc
      installStores rest (table.set idx (some store))

/-- `build_stores`. -/
def buildStores (descs : List MapDesc) : Except MapError Stores :=
  match descs with
  | [] => .ok []
  | first :: rest =>
    let maxFd := rest.foldl (fun m d => if m < d.fd then d.fd else m) first.fd
    if maxFd ≤ 0 then .error (.badFd maxFd)
    else if maxFd > maxMapFd then .error (.fdTooLarge maxFd maxMapFd)
    else installStores descs (List.replicate (maxFd.toInt.toNat + 1) none)

end EbpfLab.Interp
