import EbpfLab.Vm.MapNew
import EbpfLab.Vm.MapSpec

/-!
# Hash and array stores follow their abstract stores

Association lists stand for partial maps and slot vectors for total ones; each operation keeps the
correspondence and gives the abstract answer.
-/

namespace EbpfLab.Interp
open Isa Library

/-! ### Entries -/

namespace Entries

variable {α : Type} {entries : Entries α} {key k : Bytes} {value : α}

theorem get_cons (rest : Entries α) :
    get ((key, value) :: rest) k = if k = key then some value else get rest k := by
  unfold get
  rw [List.lookup_cons]
  by_cases here : k = key
  · simp [here]
  · rw [show (k == key) = false from beq_eq_false_iff_ne.mpr here, if_neg here]

theorem get_remove : (entries.remove key).get k = if k = key then none else entries.get k := by
  unfold remove
  induction entries with
  | nil => simp [get]
  | cons e rest ih =>
    obtain ⟨k', v⟩ := e
    by_cases gone : k' = key
    · subst gone
      rw [List.filter_cons_of_neg (by simp), ih, get_cons]
      by_cases here : k = k' <;> simp [here]
    · rw [List.filter_cons_of_pos (by simpa using gone), get_cons, get_cons, ih]
      by_cases here : k = k'
      · subst here
        simp [gone]
      · simp [here]

theorem get_insert :
    (entries.insert key value).get k = if k = key then some value else entries.get k := by
  unfold insert
  rw [get_cons, get_remove]
  by_cases here : k = key <;> simp [here]

theorem mem_keys : k ∈ entries.map Prod.fst ↔ (entries.get k).isSome = true := by
  induction entries with
  | nil => simp [get]
  | cons e rest ih =>
    obtain ⟨k', v⟩ := e
    rw [List.map_cons, List.mem_cons, ih, get_cons]
    by_cases here : k = k' <;> simp [here]

theorem nodup_remove (distinct : (entries.map Prod.fst).Nodup) :
    ((entries.remove key).map Prod.fst).Nodup :=
  (List.filter_sublist.map _).nodup distinct

theorem nodup_insert (distinct : (entries.map Prod.fst).Nodup) :
    ((entries.insert key value).map Prod.fst).Nodup := by
  refine List.nodup_cons.mpr ⟨?_, nodup_remove distinct⟩
  rw [mem_keys, get_remove]
  simp

end Entries

/-! ### Hash maps -/

variable {desc : MapDesc} {data : Entries (Sized desc.valueSize)} {m : PartialStore desc}

/-- Entries with distinct keys that stand for a partial map. -/
structure Represents (data : Entries (Sized desc.valueSize)) (m : PartialStore desc) : Prop where
  distinct : (data.map Prod.fst).Nodup
  same : ∀ key, data.get key = m.entries.lookup key

theorem Represents.mem_iff (held : Represents data m) (key : Bytes) :
    (data.get key).isSome = true ↔ key ∈ m.entries := by
  rw [held.same, Finmap.lookup_isSome]

theorem Represents.length_eq (held : Represents data m) : data.length = m.entries.keys.card := by
  have keys : m.entries.keys = (data.map Prod.fst).toFinset := by
    ext key
    rw [Finmap.mem_keys, List.mem_toFinset, Entries.mem_keys, held.mem_iff]
  rw [keys, List.toFinset_card_of_nodup held.distinct, List.length_map]

theorem Represents.insert (held : Represents data m) {key : Bytes} {value : Sized desc.valueSize}
    (fits : key.length = desc.keySize)
    (room : key ∈ m.entries ∨ m.entries.keys.card < desc.maxEntries) :
    Represents (data.insert key value) (m.insert key value fits room) := by
  refine ⟨Entries.nodup_insert held.distinct, fun k => ?_⟩
  rw [Entries.get_insert]
  show _ = Finmap.lookup k (m.entries.insert key value)
  by_cases here : k = key
  · subst here
    rw [if_pos rfl, Finmap.lookup_insert]
  · rw [if_neg here, Finmap.lookup_insert_of_ne _ here, held.same]

theorem Represents.erase (held : Represents data m) (key : Bytes) :
    Represents (data.remove key) (m.erase key) := by
  refine ⟨Entries.nodup_remove held.distinct, fun k => ?_⟩
  rw [Entries.get_remove]
  show _ = Finmap.lookup k (m.entries.erase key)
  by_cases here : k = key
  · subst here
    rw [if_pos rfl, Finmap.lookup_erase]
  · rw [if_neg here, Finmap.lookup_erase_ne here, held.same]

/-- A hash store and the partial map it stands for. -/
def StoreData.Hashes : StoreData desc → PartialStore desc → Prop
  | .hash data, m => Represents data m
  | _, _ => False

theorem hash_lookup (held : Represents data m) (key : Bytes) :
    ((StoreData.hash data).step (.lookup key)).1 = (m.step (.lookup key)).1 ∧
      ((StoreData.hash data).step (.lookup key)).2.Hashes (m.step (.lookup key)).2 := by
  simp only [StoreData.step, InPlace.exec_lookup, MapStore.lookup, PartialStore.step, checkKey]
  by_cases fits : key.length = desc.keySize
  · simp only [fits, if_true, ok_bind, held.same]
    exact ⟨rfl, held⟩
  · simp only [fits, if_false]
    exact ⟨rfl, held⟩

theorem hash_delete (held : Represents data m) (key : Bytes) :
    ((StoreData.hash data).step (.delete key)).1 = (m.step (.delete key)).1 ∧
      ((StoreData.hash data).step (.delete key)).2.Hashes (m.step (.delete key)).2 := by
  simp only [StoreData.step, InPlace.exec_delete, MapStore.delete, PartialStore.step, checkKey]
  by_cases fits : key.length = desc.keySize
  · simp only [fits, if_true, ok_bind, held.mem_iff]
    split
    · exact ⟨rfl, held.erase key⟩
    · exact ⟨rfl, held⟩
  · simp only [fits, if_false]
    exact ⟨rfl, held⟩

/-! ### Flags -/

theorem tryFrom_unknown {flags : Nat} (unknown : 2 < flags) :
    UpdateFlags.tryFrom flags = .error (.invalidDesc s!"unknown map update flags {flags}") := by
  match flags with
  | 0 | 1 | 2 => omega
  | _ + 3 => rfl

theorem tryFrom_known {flags : Nat} (known : ¬2 < flags) :
    ∃ flag, UpdateFlags.tryFrom flags = .ok flag ∧ (flag = .noExist ↔ flags = 1) ∧
      (flag = .exist ↔ flags = 2) := by
  match flags with
  | 0 => exact ⟨.any, rfl, by simp, by simp⟩
  | 1 => exact ⟨.noExist, rfl, by simp, by simp⟩
  | 2 => exact ⟨.exist, rfl, by simp, by simp⟩
  | _ + 3 => omega

theorem checkUpdateFlags_eq (flag : UpdateFlags) (present : Bool) :
    checkUpdateFlags flag present =
      if flag = .noExist ∧ present = true then .error .keyExists
      else if flag = .exist ∧ ¬present = true then .error .keyNotFound
      else .ok () := by
  cases flag <;> cases present <;> rfl

theorem hash_update (held : Represents data m) (key value : Bytes) (flags : Nat) :
    ((StoreData.hash data).step (.update key value flags)).1 = (m.step (.update key value flags)).1 ∧
      ((StoreData.hash data).step (.update key value flags)).2.Hashes
        (m.step (.update key value flags)).2 := by
  simp only [StoreData.step, InPlace.exec_update, MapStore.update, PartialStore.step]
  by_cases unknown : 2 < flags
  · rw [tryFrom_unknown unknown, if_pos unknown]
    exact ⟨rfl, held⟩
  obtain ⟨flag, known, noExist, exist⟩ := tryFrom_known unknown
  rw [known, if_neg unknown]
  simp only [ok_bind, checkKey, checkValue]
  by_cases fits : key.length = desc.keySize
  · simp only [fits, if_true, dif_pos, ok_bind]
    by_cases sized : value.length = desc.valueSize
    · simp only [sized, dif_pos, ok_bind, checkUpdateFlags_eq, held.mem_iff, noExist, exist,
        held.length_eq, Bool.not_eq_true', ← Bool.not_eq_true]
      split
      · exact ⟨rfl, held⟩
      · split
        · exact ⟨rfl, held⟩
        · simp only [ok_bind]
          by_cases room : key ∈ m.entries ∨ m.entries.keys.card < desc.maxEntries
          · have able : ¬(key ∉ m.entries ∧ m.entries.keys.card ≥ desc.maxEntries) := by
              rcases room with present | short
              · exact fun full => full.1 present
              · exact fun full => absurd full.2 (Nat.not_le.mpr short)
            rw [if_neg able, dif_pos room]
            exact ⟨rfl, held.insert fits room⟩
          · have full : key ∉ m.entries ∧ m.entries.keys.card ≥ desc.maxEntries :=
              ⟨fun present => room (.inl present), Nat.not_lt.mp fun short => room (.inr short)⟩
            rw [if_pos full, dif_neg room]
            exact ⟨rfl, held⟩
    · simp only [sized, dif_neg, not_false_eq_true]
      exact ⟨rfl, held⟩
  · simp only [fits, if_false, dif_neg, not_false_eq_true]
    exact ⟨rfl, held⟩

/-- A hash store answers as the partial map it stands for. -/
theorem hash_follows : Follows (fun _ => @StoreData.Hashes desc) StoreData.step
    PartialStore.step := by
  intro _ s m request held
  cases s with
  | hash data =>
    cases request with
    | lookup key => exact hash_lookup held key
    | update key value flags => exact hash_update held key value flags
    | delete key => exact hash_delete held key
  | array data => exact absurd held id
  | lruArray data stamps stampOf seq => exact absurd held id

/-! ### Arrays -/

/-- Setting the next higher byte of a little-endian number. -/
theorem toNat_or_byte {low : UInt64} (byte : UInt8) {shift : Nat} (short : shift ≤ 56)
    (below : low.toNat < 2 ^ shift) :
    (low ||| byte.toUInt64 <<< UInt64.ofNat shift).toNat = low.toNat + 2 ^ shift * byte.toNat ∧
      low.toNat + 2 ^ shift * byte.toNat < 2 ^ (shift + 8) := by
  have small := byte.toNat_lt
  have bound : 2 ^ shift * byte.toNat + 2 ^ shift ≤ 2 ^ (shift + 8) := by
    rw [Nat.pow_add, ← Nat.mul_succ]
    exact Nat.mul_le_mul_left _ small
  have wide : 2 ^ (shift + 8) ≤ 2 ^ 64 := Nat.pow_le_pow_right (by decide) (by omega)
  have amount : (UInt64.ofNat shift).toNat % 64 = shift := by
    rw [UInt64.toNat_ofNat']
    omega
  refine ⟨?_, by omega⟩
  rw [UInt64.toNat_or, UInt64.toNat_shiftLeft, amount, UInt8.toNat_toUInt64, Nat.or_comm,
    Nat.shiftLeft_eq, Nat.mul_comm byte.toNat, Nat.mod_eq_of_lt (by omega),
    ← Nat.two_pow_add_eq_or_of_lt below, Nat.add_comm]

theorem toNat_foldl_bytes (bytes : Bytes) {i : Nat} {low : UInt64} (short : i + bytes.length ≤ 8)
    (below : low.toNat < 2 ^ (8 * i)) :
    ((bytes.zipIdx i).foldl (fun (v : UInt64) (b, i) => v ||| b.toUInt64 <<< UInt64.ofNat (8 * i))
      low).toNat = low.toNat + 2 ^ (8 * i) * TotalStore.indexOf bytes := by
  unfold TotalStore.indexOf
  induction bytes generalizing i low with
  | nil => simp
  | cons b rest ih =>
    rw [List.length_cons] at short
    obtain ⟨set, below⟩ := toNat_or_byte b (by omega) below
    rw [List.zipIdx_cons, List.foldl_cons, ih (by omega) (by rw [set]; exact below), set,
      List.map_cons, Nat.ofDigits_cons, show 8 * (i + 1) = 8 * i + 8 by omega, Nat.pow_add]
    ring

/-- A four-byte key is read as the index it spells. -/
theorem toNat_leValue_word {key : Bytes} (fits : key.length = 4) :
    (leValue (key.take 4)).toUInt64.toNat = TotalStore.indexOf key := by
  rw [List.take_of_length_le (by omega)]
  have read := toNat_foldl_bytes key (show 0 + key.length ≤ 8 by omega)
    (show (0 : UInt64).toNat < 2 ^ (8 * 0) by decide)
  simpa [leValue] using read

theorem arrayIndex_eq {key : Bytes} (fits : key.length = 4) (maxEntries : Nat) :
    arrayIndex key maxEntries =
      if inside : TotalStore.indexOf key < maxEntries then .ok ⟨TotalStore.indexOf key, inside⟩
      else .error (.full maxEntries) := by
  unfold arrayIndex
  rw [if_neg (by omega)]
  simp only [toNat_leValue_word fits]

/-- A slot vector and the total map it stands for. -/
def StoreData.Slots : StoreData desc → TotalStore desc → Prop
  | .array data, a => desc.keySize = 4 ∧ ∀ i : Fin desc.maxEntries, data.get i = a i
  | _, _ => False

section

variable {slots : Vector (Sized desc.valueSize) desc.maxEntries} {a : TotalStore desc}

theorem get_setIfInBounds {α : Type} {n : Nat} (slots : Vector α n) (i j : Fin n) (value : α) :
    (slots.setIfInBounds i value).get j = if j = i then value else slots.get j := by
  rw [show (slots.setIfInBounds i value).get j = (slots.setIfInBounds i value)[j.val] from rfl,
    Vector.getElem_setIfInBounds]
  by_cases here : j = i
  · rw [if_pos (congrArg Fin.val here.symm), if_pos here]
  · rw [if_neg (fun same => here (Fin.ext same.symm)), if_neg here]
    rfl

theorem slots_set (held : (StoreData.array slots).Slots a) (i : Fin desc.maxEntries)
    (value : Sized desc.valueSize) :
    (StoreData.array (slots.setIfInBounds i value)).Slots (Function.update a i value) := by
  refine ⟨held.1, fun j => ?_⟩
  rw [Function.update_apply, get_setIfInBounds, held.2 j]

theorem array_lookup (held : (StoreData.array slots).Slots a) (key : Bytes) :
    ((StoreData.array slots).step (.lookup key)).1 = (a.step (.lookup key)).1 ∧
      ((StoreData.array slots).step (.lookup key)).2.Slots (a.step (.lookup key)).2 := by
  simp only [StoreData.step, InPlace.exec_lookup, MapStore.lookup, TotalStore.step, checkKey]
  by_cases fits : key.length = desc.keySize
  · simp only [fits, if_true, ok_bind, arrayIndex_eq (fits.trans held.1)]
    split
    · rename_i inside
      simp only [ok_bind, Mutating.writeOnSuccess, Except.map, Option.map_some]
      exact ⟨by rw [held.2], held⟩
    · exact ⟨rfl, held⟩
  · simp only [fits, if_false]
    exact ⟨rfl, held⟩

theorem array_delete (held : (StoreData.array slots).Slots a) (key : Bytes) :
    ((StoreData.array slots).step (.delete key)).1 = (a.step (.delete key)).1 ∧
      ((StoreData.array slots).step (.delete key)).2.Slots (a.step (.delete key)).2 := by
  simp only [StoreData.step, InPlace.exec_delete, MapStore.delete, TotalStore.step, checkKey]
  by_cases fits : key.length = desc.keySize
  · simp only [fits, if_true, ok_bind, arrayIndex_eq (fits.trans held.1)]
    split
    · exact ⟨rfl, slots_set held _ _⟩
    · exact ⟨rfl, held⟩
  · simp only [fits, if_false]
    exact ⟨rfl, held⟩

theorem array_update (held : (StoreData.array slots).Slots a) (key value : Bytes) (flags : Nat) :
    ((StoreData.array slots).step (.update key value flags)).1 = (a.step (.update key value flags)).1 ∧
      ((StoreData.array slots).step (.update key value flags)).2.Slots
        (a.step (.update key value flags)).2 := by
  simp only [StoreData.step, InPlace.exec_update, MapStore.update, TotalStore.step]
  by_cases unknown : 2 < flags
  · rw [tryFrom_unknown unknown, if_pos unknown]
    exact ⟨rfl, held⟩
  obtain ⟨flag, known, noExist, _⟩ := tryFrom_known unknown
  rw [known, if_neg unknown]
  simp only [ok_bind, checkKey, checkValue]
  by_cases fits : key.length = desc.keySize
  · simp only [fits, if_true, ok_bind, arrayIndex_eq (fits.trans held.1)]
    by_cases sized : value.length = desc.valueSize
    · simp only [sized, dif_pos, ok_bind]
      split
      · rename_i inside
        simp only [ok_bind, noExist]
        split
        · exact ⟨rfl, held⟩
        · exact ⟨rfl, slots_set held ⟨_, inside⟩ ⟨value, sized⟩⟩
      · exact ⟨rfl, held⟩
    · simp only [sized, dif_neg, not_false_eq_true]
      exact ⟨rfl, held⟩
  · simp only [fits, if_false]
    exact ⟨rfl, held⟩

end

/-- An array store answers as the total map it stands for. -/
theorem array_follows : Follows (fun _ => @StoreData.Slots desc) StoreData.step
    TotalStore.step := by
  intro _ s a request held
  cases s with
  | array slots =>
    cases request with
    | lookup key => exact array_lookup held key
    | update key value flags => exact array_update held key value flags
    | delete key => exact array_delete held key
  | hash data => exact absurd held id
  | lruArray data stamps stampOf seq => exact absurd held id

/-! ### Initial stores -/

/-- The partial map of a list of entries; the first entry of a key counts. -/
def Entries.toFinmap {α : Type} (entries : Entries α) : Finmap fun _ : Bytes => α :=
  entries.foldr (fun e m => m.insert e.1 e.2) ∅

theorem Entries.lookup_toFinmap {α : Type} (entries : Entries α) (key : Bytes) :
    entries.toFinmap.lookup key = entries.get key := by
  unfold toFinmap
  induction entries with
  | nil => simp [get]
  | cons e rest ih =>
    rw [List.foldr_cons, get_cons, ← ih]
    by_cases here : key = e.1
    · rw [if_pos here, here, Finmap.lookup_insert]
    · rw [if_neg here, Finmap.lookup_insert_of_ne _ here]

theorem Entries.card_toFinmap {α : Type} (entries : Entries α) :
    entries.toFinmap.keys.card ≤ entries.length := by
  unfold toFinmap
  induction entries with
  | nil => simp
  | cons e rest ih =>
    have keys : ∀ m : Finmap fun _ : Bytes => α, (m.insert e.1 e.2).keys =
        Insert.insert e.1 m.keys := by
      intro m
      ext k
      simp [Finmap.mem_keys]
    rw [List.foldr_cons, keys, List.length_cons]
    exact (Finset.card_insert_le _ _).trans (Nat.succ_le_succ ih)

theorem Entries.get_map_val {n : Nat} (entries : Entries (Sized n)) (key : Bytes) :
    (entries.get key).map Subtype.val =
      (entries.map fun e => (e.1, e.2.val)).lookup key := by
  show _ = Entries.get (entries.map fun e => (e.1, e.2.val)) key
  induction entries with
  | nil => rfl
  | cons e rest ih =>
    rw [List.map_cons, get_cons, get_cons, ← ih]
    split <;> rfl

variable {initial : List (Bytes × Sized desc.valueSize)} {store : StoreData desc}

/-- A hash store starts as the partial map its descriptor lists. -/
theorem hash_initial (built : Built desc store initial) (hash : desc.mapType = .hash) :
    ∃ m : PartialStore desc,
      (∀ key, (m.entries.lookup key).map Subtype.val = desc.initial.entries.lookup key) ∧
      store.Hashes m := by
  obtain ⟨listed, keySized, bounded, positive, arrayKey, data⟩ := built
  refine ⟨⟨Entries.toFinmap initial, fun key present => ?_,
    (Entries.card_toFinmap initial).trans bounded⟩, fun key => ?_, ?_⟩
  · rw [← Finmap.lookup_isSome, Entries.lookup_toFinmap, ← Entries.mem_keys] at present
    obtain ⟨e, held, rfl⟩ := List.mem_map.mp present
    exact keySized e held
  · rw [Entries.lookup_toFinmap, Entries.get_map_val, listed]
  · cases data with
    | hash _ => exact ⟨initial_distinct listed, fun key => (Entries.lookup_toFinmap initial key).symm⟩
    | array other _ | lruArray other _ => rw [hash] at other; cases other

theorem indexOf_inj {k k' : Bytes} (fits : k.length = k'.length)
    (same : TotalStore.indexOf k = TotalStore.indexOf k') : k = k' := by
  have digits : ∀ key : Bytes, ∀ d ∈ key.map UInt8.toNat, d < 256 := by
    intro key d present
    obtain ⟨b, _, rfl⟩ := List.mem_map.mp present
    exact b.toNat_lt
  have equal := Nat.ofDigits_inj_of_len_eq (by decide) (by simpa using fits) (digits k) (digits k') same
  exact List.map_injective_iff.mpr (fun _ _ => UInt8.toNat_inj.mp) equal

/-- Filling an array writes each entry to its own slot. -/
theorem fillArray_ok {rest : List (Bytes × Sized desc.valueSize)}
    {slots out : Vector (Sized desc.valueSize) desc.maxEntries}
    (filled : MapStore.fillArray desc rest slots = .ok out) (fits : ∀ e ∈ rest, e.1.length = 4)
    (distinct : (rest.map Prod.fst).Nodup) :
    (∀ e ∈ rest, ∃ inside : TotalStore.indexOf e.1 < desc.maxEntries,
      out.get ⟨TotalStore.indexOf e.1, inside⟩ = e.2) ∧
    ∀ i : Fin desc.maxEntries, (∀ e ∈ rest, TotalStore.indexOf e.1 ≠ i.val) → out.get i = slots.get i := by
  induction rest generalizing slots with
  | nil =>
    cases filled
    simp
  | cons e rest ih =>
    obtain ⟨k, v⟩ := e
    unfold MapStore.fillArray at filled
    obtain ⟨idx, index, filled⟩ := bind_eq_ok.mp filled
    rw [arrayIndex_eq (fits _ List.mem_cons_self)] at index
    split at index
    · rename_i inside
      cases index
      rw [List.map_cons, List.nodup_cons] at distinct
      obtain ⟨placed, untouched⟩ := ih filled (fun e later => fits e (List.mem_cons_of_mem _ later))
        distinct.2
      constructor
      · intro e present
        rcases List.mem_cons.mp present with rfl | later
        · refine ⟨inside, ?_⟩
          have kept := untouched ⟨TotalStore.indexOf k, inside⟩ fun e later same => by
            have equal := indexOf_inj (by rw [fits _ (List.mem_cons_of_mem _ later),
              fits _ List.mem_cons_self]) same
            exact distinct.1 (List.mem_map.mpr ⟨e, later, equal⟩)
          rwa [get_setIfInBounds, if_pos rfl] at kept
        · exact placed e later
      · intro i free
        have apart := free _ List.mem_cons_self
        rw [untouched i fun e later => free e (List.mem_cons_of_mem _ later), get_setIfInBounds, if_neg]
        exact fun same => apart (congrArg Fin.val same.symm)
    · cases index

/-- An array store starts with the listed values at their indices and zeroes elsewhere. -/
theorem array_initial (built : Built desc store initial) (array : desc.mapType = .array) :
    ∃ a : TotalStore desc,
      (∀ e ∈ desc.initial.entries, ∃ inside : TotalStore.indexOf e.1 < desc.maxEntries,
        (a ⟨TotalStore.indexOf e.1, inside⟩).val = e.2) ∧
      (∀ i, (∀ e ∈ desc.initial.entries, TotalStore.indexOf e.1 ≠ i.val) → a i = Sized.zero _) ∧
      store.Slots a := by
  obtain ⟨listed, keySized, bounded, positive, arrayKey, data⟩ := built
  have four := arrayKey array
  cases data with
  | hash other | lruArray other _ => rw [array] at other; cases other
  | @array slots _ filled =>
    obtain ⟨placed, untouched⟩ := fillArray_ok filled (fun e present => (keySized e present).trans four)
      (initial_distinct listed)
    refine ⟨slots.get, ?_, ?_, four, fun i => rfl⟩
    · rw [← listed]
      intro e present
      obtain ⟨e', held, rfl⟩ := List.mem_map.mp present
      obtain ⟨inside, value⟩ := placed e' held
      exact ⟨inside, congrArg Subtype.val value⟩
    · rw [← listed]
      intro i free
      have kept := untouched i fun e held => free _ (List.mem_map.mpr ⟨e, held, rfl⟩)
      exact kept.trans (Vector.getElem_replicate i.isLt)

/-! ### Runs -/

/-- Stored keys and values have the widths the descriptor declares. -/
def StoreData.WidthsHold : StoreData desc → Prop
  | .hash data => ∀ e ∈ data, e.1.length = desc.keySize ∧ e.2.val.length = desc.valueSize
  | .array slots => ∀ i : Fin desc.maxEntries, (slots.get i).val.length = desc.valueSize
  | .lruArray data _ _ _ => ∀ e ∈ data, e.1.length = desc.keySize ∧ e.2.val.length = desc.valueSize

theorem StoreData.Hashes.widthsHold (held : store.Hashes m) : store.WidthsHold := by
  cases store with
  | hash data =>
    intro e present
    refine ⟨m.keySized e.1 ((held.mem_iff e.1).mp ?_), e.2.property⟩
    exact Entries.mem_keys.mp (List.mem_map.mpr ⟨e, present, rfl⟩)
  | array _ => exact absurd held id
  | lruArray _ _ _ _ => exact absurd held id

theorem StoreData.Slots.widthsHold {a : TotalStore desc} (held : store.Slots a) :
    store.WidthsHold := by
  cases store with
  | array slots => exact fun i => (slots.get i).property
  | hash _ => exact absurd held id
  | lruArray _ _ _ _ => exact absurd held id

/-- A hash map answers every sequence of requests as a bounded partial map, and an array as a total
one, from the contents the descriptor lists; widths hold throughout, and a failed request changes
nothing. -/
theorem hash_array_refine {desc : MapDesc} {store : MapStore} (made : MapStore.new desc = .ok store) :
    store.desc = desc ∧
    (desc.mapType = .hash → ∃ m : PartialStore store.desc,
      (∀ key, (m.entries.lookup key).map Subtype.val = desc.initial.entries.lookup key) ∧
      ∀ requests, (serve StoreData.step store.data requests).1 = (serve PartialStore.step m requests).1 ∧
        (serve StoreData.step store.data requests).2.Hashes (serve PartialStore.step m requests).2 ∧
        (serve StoreData.step store.data requests).2.WidthsHold) ∧
    (desc.mapType = .array → ∃ a : TotalStore store.desc,
      (∀ e ∈ desc.initial.entries, ∃ inside : TotalStore.indexOf e.1 < store.desc.maxEntries,
        (a ⟨TotalStore.indexOf e.1, inside⟩).val = e.2) ∧
      (∀ i, (∀ e ∈ desc.initial.entries, TotalStore.indexOf e.1 ≠ i.val) → a i = Sized.zero _) ∧
      ∀ requests, (serve StoreData.step store.data requests).1 = (serve TotalStore.step a requests).1 ∧
        (serve StoreData.step store.data requests).2.Slots (serve TotalStore.step a requests).2 ∧
        (serve StoreData.step store.data requests).2.WidthsHold) ∧
    ∀ requests request e,
      ((serve StoreData.step store.data requests).2.step request).1 = .error e →
        ((serve StoreData.step store.data requests).2.step request).2 =
          (serve StoreData.step store.data requests).2 := by
  obtain ⟨data, initial, rfl, built⟩ := new_ok made
  refine ⟨rfl, fun hash => ?_, fun array => ?_, fun _ _ _ => StoreData.step_atomic⟩
  · obtain ⟨m, contents, held⟩ := hash_initial built hash
    refine ⟨m, contents, fun requests => ?_⟩
    obtain ⟨same, held⟩ := hash_follows.serve requests (n := 0) held
    exact ⟨same, held, held.widthsHold⟩
  · obtain ⟨a, placed, zero, held⟩ := array_initial built array
    refine ⟨a, placed, zero, fun requests => ?_⟩
    obtain ⟨same, held⟩ := array_follows.serve requests (n := 0) held
    exact ⟨same, held, held.widthsHold⟩

/-- One entry of one byte. -/
def tinyHash : MapDesc :=
  { fd := 1, mapType := .hash, keySize := 1, valueSize := 1, maxEntries := 1, initial := .empty
    name := none }

/-- A second key finds a full hash map. -/
theorem tinyHash_full : ∃ m : PartialStore tinyHash,
    (serve PartialStore.step m [.update [1] [7] 0, .update [2] [8] 0]).1 =
      [.ok none, .error (.full 1)] := by
  obtain ⟨m, _, answers⟩ :=
    (hash_array_refine (show MapStore.new tinyHash = .ok ⟨tinyHash, .hash []⟩ from rfl)).2.1 rfl
  exact ⟨m, (answers _).1.symm.trans (by decide)⟩

end EbpfLab.Interp
