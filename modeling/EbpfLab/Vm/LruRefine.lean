import EbpfLab.Vm.MapRefine

/-!
# LRU stores follow a recency list

The recency index lists the keys in the order of their stamps. As long as the counter does not wrap,
a fresh stamp is above all others, so touching a key moves it to the end of the list and the least
stamp belongs to the key touched longest ago.
-/

namespace EbpfLab.Interp
open Isa Library

/-! ### The recency index -/

/-- The index orders `keys` by their stamps, all below the next one. -/
structure Stamped (stamps : OrdMap UInt64 Bytes) (stampOf : Entries UInt64) (seq : UInt64)
    (keys : List Bytes) : Prop where
  order : stamps.entries.map Prod.snd = keys
  below : ∀ e ∈ stamps.entries, e.1 < seq
  stamped : ∀ key stamp, stampOf.get key = some stamp ↔ (stamp, key) ∈ stamps.entries

namespace Stamped

variable {stamps : OrdMap UInt64 Bytes} {stampOf : Entries UInt64} {seq : UInt64}
  {keys : List Bytes} {key : Bytes}

theorem empty : Stamped .empty [] 0 [] := ⟨rfl, nofun, by simp [Entries.get]⟩

theorem toNat_succ (room : seq.toNat + 1 < 2 ^ 64) : (seq + 1).toNat = seq.toNat + 1 := by
  rw [UInt64.toNat_add, show (1 : UInt64).toNat = 1 from rfl]
  omega

/-- The next stamp is above the current one unless the counter wraps. -/
theorem lt_succ (room : seq.toNat + 1 < 2 ^ 64) : seq < seq + 1 := by
  rw [UInt64.lt_iff_toNat_lt, toNat_succ room]
  exact Nat.lt_succ_self _

theorem push (held : Stamped stamps stampOf seq keys) (fresh : key ∉ keys)
    (room : seq.toNat + 1 < 2 ^ 64) :
    Stamped (stamps.insert seq key) (stampOf.insert key seq) (seq + 1) (keys ++ [key]) := by
  have entries : (stamps.insert seq key).entries = stamps.entries ++ [(seq, key)] :=
    OrdMap.entries_insert_of_lt held.below
  refine ⟨by rw [entries, List.map_append, held.order]; rfl, ?_, ?_⟩
  · intro e present
    rw [entries, List.mem_append, List.mem_singleton] at present
    rcases present with old | rfl
    · exact UInt64.lt_trans (held.below e old) (lt_succ room)
    · exact lt_succ room
  · intro k stamp
    rw [entries, List.mem_append, List.mem_singleton, Entries.get_insert]
    by_cases here : k = key
    · subst here
      have absent : (stamp, k) ∉ stamps.entries := fun present =>
        fresh (held.order ▸ List.mem_map.mpr ⟨_, present, rfl⟩)
      simp [absent, eq_comm]
    · simp [here, held.stamped]

theorem entries_unstamp (held : Stamped stamps stampOf seq keys) :
    (unstamp stamps stampOf key).entries = stamps.entries.filter (·.2 ≠ key) := by
  unfold unstamp
  cases stamp : stampOf.get key with
  | none =>
    refine (List.filter_eq_self.mpr fun e present => ?_).symm
    have unstamped := (held.stamped key e.1).not.mp (by simp [stamp])
    simp only [ne_eq, decide_not, Bool.not_eq_eq_eq_not, Bool.not_true, decide_eq_false_iff_not]
    rintro rfl
    exact unstamped present
  | some old =>
    have here := (held.stamped key old).mp stamp
    rw [OrdMap.entries_remove]
    refine List.filter_congr fun e present => ?_
    have same : e.1 = old ↔ e.2 = key := by
      constructor
      · intro equal
        rw [OrdMap.entry_unique present here equal]
      · rintro rfl
        exact Option.some.inj (((held.stamped e.2 e.1).mpr present).symm.trans stamp)
    simp [same]

theorem remove (held : Stamped stamps stampOf seq keys) :
    Stamped (unstamp stamps stampOf key) (stampOf.remove key) seq (keys.filter (· ≠ key)) := by
  refine ⟨?_, ?_, ?_⟩
  · rw [held.entries_unstamp, ← held.order, List.filter_map]
    rfl
  · intro e present
    rw [held.entries_unstamp] at present
    exact held.below e (List.mem_of_mem_filter present)
  · intro k stamp
    rw [held.entries_unstamp, Entries.get_remove, List.mem_filter]
    by_cases here : k = key <;> simp [here, held.stamped]

/-- Touching a key moves it to the end. -/
theorem touch (held : Stamped stamps stampOf seq keys) (room : seq.toNat + 1 < 2 ^ 64) :
    Stamped (lruTouch stamps stampOf seq key).1 (lruTouch stamps stampOf seq key).2.1
      (lruTouch stamps stampOf seq key).2.2 (keys.filter (· ≠ key) ++ [key]) := by
  have twice : (stampOf.remove key).insert key seq = stampOf.insert key seq := by
    simp [Entries.insert, Entries.remove]
  have removed : Stamped (unstamp stamps stampOf key) (stampOf.remove key) seq
      (keys.filter (· ≠ key)) := held.remove
  have absent : key ∉ keys.filter (· ≠ key) := by simp
  have pushed := removed.push absent room
  rwa [twice] at pushed

/-- The least stamp belongs to the first key. -/
theorem pop {oldest : UInt64} {rest : OrdMap UInt64 Bytes} (held : Stamped stamps stampOf seq keys)
    (distinct : keys.Nodup) (popped : stamps.popFirst = some ((oldest, key), rest)) :
    ∃ others, keys = key :: others ∧ Stamped rest (stampOf.remove key) seq others := by
  have entries := OrdMap.popFirst_eq_some.mp popped
  have split : keys = key :: rest.entries.map Prod.snd := by rw [← held.order, entries]; rfl
  rw [split, List.nodup_cons] at distinct
  refine ⟨_, split, rfl, ?_, ?_⟩
  · exact fun e present => held.below e (entries ▸ List.mem_cons_of_mem _ present)
  · intro k stamp
    rw [Entries.get_remove]
    by_cases here : k = key
    · subst here
      have gone : (stamp, k) ∉ rest.entries := fun present =>
        distinct.1 (List.mem_map.mpr ⟨_, present, rfl⟩)
      simp [gone]
    · rw [if_neg here, held.stamped, entries]
      simp [here]

theorem stampInitial {α : Type} {rest : List (Bytes × α)} (held : Stamped stamps stampOf seq keys)
    (distinct : (keys ++ rest.map Prod.fst).Nodup) (room : seq.toNat + rest.length < 2 ^ 64)
    {stamps' : OrdMap UInt64 Bytes} {stampOf' : Entries UInt64} {seq' : UInt64}
    (run : MapStore.stampInitial rest stamps stampOf seq = (stamps', stampOf', seq')) :
    Stamped stamps' stampOf' seq' (keys ++ rest.map Prod.fst) ∧
      seq'.toNat = seq.toNat + rest.length := by
  induction rest generalizing stamps stampOf seq keys with
  | nil =>
    cases run
    simpa using held
  | cons e rest ih =>
    obtain ⟨k, v⟩ := e
    rw [List.length_cons] at room
    have fresh : k ∉ keys := by
      intro present
      exact (List.nodup_append.mp distinct).2.2 k present k (by simp) rfl
    have step : (seq + 1).toNat = seq.toNat + 1 := toNat_succ (by omega)
    obtain ⟨all, count⟩ := ih (held.push fresh (by omega)) (by simpa using distinct) (by omega) run
    rw [List.length_cons]
    exact ⟨by simpa using all, by omega⟩

end Stamped

/-! ### Recency lists -/

namespace RecencyList

variable {desc : MapDesc} {l : RecencyList desc} {key k : Bytes} {value : Sized desc.valueSize}

theorem mem_keys_iff : key ∈ l.keys ↔ (l.pairs.lookup key).isSome = true := Entries.mem_keys

theorem lookup_remove :
    (l.remove key).pairs.lookup k = if k = key then none else l.pairs.lookup k := by
  have removed : (l.remove key).pairs = Entries.remove l.pairs key :=
    List.filter_congr fun e _ => by by_cases here : e.1 = key <;> simp [here]
  rw [removed]
  exact Entries.get_remove

theorem lookup_place {room : (l.remove key).pairs.length < desc.maxEntries} :
    (l.place key value room).pairs.lookup k = if k = key then some value else l.pairs.lookup k := by
  show List.lookup k ((l.remove key).pairs ++ [(key, value)]) = _
  rw [List.lookup_append, lookup_remove]
  by_cases here : k = key
  · subst here
    simp
  · have other : (k == key) = false := beq_eq_false_iff_ne.mpr here
    simp [here, List.lookup_cons, other]

theorem keys_remove : (l.remove key).keys = l.keys.filter (· ≠ key) := by
  unfold keys
  rw [List.filter_map]
  rfl

theorem keys_place {room : (l.remove key).pairs.length < desc.maxEntries} :
    (l.place key value room).keys = l.keys.filter (· ≠ key) ++ [key] := by
  rw [← keys_remove]
  show List.map Prod.fst ((l.remove key).pairs ++ [(key, value)]) = _
  rw [List.map_append]
  rfl

theorem lookup_evict {oldest : Bytes} {others : List Bytes} (split : l.keys = oldest :: others) :
    l.evict.pairs.lookup k = if k = oldest then none else l.pairs.lookup k := by
  have distinct := l.distinct
  unfold keys at split
  show List.lookup k l.pairs.tail = _
  cases pairs : l.pairs with
  | nil => simp [pairs] at split
  | cons e rest =>
    obtain ⟨k', v⟩ := e
    rw [pairs, List.map_cons] at split distinct
    obtain ⟨rfl, _⟩ := List.cons.inj split
    have head : List.lookup k ((k', v) :: rest) = if k = k' then some v else List.lookup k rest :=
      Entries.get_cons rest
    rw [List.tail_cons, head]
    by_cases here : k = k'
    · subst here
      have absent := (List.nodup_cons.mp distinct).1
      rw [Entries.mem_keys, Bool.not_eq_true, Option.isSome_eq_false_iff, Option.isNone_iff_eq_none]
        at absent
      rw [if_pos rfl]
      exact absent
    · simp [here]

end RecencyList

/-! ### Stores -/

variable {desc : MapDesc} {data : Entries (Sized desc.valueSize)} {stamps : OrdMap UInt64 Bytes}
  {stampOf : Entries UInt64} {seq : UInt64} {l : RecencyList desc} {key : Bytes}

/-- Entries and recency index that stand for a recency list. -/
structure Recent (data : Entries (Sized desc.valueSize)) (stamps : OrdMap UInt64 Bytes)
    (stampOf : Entries UInt64) (seq : UInt64) (l : RecencyList desc) : Prop where
  distinct : (data.map Prod.fst).Nodup
  same : ∀ key, data.get key = l.pairs.lookup key
  index : Stamped stamps stampOf seq l.keys

namespace Recent

theorem present_iff (held : Recent data stamps stampOf seq l) :
    (data.get key).isSome = true ↔ key ∈ l.keys := by
  rw [held.same, RecencyList.mem_keys_iff]

theorem length_eq (held : Recent data stamps stampOf seq l) : data.length = l.pairs.length := by
  have keys : (data.map Prod.fst).Perm l.keys := by
    refine (List.perm_ext_iff_of_nodup held.distinct l.distinct).mpr fun k => ?_
    rw [Entries.mem_keys]
    exact held.present_iff
  simpa [RecencyList.keys] using keys.length_eq

/-- Touching a key, with its value written anew. -/
theorem touch (held : Recent data stamps stampOf seq l) {data' : Entries (Sized desc.valueSize)}
    {value : Sized desc.valueSize} (distinct : (data'.map Prod.fst).Nodup)
    (written : ∀ k, data'.get k = if k = key then some value else data.get k)
    (room : (l.remove key).pairs.length < desc.maxEntries) (unwrapped : seq.toNat + 1 < 2 ^ 64) :
    Recent data' (lruTouch stamps stampOf seq key).1 (lruTouch stamps stampOf seq key).2.1
      (lruTouch stamps stampOf seq key).2.2 (l.place key value room) := by
  refine ⟨distinct, fun k => ?_, ?_⟩
  · rw [written, RecencyList.lookup_place, held.same]
  · rw [RecencyList.keys_place]
    exact held.index.touch unwrapped

theorem remove (held : Recent data stamps stampOf seq l) :
    Recent (data.remove key) (unstamp stamps stampOf key) (stampOf.remove key) seq (l.remove key) := by
  refine ⟨Entries.nodup_remove held.distinct, fun k => ?_, ?_⟩
  · rw [Entries.get_remove, RecencyList.lookup_remove, held.same]
  · rw [RecencyList.keys_remove]
    exact held.index.remove

/-- Eviction drops the least stamp, which is that of the first pair. -/
theorem evict (held : Recent data stamps stampOf seq l) {oldest : UInt64} {old : Bytes}
    {rest : OrdMap UInt64 Bytes} (popped : stamps.popFirst = some ((oldest, old), rest)) :
    Recent (data.remove old) rest (stampOf.remove old) seq l.evict := by
  obtain ⟨others, split, index⟩ := held.index.pop l.distinct popped
  refine ⟨Entries.nodup_remove held.distinct, fun k => ?_, ?_⟩
  · rw [Entries.get_remove, RecencyList.lookup_evict split, held.same]
  · have tail : l.evict.keys = others := by
      show List.map Prod.fst l.pairs.tail = others
      rw [List.map_tail, show List.map Prod.fst l.pairs = l.keys from rfl, split, List.tail_cons]
    rw [tail]
    exact index

end Recent

/-- An LRU store with a counter that survives `n` more touches, and its recency list. -/
def StoreData.Recents (n : Nat) : StoreData desc → RecencyList desc → Prop
  | .lruArray data stamps stampOf seq, l => Recent data stamps stampOf seq l ∧ seq.toNat + n < 2 ^ 64
  | _, _ => False

section

variable {n : Nat}

/-- A touched store survives one touch less. -/
theorem Recent.touched (held : Recent data stamps stampOf seq l)
    {data' : Entries (Sized desc.valueSize)} {value : Sized desc.valueSize}
    (distinct : (data'.map Prod.fst).Nodup)
    (written : ∀ k, data'.get k = if k = key then some value else data.get k)
    (able : (l.remove key).pairs.length < desc.maxEntries) (room : seq.toNat + (n + 1) < 2 ^ 64) :
    (StoreData.lruArray data' (lruTouch stamps stampOf seq key).1
      (lruTouch stamps stampOf seq key).2.1 (lruTouch stamps stampOf seq key).2.2).Recents n
        (l.place key value able) := by
  refine ⟨held.touch distinct written able (by omega), ?_⟩
  show (seq + 1).toNat + n < 2 ^ 64
  rw [Stamped.toNat_succ (by omega)]
  omega

theorem lru_lookup (held : Recent data stamps stampOf seq l) (room : seq.toNat + (n + 1) < 2 ^ 64)
    (key : Bytes) :
    ((StoreData.lruArray data stamps stampOf seq).step (.lookup key)).1 = (l.step (.lookup key)).1 ∧
      ((StoreData.lruArray data stamps stampOf seq).step (.lookup key)).2.Recents n
        (l.step (.lookup key)).2 := by
  have kept : (StoreData.lruArray data stamps stampOf seq).Recents n l := ⟨held, by omega⟩
  simp only [StoreData.step, InPlace.exec_lookup, MapStore.lookup, RecencyList.step, checkKey]
  by_cases fits : key.length = desc.keySize
  · simp only [fits, if_true, ok_bind]
    cases found : data.get key with
    | none =>
      have absent : key ∉ l.keys := by
        rw [← held.present_iff, found]
        simp
      rw [dif_neg absent]
      exact ⟨rfl, kept⟩
    | some v =>
      have present : key ∈ l.keys := by
        rw [← held.present_iff, found]
        rfl
      have value : l.pairs.lookup key = some v := (held.same key).symm.trans found
      have written : ∀ k, data.get k = if k = key then some v else data.get k := by
        intro k
        by_cases here : k = key <;> simp [here, found]
      rw [dif_pos present]
      simp only [value]
      exact ⟨rfl, held.touched held.distinct written _ room⟩
  · simp only [fits, if_false]
    exact ⟨rfl, kept⟩

theorem lru_delete (held : Recent data stamps stampOf seq l) (room : seq.toNat + (n + 1) < 2 ^ 64)
    (key : Bytes) :
    ((StoreData.lruArray data stamps stampOf seq).step (.delete key)).1 = (l.step (.delete key)).1 ∧
      ((StoreData.lruArray data stamps stampOf seq).step (.delete key)).2.Recents n
        (l.step (.delete key)).2 := by
  have kept : (StoreData.lruArray data stamps stampOf seq).Recents n l := ⟨held, by omega⟩
  simp only [StoreData.step, InPlace.exec_delete, MapStore.delete, RecencyList.step, checkKey]
  by_cases fits : key.length = desc.keySize
  · simp only [fits, if_true, ok_bind]
    cases found : data.get key with
    | none =>
      have absent : key ∉ l.keys := by
        rw [← held.present_iff, found]
        simp
      rw [if_neg absent]
      exact ⟨rfl, kept⟩
    | some v =>
      have present : key ∈ l.keys := by
        rw [← held.present_iff, found]
        rfl
      rw [if_pos present]
      exact ⟨rfl, held.remove, by omega⟩
  · simp only [fits, if_false]
    exact ⟨rfl, kept⟩

theorem lru_update (held : Recent data stamps stampOf seq l) (room : seq.toNat + (n + 1) < 2 ^ 64)
    (key value : Bytes) (flags : Nat) :
    ((StoreData.lruArray data stamps stampOf seq).step (.update key value flags)).1 =
        (l.step (.update key value flags)).1 ∧
      ((StoreData.lruArray data stamps stampOf seq).step (.update key value flags)).2.Recents n
        (l.step (.update key value flags)).2 := by
  have kept : (StoreData.lruArray data stamps stampOf seq).Recents n l := ⟨held, by omega⟩
  simp only [StoreData.step, InPlace.exec_update, MapStore.update, RecencyList.step]
  by_cases unknown : 2 < flags
  · rw [tryFrom_unknown unknown, if_pos unknown]
    exact ⟨rfl, kept⟩
  obtain ⟨flag, known, noExist, exist⟩ := tryFrom_known unknown
  rw [known, if_neg unknown]
  simp only [ok_bind, checkKey, checkValue]
  by_cases fits : key.length = desc.keySize
  · simp only [fits, if_true, ok_bind]
    by_cases sized : value.length = desc.valueSize
    · simp only [sized, dif_pos, ok_bind, checkUpdateFlags_eq, held.present_iff, noExist, exist,
        held.length_eq, Bool.not_eq_true', ← Bool.not_eq_true]
      split
      · exact ⟨rfl, kept⟩
      · split
        · exact ⟨rfl, kept⟩
        · simp only [ok_bind]
          by_cases able : key ∈ l.keys ∨ l.pairs.length < desc.maxEntries
          · have spare : ¬(key ∉ l.keys ∧ l.pairs.length ≥ desc.maxEntries) := by
              rcases able with present | short
              · exact fun full => full.1 present
              · exact fun full => absurd full.2 (Nat.not_le.mpr short)
            rw [if_neg spare, dif_pos able]
            exact ⟨rfl, held.touched (Entries.nodup_insert held.distinct)
              (fun k => Entries.get_insert) (RecencyList.room able) room⟩
          · have full : key ∉ l.keys ∧ l.pairs.length ≥ desc.maxEntries :=
              ⟨fun present => able (.inl present), Nat.not_lt.mp fun short => able (.inr short)⟩
            rw [if_pos full, dif_neg able]
            cases popped : stamps.popFirst with
            | none =>
              -- a full list is not empty, so there is a pair to evict
              have empty : l.keys = [] := by
                rw [← held.index.order, OrdMap.popFirst_eq_none.mp popped]
                rfl
              have none_left : l.pairs = [] := List.map_eq_nil_iff.mp empty
              rw [none_left] at full
              exact absurd l.positive (Nat.not_lt.mpr full.2)
            | some found =>
              obtain ⟨⟨oldest, old⟩, rest⟩ := found
              have evicted := held.evict popped
              exact ⟨rfl, evicted.touched (Entries.nodup_insert evicted.distinct)
                (fun k => Entries.get_insert) RecencyList.room_evict room⟩
    · simp only [sized, dif_neg, not_false_eq_true]
      exact ⟨rfl, kept⟩
  · simp only [fits, if_false]
    exact ⟨rfl, kept⟩

end

/-- An LRU store answers as its recency list, one touch after another. -/
theorem lru_follows : Follows (@StoreData.Recents desc) StoreData.step RecencyList.step := by
  intro n s l request held
  cases s with
  | lruArray data stamps stampOf seq =>
    cases request with
    | lookup key => exact lru_lookup held.1 held.2 key
    | update key value flags => exact lru_update held.1 held.2 key value flags
    | delete key => exact lru_delete held.1 held.2 key
  | hash data => exact absurd held id
  | array slots => exact absurd held id

/-- An LRU store starts as the listed entries in key order, the largest key most recent. -/
theorem lru_initial {store : StoreData desc} {initial : List (Bytes × Sized desc.valueSize)}
    (built : Built desc store initial) (lru : desc.mapType = .lruArray) :
    ∃ l : RecencyList desc, l.pairs = initial ∧
      ∀ n, desc.maxEntries + n < 2 ^ 64 → store.Recents n l := by
  obtain ⟨listed, keySized, bounded, positive, arrayKey, data⟩ := built
  have distinct := initial_distinct listed
  refine ⟨⟨initial, distinct, bounded, positive⟩, rfl, fun n room => ?_⟩
  cases data with
  | hash other | array other _ => rw [lru] at other; cases other
  | lruArray _ stamped =>
    obtain ⟨index, count⟩ := Stamped.empty.stampInitial (by simpa using distinct)
      (by rw [show (0 : UInt64).toNat = 0 from rfl]; omega) stamped
    refine ⟨⟨distinct, fun _ => rfl, by simpa [RecencyList.keys] using index⟩, ?_⟩
    rw [count, show (0 : UInt64).toNat = 0 from rfl]
    omega

/-- An LRU map answers every sequence of requests its counter survives as a recency list, which
starts with the entries the descriptor lists; a failed request changes nothing. -/
theorem lru_refine {desc : MapDesc} {store : MapStore} (made : MapStore.new desc = .ok store)
    (lru : desc.mapType = .lruArray) :
    store.desc = desc ∧ ∃ l : RecencyList store.desc,
      l.pairs.map (fun e => (e.1, e.2.val)) = desc.initial.entries ∧
      ∀ requests, requests.length < 2 ^ 64 - desc.maxEntries →
        (serve StoreData.step store.data requests).1 = (serve RecencyList.step l requests).1 ∧
        (serve StoreData.step store.data requests).2.Recents 0 (serve RecencyList.step l requests).2 ∧
        ∀ request e, ((serve StoreData.step store.data requests).2.step request).1 = .error e →
          ((serve StoreData.step store.data requests).2.step request).2 =
            (serve StoreData.step store.data requests).2 := by
  obtain ⟨data, initial, rfl, built⟩ := new_ok made
  obtain ⟨l, contents, held⟩ := lru_initial built lru
  refine ⟨rfl, l, contents ▸ built.listed, fun requests few => ?_⟩
  obtain ⟨same, related⟩ := lru_follows.serve requests (n := 0) (held (requests.length + 0) (by omega))
  exact ⟨same, related, fun _ _ => StoreData.step_atomic⟩

/-- Two slots, with keys 1 and 2 from the start. -/
def tinyLru : MapDesc :=
  { fd := 1, mapType := .lruArray, keySize := 1, valueSize := 1, maxEntries := 2
    initial := ⟨[([1], [7]), ([2], [8])], by decide⟩, name := none }

/-- Touching key 1 makes key 2 the one a third key evicts. -/
theorem tinyLru_evicts : ∃ l : RecencyList tinyLru,
    (serve RecencyList.step l [.lookup [1], .update [3] [9] 0, .lookup [2], .lookup [1]]).1 =
      [.ok (some [7]), .ok none, .ok none, .ok (some [7])] := by
  have made : MapStore.new tinyLru = .ok ⟨tinyLru, .lruArray [([1], ⟨[7], rfl⟩), ([2], ⟨[8], rfl⟩)]
      ⟨[(0, [1]), (1, [2])], by decide⟩ [([2], 1), ([1], 0)] 2⟩ := rfl
  obtain ⟨_, l, _, answers⟩ := lru_refine made rfl
  exact ⟨l, (answers _ (by decide)).1.symm.trans (by decide)⟩

end EbpfLab.Interp
