import Mathlib.Data.List.Induction
import Mathlib.Data.List.Nodup
import Mathlib.Data.List.Perm.Subperm

/-!
# Ordered maps

Key-value entries in increasing key order, at most one a key: what an ordered tree map iterates
over. Inserting a key above all others appends, so a map keyed by a growing counter is a queue.
-/

namespace EbpfLab.Library

variable {κ α : Type}

structure OrdMap (κ α : Type) [LT κ] where
  entries : List (κ × α)
  sorted : entries.Pairwise (·.1 < ·.1)
  deriving DecidableEq

/-- Insert in order, replacing an entry of the same key. -/
def insertEntry [LT κ] [DecidableLT κ] [DecidableEq κ] (key : κ) (value : α) :
    List (κ × α) → List (κ × α)
  | [] => [(key, value)]
  | (k, v) :: rest =>
    if key < k then (key, value) :: (k, v) :: rest
    else if key = k then (key, value) :: rest
    else (k, v) :: insertEntry key value rest

namespace OrdMap

section

variable [LT κ] {m : OrdMap κ α} {key : κ} {value : α}

def empty : OrdMap κ α := ⟨[], .nil⟩

def remove [DecidableEq κ] (m : OrdMap κ α) (key : κ) : OrdMap κ α :=
  ⟨m.entries.filter (·.1 ≠ key), m.sorted.filter _⟩

/-- The entry of the least key, and the map without it. -/
def popFirst (m : OrdMap κ α) : Option ((κ × α) × OrdMap κ α) :=
  match m with
  | ⟨[], _⟩ => none
  | ⟨first :: rest, sorted⟩ => some (first, ⟨rest, sorted.of_cons⟩)

@[simp] theorem entries_empty : (empty : OrdMap κ α).entries = [] := rfl

@[simp] theorem entries_remove [DecidableEq κ] :
    (m.remove key).entries = m.entries.filter (·.1 ≠ key) := rfl

theorem popFirst_eq_some {first : κ × α} {rest : OrdMap κ α} :
    m.popFirst = some (first, rest) ↔ m.entries = first :: rest.entries := by
  obtain ⟨entries, sorted⟩ := m
  obtain ⟨others, _⟩ := rest
  cases entries with
  | nil => simp [popFirst]
  | cons e es => simp [popFirst]

theorem popFirst_eq_none : m.popFirst = none ↔ m.entries = [] := by
  obtain ⟨entries, sorted⟩ := m
  cases entries <;> simp [popFirst]

/-- Two entries of one key are the same entry. -/
theorem entry_unique [Std.Irrefl (α := κ) (· < ·)] {a b : κ × α} (left : a ∈ m.entries)
    (right : b ∈ m.entries) (same : a.1 = b.1) : a = b := by
  have irreflexive : ∀ k : κ, ¬k < k := Std.Irrefl.irrefl
  have sorted := m.sorted
  generalize m.entries = entries at left right sorted
  induction sorted with
  | nil => cases left
  | @cons e es above _ ih =>
    rcases List.mem_cons.mp left with rfl | left'
    · rcases List.mem_cons.mp right with rfl | right'
      · rfl
      · exact absurd (same ▸ above b right') (irreflexive _)
    · rcases List.mem_cons.mp right with rfl | right'
      · exact absurd (same ▸ above a left') (irreflexive _)
      · exact ih left' right'

theorem keys_nodup [Std.Irrefl (α := κ) (· < ·)] (m : OrdMap κ α) : (m.entries.map Prod.fst).Nodup := by
  rw [List.Nodup, List.pairwise_map]
  refine m.sorted.imp fun below same => ?_
  rw [same] at below
  exact Std.Irrefl.irrefl (r := (· < · : κ → κ → Prop)) _ below

/-- Maps with the same entries in any order are the same. -/
theorem ext_perm [Std.Irrefl (α := κ) (· < ·)] [Trans (α := κ) (β := κ) (γ := κ) (· < ·) (· < ·) (· < ·)]
    {m m' : OrdMap κ α} (same : m.entries.Perm m'.entries) : m = m' := by
  obtain ⟨entries, sorted⟩ := m
  obtain ⟨entries', sorted'⟩ := m'
  have equal : entries = entries' := by
    refine List.Perm.eq_of_pairwise (fun a b _ _ below above => ?_) sorted sorted' same
    exact absurd (Trans.trans below above : a.1 < a.1) (Std.Irrefl.irrefl (r := (· < · : κ → κ → Prop)) _)
  subst equal
  rfl

end

section

variable [LT κ] [DecidableLT κ] [DecidableEq κ] {key : κ} {value : α}

theorem mem_insertEntry {e : κ × α} {entries : List (κ × α)}
    (present : e ∈ insertEntry key value entries) : e = (key, value) ∨ e ∈ entries := by
  induction entries with
  | nil => exact .inl (by simpa [insertEntry] using present)
  | cons first rest ih =>
    simp only [insertEntry] at present
    split at present
    · simpa using present
    · split at present
      · rcases List.mem_cons.mp present with here | later
        · exact .inl here
        · exact .inr (List.mem_cons_of_mem _ later)
      · rcases List.mem_cons.mp present with here | later
        · exact .inr (here ▸ List.mem_cons_self)
        · exact (ih later).imp_right (List.mem_cons_of_mem _)

theorem insertEntry_self {entries : List (κ × α)} : (key, value) ∈ insertEntry key value entries := by
  induction entries with
  | nil => exact List.mem_singleton.mpr rfl
  | cons first rest ih =>
    simp only [insertEntry]
    split
    · exact List.mem_cons_self
    · split
      · exact List.mem_cons_self
      · exact List.mem_cons_of_mem _ ih

/-- The entries of other keys stay. -/
theorem insertEntry_other {e : κ × α} {entries : List (κ × α)} (other : e.1 ≠ key) (present : e ∈ entries) :
    e ∈ insertEntry key value entries := by
  induction entries with
  | nil => cases present
  | cons first rest ih =>
    simp only [insertEntry]
    split
    · exact List.mem_cons_of_mem _ present
    · split
      · rename_i same
        rcases List.mem_cons.mp present with rfl | later
        · exact absurd same.symm other
        · exact List.mem_cons_of_mem _ later
      · rcases List.mem_cons.mp present with rfl | later
        · exact List.mem_cons_self
        · exact List.mem_cons_of_mem _ (ih later)

variable [Trans (α := κ) (β := κ) (γ := κ) (· < ·) (· < ·) (· < ·)]
  [Std.Trichotomous (α := κ) (· < ·)]

theorem sorted_insertEntry {entries : List (κ × α)} (sorted : entries.Pairwise (·.1 < ·.1)) :
    (insertEntry key value entries).Pairwise (·.1 < ·.1) := by
  induction sorted with
  | nil => exact List.pairwise_singleton _ _
  | @cons first rest above sorted ih =>
    simp only [insertEntry]
    split
    · rename_i below
      refine .cons (fun e present => ?_) (.cons above sorted)
      rcases List.mem_cons.mp present with rfl | later
      · exact below
      · exact Trans.trans below (above e later)
    · rename_i notBelow
      split
      · rename_i same
        exact .cons (fun e present => same ▸ above e present) sorted
      · rename_i apart
        refine .cons (fun e present => ?_) ih
        rcases mem_insertEntry present with rfl | later
        · rcases Std.Trichotomous.rel_or_eq_or_rel_swap (r := (· < ·)) (a := first.1) (b := key) with lt | eq | gt
          · exact lt
          · exact absurd eq.symm apart
          · exact absurd gt notBelow
        · exact above e later

def insert (m : OrdMap κ α) (key : κ) (value : α) : OrdMap κ α :=
  ⟨insertEntry key value m.entries, sorted_insertEntry m.sorted⟩

/-- A key above all others goes to the end. -/
theorem entries_insert_of_lt [Std.Irrefl (α := κ) (· < ·)] {m : OrdMap κ α}
    (above : ∀ e ∈ m.entries, e.1 < key) :
    (m.insert key value).entries = m.entries ++ [(key, value)] := by
  show insertEntry key value m.entries = _
  generalize m.entries = entries at above
  induction entries with
  | nil => rfl
  | cons first rest ih =>
    have lt := above first List.mem_cons_self
    have notBelow : ¬key < first.1 := fun below =>
      Std.Irrefl.irrefl (r := (· < · : κ → κ → Prop)) key (Trans.trans below lt)
    have apart : ¬key = first.1 := by
      rintro rfl
      exact notBelow lt
    rw [List.cons_append, ← ih fun e later => above e (List.mem_cons_of_mem _ later)]
    simp [insertEntry, notBelow, apart]

/-! ### Collecting entries -/

/-- Insert entries one after the other; the last of a key stays. -/
def ofList (entries : List (κ × α)) : OrdMap κ α := entries.foldl (fun m e => m.insert e.1 e.2) empty

theorem ofList_concat (entries : List (κ × α)) (e : κ × α) :
    ofList (entries ++ [e]) = (ofList entries).insert e.1 e.2 := by
  unfold ofList
  rw [List.foldl_append]
  rfl

theorem mem_of_mem_ofList {entries : List (κ × α)} {e : κ × α} (present : e ∈ (ofList entries).entries) :
    e ∈ entries := by
  induction entries using List.reverseRecOn with
  | nil => exact absurd present List.not_mem_nil
  | append_singleton entries last ih =>
    rw [ofList_concat] at present
    rcases mem_insertEntry present with rfl | earlier
    · exact List.mem_append_right _ List.mem_cons_self
    · exact List.mem_append_left _ (ih earlier)

theorem key_mem_ofList {entries : List (κ × α)} {e : κ × α} (present : e ∈ entries) :
    e.1 ∈ (ofList entries).entries.map Prod.fst := by
  induction entries using List.reverseRecOn with
  | nil => cases present
  | append_singleton entries last ih =>
    rw [ofList_concat]
    by_cases same : e.1 = last.1
    · exact List.mem_map.mpr ⟨_, insertEntry_self, same.symm⟩
    · rcases List.mem_append.mp present with earlier | here
      · obtain ⟨found, there, key⟩ := List.mem_map.mp (ih earlier)
        exact List.mem_map.mpr ⟨found, insertEntry_other (by rwa [key]) there, key⟩
      · exact absurd (congrArg Prod.fst (List.mem_singleton.mp here)) same

variable [Std.Irrefl (α := κ) (· < ·)]

/-- Entries of distinct keys are all kept. -/
theorem ofList_perm {entries : List (κ × α)} (distinct : (entries.map Prod.fst).Nodup) :
    (ofList entries).entries.Perm entries := by
  refine (List.perm_ext_iff_of_nodup (List.Nodup.of_map _ (keys_nodup _)) (List.Nodup.of_map _ distinct)).mpr
    fun e => ⟨mem_of_mem_ofList, fun present => ?_⟩
  obtain ⟨found, there, key⟩ := List.mem_map.mp (key_mem_ofList present)
  obtain rfl := List.inj_on_of_nodup_map distinct (mem_of_mem_ofList there) present key
  exact there

/-- Nothing is lost exactly when the keys are distinct. -/
theorem ofList_length {entries : List (κ × α)} :
    (ofList entries).entries.length = entries.length ↔ (entries.map Prod.fst).Nodup := by
  refine ⟨fun long => ?_, fun distinct => (ofList_perm distinct).length_eq⟩
  have inside : (ofList entries).entries.map Prod.fst ⊆ entries.map Prod.fst := fun key listed => by
    obtain ⟨e, there, rfl⟩ := List.mem_map.mp listed
    exact List.mem_map.mpr ⟨e, mem_of_mem_ofList there, rfl⟩
  have sub := (List.Nodup.subperm (keys_nodup (ofList entries)) inside)
  exact (sub.perm_of_length_le (by simp [long])).nodup_iff.mp (keys_nodup _)

end

end OrdMap

end EbpfLab.Library
