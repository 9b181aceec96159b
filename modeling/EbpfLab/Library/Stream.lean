import Mathlib.Algebra.GroupWithZero.Nat
import Mathlib.Data.List.Forall2
import EbpfLab.Library.Outcome

/-!
# Byte streams

Little-endian words, and the reading loop of a stream format: an item reader looks at what remains
and says how much of it the item took.
-/

namespace EbpfLab.Library

/-! ### Little-endian words -/

/-- A shifted word beside a narrower one. -/
theorem or_beside {i low : Nat} (narrow : low < 2 ^ i) (high : Nat) : high * 2 ^ i ||| low = low + 2 ^ i * high := by
  rw [Nat.mul_comm high, ← Nat.two_pow_add_eq_or_of_lt narrow, Nat.add_comm]

/-- The number a little-endian byte string denotes. -/
def leNat : List UInt8 → Nat
  | [] => 0
  | byte :: rest => byte.toNat + 256 * leNat rest

/-- The low `width` bytes of a number, least significant first. -/
def leDigits : Nat → Nat → List UInt8
  | 0, _ => []
  | width + 1, n => UInt8.ofNat (n % 256) :: leDigits width (n / 256)

@[simp] theorem length_leDigits (width n : Nat) : (leDigits width n).length = width := by
  induction width generalizing n with
  | zero => rfl
  | succ width ih => simp [leDigits, ih]

/-- Digits hold the low part of a number. -/
theorem leNat_leDigits_mod (width n : Nat) : leNat (leDigits width n) = n % 256 ^ width := by
  induction width generalizing n with
  | zero => exact (Nat.mod_one n).symm
  | succ width ih =>
    have low : (UInt8.ofNat (n % 256)).toNat = n % 256 := by simp
    rw [leDigits, leNat, ih, low, Nat.pow_succ', Nat.mod_mul]

/-- Enough digits hold the whole number. -/
theorem leNat_leDigits {width n : Nat} (fits : n < 256 ^ width) : leNat (leDigits width n) = n := by
  rw [leNat_leDigits_mod, Nat.mod_eq_of_lt fits]

theorem leNat_append (bytes others : List UInt8) :
    leNat (bytes ++ others) = leNat bytes + 256 ^ bytes.length * leNat others := by
  induction bytes with
  | nil => simp [leNat]
  | cons b bytes ih =>
    rw [List.cons_append, leNat, leNat, ih, List.length_cons, Nat.pow_succ', Nat.mul_add, Nat.add_assoc,
      Nat.mul_assoc]

theorem leNat_lt (bytes : List UInt8) : leNat bytes < 256 ^ bytes.length := by
  induction bytes with
  | nil => exact Nat.one_pos
  | cons b bytes ih =>
    have small := b.toNat_lt
    rw [leNat, List.length_cons, Nat.pow_succ']
    omega

/-- The digits of what a byte string denotes are its bytes. -/
theorem leDigits_leNat (bytes : List UInt8) : leDigits bytes.length (leNat bytes) = bytes := by
  induction bytes with
  | nil => rfl
  | cons b bytes ih =>
    have small := b.toNat_lt
    have low : (b.toNat + 256 * leNat bytes) % 256 = b.toNat := by omega
    have high : (b.toNat + 256 * leNat bytes) / 256 = leNat bytes := by omega
    rw [leNat, List.length_cons, leDigits, low, high, ih, UInt8.ofNat_toNat]

theorem leDigits_add (width more n : Nat) :
    leDigits (width + more) n = leDigits width n ++ leDigits more (n / 256 ^ width) := by
  induction width generalizing n with
  | zero => simp [leDigits]
  | succ width ih =>
    rw [Nat.succ_add, leDigits, leDigits, ih, List.cons_append, Nat.div_div_eq_div_mul, ← Nat.pow_succ']

theorem leDigits_mod (width n : Nat) : leDigits width (n % 256 ^ width) = leDigits width n := by
  have same := leDigits_leNat (leDigits width n)
  rwa [length_leDigits, leNat_leDigits_mod] at same

/-- The number with the low bytes of another in reverse order. -/
def reversedNat (width n : Nat) : Nat := leNat (leDigits width n).reverse

theorem reversedNat_lt (width n : Nat) : reversedNat width n < 256 ^ width := by
  have bound := leNat_lt (leDigits width n).reverse
  rwa [List.length_reverse, length_leDigits] at bound

theorem reversedNat_mod (width n : Nat) : reversedNat width (n % 256 ^ width) = reversedNat width n := by
  rw [reversedNat, leDigits_mod, reversedNat]

/-- Reversing the low part and the high part exchanges them. -/
theorem reversedNat_add (width more n : Nat) :
    reversedNat (width + more) n = reversedNat more (n / 256 ^ width) + 256 ^ more * reversedNat width n := by
  rw [reversedNat, leDigits_add, List.reverse_append, leNat_append, List.length_reverse, length_leDigits]
  rfl

theorem reversedNat_reversedNat (width n : Nat) : reversedNat width (reversedNat width n) = n % 256 ^ width := by
  have digits := leDigits_leNat (leDigits width n).reverse
  rw [List.length_reverse, length_leDigits] at digits
  rw [reversedNat, reversedNat, digits, List.reverse_reverse, leNat_leDigits_mod]

/-! ### Reading a stream -/

variable {α β ε : Type}

/-- Read items until the stream ends, skipping first what an item before has taken. -/
def readAll (item : List β → Except ε (α × Nat)) : List β → Nat → Except ε (List α)
  | [], _ => .ok []
  | _ :: rest, skip + 1 => readAll item rest skip
  | b :: rest, 0 => do
    let (a, consumed) ← item (b :: rest)
    let out ← readAll item rest (consumed - 1)
    return a :: out

/-- A chunk of the stream that the reader takes whole, whatever follows, as the item `a`. -/
def Reads (item : List β → Except ε (α × Nat)) (chunk : List β) (a : α) : Prop :=
  chunk ≠ [] ∧ ∀ rest, item (chunk ++ rest) = .ok (a, chunk.length)

theorem readAll_skip (item : List β → Except ε (α × Nat)) (chunk rest : List β) :
    readAll item (chunk ++ rest) chunk.length = readAll item rest 0 := by
  induction chunk with
  | nil => rfl
  | cons b chunk ih => exact ih

theorem readAll_append {item : List β → Except ε (α × Nat)} {chunk : List β} {a : α}
    (reads : Reads item chunk a) (rest : List β) :
    readAll item (chunk ++ rest) 0 = (readAll item rest 0).map (a :: ·) := by
  obtain ⟨nonempty, read⟩ := reads
  cases chunk with
  | nil => exact absurd rfl nonempty
  | cons b chunk =>
    have taken := read rest
    rw [List.cons_append] at taken ⊢
    rw [readAll, taken]
    change (readAll item (chunk ++ rest) chunk.length).bind _ = _
    rw [readAll_skip]
    cases readAll item rest 0 <;> rfl

/-- A stream of chunks reads back as their items. -/
theorem readAll_flatten {item : List β → Except ε (α × Nat)} {chunks : List (List β)}
    {items : List α} (reads : List.Forall₂ (Reads item) chunks items) :
    readAll item chunks.flatten 0 = .ok items := by
  induction reads with
  | nil => rfl
  | cons head _ ih =>
    rw [List.flatten_cons, readAll_append head, ih]
    rfl

/-! ### The loop's states -/

/-- Where the reading loop stands and what it has read. -/
inductive Reading (item : List β → Except ε (α × Nat)) (stream : List β) : Nat → List α → Prop where
  | start : Reading item stream 0 []
  | next {place consumed : Nat} {out : List α} {a : α} (reading : Reading item stream place out)
      (inside : place < stream.length) (read : item (stream.drop place) = .ok (a, consumed)) :
      Reading item stream (place + consumed) (out ++ [a])

theorem readAll_drop (item : List β → Except ε (α × Nat)) (stream : List β) (skip : Nat) :
    readAll item stream skip = readAll item (stream.drop skip) 0 := by
  induction stream generalizing skip with
  | nil => rw [List.drop_nil, readAll, readAll]
  | cons b stream ih =>
    cases skip with
    | zero => rfl
    | succ skip => exact ih skip

section

variable {item : List β → Except ε (α × Nat)} {stream : List β} {items out : List α} {place : Nat}

/-- A stream that is read and goes on starts with an item. -/
theorem readAll_next (advances : ∀ s a n, item s = .ok (a, n) → 0 < n) (inside : place < stream.length)
    (accepted : readAll item (stream.drop place) 0 = .ok items) :
    ∃ a consumed rest, item (stream.drop place) = .ok (a, consumed) ∧ items = a :: rest ∧
      readAll item (stream.drop (place + consumed)) 0 = .ok rest := by
  rw [List.drop_eq_getElem_cons inside, readAll] at accepted
  obtain ⟨⟨a, consumed⟩, read, accepted⟩ := bind_eq_ok.mp accepted
  obtain ⟨rest, tail, accepted⟩ := bind_eq_ok.mp accepted
  cases accepted
  rw [← List.drop_eq_getElem_cons inside] at read
  have positive := advances _ _ _ read
  refine ⟨a, consumed, rest, read, rfl, ?_⟩
  have onward : place + consumed = place + 1 + (consumed - 1) := by omega
  rw [onward, ← List.drop_drop, ← readAll_drop]
  exact tail

/-- What the loop has still to read is what it reads of the rest of the stream. -/
theorem Reading.rest (advances : ∀ s a n, item s = .ok (a, n) → 0 < n)
    (accepted : readAll item stream 0 = .ok items) (reading : Reading item stream place out) :
    ∃ rest, items = out ++ rest ∧ readAll item (stream.drop place) 0 = .ok rest := by
  induction reading with
  | start => exact ⟨items, rfl, accepted⟩
  | next _ inside read ih =>
    obtain ⟨rest, rfl, onward⟩ := ih
    obtain ⟨a, consumed, tail, same, rfl, onward⟩ := readAll_next advances inside onward
    cases read.symm.trans same
    exact ⟨tail, by rw [List.append_assoc, List.singleton_append], onward⟩

/-- The items read before a place are read again when the stream goes on otherwise behind it. -/
theorem Reading.before (prefixes : ∀ s a n, item s = .ok (a, n) → n ≤ s.length ∧ Reads item (s.take n) a)
    {rest : List β} (reading : Reading item stream place out) (accepted : readAll item rest 0 = .ok items) :
    readAll item (stream.take place ++ rest) 0 = .ok (out ++ items) := by
  induction reading generalizing rest items with
  | start => exact accepted
  | @next place consumed out a _ _ read ih =>
    obtain ⟨inside, reads⟩ := prefixes _ _ _ read
    have onward : readAll item ((stream.drop place).take consumed ++ rest) 0 = .ok (a :: items) := by
      rw [readAll_append reads, accepted]
      rfl
    rw [List.take_add, List.append_assoc, ih onward, List.append_assoc, List.singleton_append]

/-- Every prefix of what is read is a state of the loop. -/
theorem readAll_reading (advances : ∀ s a n, item s = .ok (a, n) → 0 < n)
    (accepted : readAll item stream 0 = .ok items) {i : Nat} (bounded : i ≤ items.length) :
    ∃ place, Reading item stream place (items.take i) := by
  induction i with
  | zero => exact ⟨0, .start⟩
  | succ i ih =>
    obtain ⟨place, reading⟩ := ih (Nat.le_of_succ_le bounded)
    obtain ⟨rest, split, onward⟩ := reading.rest advances accepted
    have inside : place < stream.length := by
      by_contra ended
      rw [List.drop_eq_nil_of_le (Nat.le_of_not_lt ended), readAll] at onward
      cases onward
      have short := congrArg List.length split
      simp only [List.append_nil, List.length_take] at short
      omega
    obtain ⟨a, consumed, tail, read, rfl, _⟩ := readAll_next advances inside onward
    have next : items.take (i + 1) = items.take i ++ [a] := by
      have here : items[i]? = some a := by
        rw [split, List.getElem?_append_right (by rw [List.length_take]; omega), List.length_take,
          Nat.min_eq_left (Nat.le_of_succ_le bounded), Nat.sub_self]
        rfl
      rw [List.take_add_one, here]
      rfl
    exact ⟨place + consumed, next ▸ reading.next inside read⟩

end

end EbpfLab.Library
