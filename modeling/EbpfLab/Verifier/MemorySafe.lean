import EbpfLab.Verifier.Models

/-!
# Checked accesses succeed

Each kind of access the verifier allows is in bounds, aligned and, on the stack, over written bytes
in every machine the state models.
-/

namespace EbpfLab.Verifier
open Isa FlowGraph Interp Library

variable {config : VerifyConfig} {setup : Setup config} {s s' : VerifierState} {u u' : Vm} {r : Reg}
  {t : RegType} {v : Int64} {window : Int64 → Prop} {size : MemSize} {base : Reg} {offset : Int16}
  {pc : Nat}

/-- A load stays in the region its pointer is for: in a packet longer than its window it starts inside
the window, in data that leave the address space its address is an `i64`, and the packet end is read
only where the context can hold it. -/
structure LoadAgrees (config : VerifyConfig) (s : VerifierState) (u : Vm) (size : MemSize) (base : Reg)
    (offset : Int16) : Prop where
  packet : ∀ range, s.reg base = .packetPtr range → ∀ len, config.packetLen = some len → 0x10000 < len →
    (u.regs base - packetBase).toInt + offset.toInt < 0x10000
  data : ∀ range, s.reg base = .dataPtr range → ∀ len, config.dataLen = some len → 2 ^ 63 ≤ len + 0x50000 →
    (u.regs base - rodataBase).toInt + offset.toInt + 0x50000 < 2 ^ 63
  context : s.reg base = .xdpMdPtr → offset = 4 ∧ size = .w → ∀ len, config.packetLen = some len →
    len + 0x20000 < 2 ^ 32

/-! ### Bounds -/

theorem checkOffsetAlign_ok (passed : checkOffsetAlign offset size pc = .ok ()) :
    offset.toInt % size.bytes = 0 := by
  unfold checkOffsetAlign at passed
  split at passed
  · cases passed
  · rename_i aligned
    cases size <;> simp only [MemSize.bytes] at aligned ⊢ <;> omega

theorem offsetInside_iff {width len : Nat} : offsetInside offset width len = true ↔
    0 ≤ offset.toInt ∧ offset.toInt + width ≤ len := by
  simp [offsetInside]

/-- The bounds of one offset in a checked range. -/
theorem checkRangeBounds_ok {range : Range} {len : Nat} {e : VerifyError} {x : Int64}
    (passed : checkRangeBounds range offset size pc len e = .ok ()) (held : range.contains x) :
    0 ≤ x.toInt + offset.toInt ∧ x.toInt + offset.toInt + size.bytes ≤ len ∧
      (x.toInt + offset.toInt) % size.bytes = 0 ∧ len < 2 ^ 63 := by
  have width := MemSize.bytes_pos size
  obtain ⟨lo, hi, low, high, checked⟩ : ∃ lo hi : Int64, lo.toInt ≤ x.toInt ∧ x.toInt ≤ hi.toInt ∧
      checkRangeBounds (.interval lo hi) offset size pc len e = .ok () := by
    cases range with
    | bottom => exact absurd held (Range.not_contains_bottom x)
    | interval lo hi =>
      rw [Range.contains_interval] at held
      exact ⟨lo, hi, held.1, held.2, passed⟩
    | top => exact ⟨Int64.minValue, Int64.maxValue, toInt_lower x, by
        have := toInt_upper x
        rw [show Int64.maxValue.toInt = 2 ^ 63 - 1 from rfl]
        omega, passed⟩
  simp only [checkRangeBounds] at checked
  split at checked
  · rename_i startLo startHi startLo_eq startHi_eq
    split at checked
    · rename_i finHi len' finHi_eq len_eq
      have startLo_eq := checkedI64_eq_some.mp startLo_eq
      have startHi_eq := checkedI64_eq_some.mp startHi_eq
      have finHi_eq := checkedI64_eq_some.mp finHi_eq
      have len_eq := checkedI64_eq_some.mp len_eq
      have bound := toInt_upper len'
      split at checked
      · cases checked
      · rename_i inside
        rw [not_or, Int64.not_lt, gt_iff_lt, Int64.not_lt, Int64.le_iff_toInt_le,
          Int64.le_iff_toInt_le, show (0 : Int64).toInt = 0 from rfl] at inside
        split at checked
        · cases checked
        · rename_i aligned
          refine ⟨by omega, by omega, ?_, by omega⟩
          by_cases byte : size.bytes > 1
          · have single : startLo = startHi := by
              by_contra different
              exact aligned ⟨byte, Or.inl different⟩
            have even : startLo.toInt % size.bytes = 0 := by
              by_contra odd
              exact aligned ⟨byte, Or.inr odd⟩
            have same := congrArg Int64.toInt single
            rw [show x.toInt + offset.toInt = startLo.toInt by omega]
            exact even
          · rw [show size.bytes = 1 by omega]
            simp
    · cases checked
  · cases checked

/-- An address at a small offset from a region's base. -/
theorem toInt_address {a : Int64} {x : Int} (place : a.toInt + offset.toInt = x) (low : 0 ≤ x)
    (high : x < 2 ^ 63) : (a + offset.toInt64).toInt = x := by
  have value : offset.toInt64.toInt = offset.toInt := Int16.toInt_toInt64 offset
  rw [toInt_add (by omega) (by omega)]
  omega

/-- An address told by its offset from a region's base. -/
theorem region_place {b v : Int64} {y : Int} (offset_eq : (v - b).toInt + offset.toInt = y)
    (low : 0 ≤ y) (base_low : 0 ≤ b.toInt) (high : b.toInt + y < 2 ^ 63) :
    (v + offset.toInt64).toInt = b.toInt + y := by
  have split : v + offset.toInt64 = (v - b + offset.toInt64) + b := by grind
  have inner : (v - b + offset.toInt64).toInt = y := toInt_address offset_eq low (by omega)
  rw [split, toInt_add (by omega) (by omega)]
  omega

/-- An aligned base keeps an aligned offset. -/
theorem aligned_from (size : MemSize) {x y : Int} (base : x % 8 = 0) (aligned : y % size.bytes = 0) :
    (x + y) % size.bytes = 0 := by
  cases size <;> simp only [MemSize.bytes] at aligned ⊢ <;> omega

/-! ### The stack -/

/-- The bytes of a checked stack access in a modelled machine. -/
theorem StackAccess.place {width lo hi : Nat} (models : Models config s u)
    (access : StackAccess s base offset width pc lo hi) :
    (u.regs base + offset.toInt64).toInt = 0xFE00 + lo ∧ lo + width ≤ 512 ∧ hi + 1 = lo + width := by
  obtain ⟨o, start, held, ranged, _⟩ := access.pointer
  obtain ⟨low, high, first, last⟩ := byteRange_ok ranged
  have pointer := models.regs base
  rw [held] at pointer
  have value : (u.regs base).toInt = 0x10000 + o.toInt := pointer
  exact ⟨toInt_address (by omega) (by omega) (by omega), by omega, by omega⟩

theorem StackAccess.aligned {lo hi : Nat} (models : Models config s u)
    (access : StackAccess s base offset size.bytes pc lo hi) :
    (u.regs base + offset.toInt64).toInt % size.bytes = 0 := by
  obtain ⟨place, _, _⟩ := access.place models
  obtain ⟨o, start, held, ranged, aligned⟩ := access.pointer
  obtain ⟨_, _, first, _⟩ := byteRange_ok ranged
  have even : (o.toInt + offset.toInt) % size.bytes = 0 := by
    by_contra odd
    have width := MemSize.bytes_pos size
    by_cases byte : size.bytes > 1
    · exact aligned ⟨byte, odd⟩
    · rw [show size.bytes = 1 by omega] at odd
      simp at odd
  rw [place, show (0xFE00 : Int) + lo = 0x10000 + (o.toInt + offset.toInt) by omega]
  exact aligned_from size (by decide) even

/-- Bytes the state calls written were written. -/
theorem Models.written {lo hi width : Nat} (models : Models config s u)
    (init : s.stackRangeInit lo hi = true) (last : hi + 1 = lo + width) :
    u.memory.stack.Written lo width := by
  intro k lower upper
  exact models.stack k (stackRangeInit_iff.mp init k lower (by omega))

/-! ### Loads -/

/-- The place of a checked map value access. -/
theorem mapValue_place {fd : Int64} (models : Models config s u) (held : s.reg base = .mapPtr fd)
    (bounds : checkMapValueBounds s fd offset size pc = .ok ()) :
    ∃ off : Nat, (u.regs base + offset.toInt64).toInt = 0x30000 + off ∧
      off + size.bytes ≤ u.memory.mapScratch.length ∧ off < 0x10000 ∧
      (u.regs base + offset.toInt64).toInt % size.bytes = 0 := by
  have pointer := models.regs base
  rw [held] at pointer
  obtain ⟨_, value, desc, known, length⟩ := pointer
  unfold checkMapValueBounds at bounds
  split at bounds
  · cases bounds
  · rename_i desc' known'
    rw [models.mapDesc known', Option.some.injEq] at known
    subst known
    split at bounds
    · rename_i inside
      obtain ⟨low, high⟩ := offsetInside_iff.mp inside
      have aligned := checkOffsetAlign_ok bounds
      have small := offset.toInt_lt
      have base_eq : mapScratchBase.toInt = 0x30000 := by decide
      have place : (u.regs base + offset.toInt64).toInt = 0x30000 + offset.toInt :=
        toInt_address (by rw [value, base_eq]) (by omega) (by omega)
      refine ⟨offset.toInt.toNat, by omega, by omega, by omega, ?_⟩
      rw [place]
      exact aligned_from size (by decide) aligned
    · cases bounds

theorem checkCtxLoad_ok {len : Nat} (known : s.packetLen = some len)
    (passed : checkCtxLoad s offset size pc = .ok t) :
    0 ≤ offset.toInt ∧ offset.toInt + size.bytes ≤ 8 ∧ offset.toInt % size.bytes = 0 ∧
      ((offset = 0 ∧ size = .w ∧ t = .packetPtr (.exact 0)) ∨
        (offset = 4 ∧ size = .w ∧
          t = .scalar (.exact (saturatingI64 (packetBase.toInt + (saturatingI64 len).toInt)))) ∨
        t = .scalar .top) := by
  simp only [checkCtxLoad, known] at passed
  split at passed
  · rename_i inside
    obtain ⟨low, high⟩ := offsetInside_iff.mp inside
    obtain ⟨_, aligned, passed⟩ := bind_eq_ok.mp passed
    refine ⟨low, high, checkOffsetAlign_ok aligned, ?_⟩
    split at passed
    · rename_i data
      cases passed
      exact Or.inl ⟨data.1, data.2, rfl⟩
    · split at passed
      · rename_i dataEnd
        cases passed
        exact Or.inr (Or.inl ⟨dataEnd.1, dataEnd.2, rfl⟩)
      · cases passed
        exact Or.inr (Or.inr rfl)
  · cases passed

/-- An allowed load succeeds and yields a value of its type. -/
theorem load_succeeds (agrees : LoadAgrees config s u size base offset) (models : Models config s u)
    (staged : Staged setup u)
    (allowed : LoadAllowed pc s size base offset t) :
    ∃ v, u.memory.load (u.regs base + offset.toInt64) size = .ok v ∧
      ∀ window r, Holds window r v t := by
  have width := MemSize.bytes_pos size
  cases allowed with
  | mapValue held bounds =>
    obtain ⟨off, place, inside, window, aligned⟩ := mapValue_place models held bounds
    obtain ⟨v, read⟩ := load_scratch place inside window aligned
    exact ⟨v, read, fun _ _ => trivial⟩
  | stack access written =>
    obtain ⟨place, inside, last⟩ := access.place models
    obtain ⟨v, read⟩ := load_stack place inside (access.aligned models) (models.written written last)
    exact ⟨v, read, fun _ _ => trivial⟩
  | @packet range held bounds =>
    unfold checkPacketBounds at bounds
    split at bounds
    · cases bounds
    · rename_i len known
      have pointer := models.regs base
      rw [held] at pointer
      obtain ⟨low, high, aligned, _⟩ := checkRangeBounds_ok bounds pointer
      have configured := models.packet known
      have window := agrees.packet range held len configured
      obtain ⟨packet, installed, length⟩ := Option.map_eq_some_iff.mp (setup.packetLen.trans configured)
      have base_eq : packetBase.toInt = 0x20000 := by decide
      have place := region_place rfl low (by omega) (by omega)
      rw [base_eq] at place
      have even : (u.regs base + offset.toInt64).toInt % size.bytes = 0 := by
        rw [place]
        exact aligned_from size (by decide) aligned
      rw [← Int.toNat_of_nonneg low] at place
      obtain ⟨v, read⟩ := load_packet (staged.packet.trans installed) place (by omega) (by omega) even
      exact ⟨v, read, fun _ _ => trivial⟩
  | @data range held bounds =>
    unfold checkDataBounds at bounds
    split at bounds
    · cases bounds
    · rename_i len known
      have pointer := models.regs base
      rw [held] at pointer
      obtain ⟨low, high, aligned, _⟩ := checkRangeBounds_ok bounds pointer
      have configured := models.data known
      have window := agrees.data range held len configured
      obtain ⟨data, installed, length⟩ := Option.map_eq_some_iff.mp (setup.dataLen.trans configured)
      have base_eq : rodataBase.toInt = 0x50000 := by decide
      have place := region_place rfl low (by omega) (by omega)
      rw [base_eq] at place
      have even : (u.regs base + offset.toInt64).toInt % size.bytes = 0 := by
        rw [place]
        exact aligned_from size (by decide) aligned
      rw [← Int.toNat_of_nonneg low] at place
      obtain ⟨v, read⟩ := load_data (staged.data.trans installed) place (by omega) even
      exact ⟨v, read, fun _ _ => trivial⟩
  | context held bounds =>
    obtain ⟨len, known⟩ : ∃ len, s.packetLen = some len := by
      cases known : s.packetLen with
      | some len => exact ⟨len, rfl⟩
      | none =>
        simp only [checkCtxLoad, known] at bounds
        cases bounds
    obtain ⟨low, high, aligned, type⟩ := checkCtxLoad_ok known bounds
    have configured := models.packet known
    obtain ⟨packet, installed, length⟩ := Option.map_eq_some_iff.mp (setup.packetLen.trans configured)
    have pointer := models.regs base
    rw [held] at pointer
    have value : u.regs base = xdpMdBase := pointer
    have base_eq : xdpMdBase.toInt = 0x40000 := by decide
    have place : (u.regs base + offset.toInt64).toInt = 0x40000 + (offset.toInt.toNat : Int) :=
      toInt_address (by rw [value, base_eq, Int.toNat_of_nonneg low]) (by omega) (by omega)
    have bytes := staged.context packet installed
    have eight : u.memory.xdpMd.length = 8 := bytes ▸ length_context packet
    have even : (u.regs base + offset.toInt64).toInt % size.bytes = 0 := by
      rw [place, Int.toNat_of_nonneg low]
      exact aligned_from size (by decide) aligned
    have inside : offset.toInt.toNat + size.bytes ≤ u.memory.xdpMd.length := by omega
    refine ⟨_, load_context place inside (by omega) even, ?_⟩
    intro window r
    rcases type with ⟨rfl, rfl, rfl⟩ | ⟨rfl, rfl, rfl⟩ | rfl
    · refine Range.contains_exact.mpr ?_
      rw [bytes]
      exact (congrArg (· - packetBase) (context_data packet)).trans (by decide)
    · refine Range.contains_exact.mpr ?_
      rw [bytes]
      have short := agrees.context held ⟨rfl, rfl⟩ len configured
      exact (context_dataEnd (by omega)).trans (by rw [length])
    · trivial

/-! ### Stores -/

/-- An allowed store succeeds and leaves a machine its state describes. -/
theorem store_succeeds (models : Models config s u) (staged : Staged setup u)
    (allowed : StoreAllowed pc s size base offset s') (v : Int64) (next : Nat) :
    ∃ memory, u.memory.store (u.regs base + offset.toInt64) size v = .ok memory ∧
      Models config s' { u with memory, pc := next } ∧ Staged setup { u with memory, pc := next } := by
  cases allowed with
  | mapValue held bounds =>
    obtain ⟨off, place, inside, window, aligned⟩ := mapValue_place models held bounds
    obtain ⟨mapScratch, stored, length⟩ := store_scratch place inside window aligned
    refine ⟨_, stored, ⟨?_, models.stack, models.maps, models.packetLen, models.dataLen⟩,
      ⟨staged.packet, staged.context, staged.data, staged.maps⟩⟩
    intro r
    refine (models.regs r).of_window ?_
    rintro fd ⟨desc, known, shown⟩
    exact ⟨desc, known, length.trans shown⟩
  | @stack lo hi access =>
    obtain ⟨place, inside, last⟩ := access.place models
    obtain ⟨stack, stored, written⟩ := store_stack place inside (access.aligned models)
    obtain ⟨maps, packetLen, dataLen⟩ : (s.markStackRange lo hi).maps = s.maps ∧
        (s.markStackRange lo hi).packetLen = s.packetLen ∧
        (s.markStackRange lo hi).dataLen = s.dataLen := by
      simpa [VerifierState.config] using VerifierState.config_markStackRange s lo hi
    refine ⟨_, stored, ⟨?_, ?_, maps ▸ models.maps, packetLen ▸ models.packetLen,
      dataLen ▸ models.dataLen⟩, ⟨staged.packet, staged.context, staged.data, staged.maps⟩⟩
    · intro r
      rw [VerifierState.reg_markStackRange]
      exact models.regs r
    · intro k init
      have width := MemSize.bytes_pos size
      rw [test_markStackRange s (by omega), Bool.or_eq_true, decide_eq_true_eq] at init
      refine (written k).trans ?_
      rw [Bool.or_eq_true, decide_eq_true_eq]
      rcases init with before | now
      · exact Or.inl (models.stack k before)
      · exact Or.inr (by omega)

end EbpfLab.Verifier
