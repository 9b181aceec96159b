import EbpfLab.Verifier.MemorySafe
import EbpfLab.Vm.Bulk

/-!
# Region checks

The verifier checks an access to the packet, the context, the staged data or a map value against the
length of the region, the interpreter against the region its address falls in. They part where a
region runs on behind the base of the next one, or out of the address space.
-/

namespace EbpfLab.Verifier
open Isa FlowGraph Interp Library

/-- A memory with a packet, staged data and the value of a lookup. -/
def stagedView (packet data : Option Bytes) (value : Bytes) : MemoryView :=
  let m := packet.elim .default MemoryView.default.setPacket
  (data.elim m m.setRodata).setMapScratch value

/-- Every access the checks accept succeeds, and the typed context loads yield the packet bounds. -/
structure ChecksSound (packet data : Option Bytes) (value : Bytes) : Prop where
  packetLoad : ∀ s range offset size pc x, s.packetLen = packet.map List.length →
    checkPacketBounds s range offset size pc = .ok () → range.contains x →
    ∃ v, (stagedView packet data value).load (packetBase + x + offset.toInt64) size = .ok v
  dataLoad : ∀ s range offset size pc x, s.dataLen = data.map List.length →
    checkDataBounds s range offset size pc = .ok () → range.contains x →
    ∃ v, (stagedView packet data value).load (rodataBase + x + offset.toInt64) size = .ok v
  mapValue : ∀ s fd desc offset size pc, mapDesc s fd = some desc → desc.valueSize = value.length →
    checkMapValueBounds s fd offset size pc = .ok () →
    (∃ v, (stagedView packet data value).load (mapScratchBase + offset.toInt64) size = .ok v) ∧
      ∀ x, ∃ m, (stagedView packet data value).store (mapScratchBase + offset.toInt64) size x = .ok m
  contextLoad : ∀ s offset size pc t, s.packetLen = packet.map List.length →
    checkCtxLoad s offset size pc = .ok t →
    ∃ v, (stagedView packet data value).load (xdpMdBase + offset.toInt64) size = .ok v
  contextBounds : ∀ p s pc, packet = some p → s.packetLen = some p.length →
    (checkCtxLoad s 0 .w pc = .ok (.packetPtr (.exact 0)) ∧
      (stagedView packet data value).load xdpMdBase .w = .ok packetBase) ∧
    ∃ v, v.toInt = packetBase.toInt + p.length ∧
      checkCtxLoad s 4 .w pc = .ok (.scalar (.exact v)) ∧
      (stagedView packet data value).load (xdpMdBase + 4) .w = .ok v

/-- The packet ends before the scratch area, or in the value that stands there, or, behind a value that
fills the area, in the context; the data ends in the address space, or is longer than any. -/
def Windows (packet data : Option Bytes) (value : Bytes) : Prop :=
  (∀ p, packet = some p →
    p.length ≤ if value.length < 0x10000 then 0x10000 + value.length else 0x20008) ∧
  ∀ d, data = some d → d.length ≤ 2 ^ 63 - 0x50000 ∨ 2 ^ 63 ≤ d.length

variable {packet data : Option Bytes} {value p d : Bytes} {s : VerifierState} {range : Range}
  {offset : Int16} {size : MemSize} {pc len : Nat} {x addr v : Int64} {e : VerifyError}

theorem stagedView_fields : (stagedView packet data value).mapScratch = value ∧
    (stagedView packet data value).packet = packet ∧ (stagedView packet data value).rodata = data ∧
    (stagedView packet data value).xdpMd.length = 8 := by
  cases packet with
  | none => cases data <;> exact ⟨rfl, rfl, rfl, rfl⟩
  | some p => cases data <;> exact ⟨rfl, rfl, rfl, length_context p⟩

theorem stagedView_context : (stagedView (some p) data value).xdpMd =
    (MemoryView.default.setPacket p).xdpMd := by
  cases data <;> rfl

/-- The address of a place in a region. -/
theorem place_add {b : Int64} {y : Int} (sum : x.toInt + offset.toInt = y) (low : 0 ≤ y)
    (base : 0 ≤ b.toInt) (high : b.toInt + y < 2 ^ 63) :
    (b + x + offset.toInt64).toInt = b.toInt + y := by
  have same : b + x - b = x := by grind
  exact region_place (by rw [same, sum]) low base high

/-! ### Accepted accesses -/

theorem packet_served (windows : Windows packet data value) (configured : s.packetLen = packet.map List.length)
    (passed : checkPacketBounds s range offset size pc = .ok ()) (held : range.contains x) :
    ∃ v, (stagedView packet data value).load (packetBase + x + offset.toInt64) size = .ok v := by
  obtain ⟨scratch, installed, _, eight⟩ := @stagedView_fields packet data value
  cases packet with
  | none =>
    rw [checkPacketBounds, configured] at passed
    cases passed
  | some p =>
    rw [checkPacketBounds, configured] at passed
    obtain ⟨low, high, aligned, _⟩ := checkRangeBounds_ok passed held
    have window := windows.1 p rfl
    have width := MemSize.bytes_pos size
    have base : packetBase.toInt = 0x20000 := by decide
    have short : p.length ≤ 0x20008 := by
      split at window <;> omega
    have place := @place_add offset x packetBase _ rfl low (by omega) (by omega)
    rw [base] at place
    generalize x.toInt + offset.toInt = y at low high aligned place
    have even : (packetBase + x + offset.toInt64).toInt % size.bytes = 0 := by
      rw [place]
      exact aligned_from size (by decide) aligned
    rcases Int.lt_or_le y 0x10000 with here | beyond
    · exact load_packet installed (show (packetBase + x + offset.toInt64).toInt =
        0x20000 + ((y.toNat : Nat) : Int) by omega) (by omega) (by omega) even
    rcases Int.lt_or_le y 0x20000 with here | beyond
    · -- an aligned access does not leave the scratch area
      have inside : y + size.bytes ≤ 0x20000 := by
        cases size <;> simp only [MemSize.bytes] at aligned ⊢ <;> omega
      refine load_scratch (show (packetBase + x + offset.toInt64).toInt =
        0x30000 + (((y - 0x10000).toNat : Nat) : Int) by omega) ?_ (by omega) even
      rw [scratch]
      split at window <;> omega
    · refine ⟨_, load_context (show (packetBase + x + offset.toInt64).toInt =
        0x40000 + (((y - 0x20000).toNat : Nat) : Int) by omega) ?_ (by omega) even⟩
      rw [eight]
      omega

theorem data_served (windows : Windows packet data value) (configured : s.dataLen = data.map List.length)
    (passed : checkDataBounds s range offset size pc = .ok ()) (held : range.contains x) :
    ∃ v, (stagedView packet data value).load (rodataBase + x + offset.toInt64) size = .ok v := by
  obtain ⟨_, _, installed, _⟩ := @stagedView_fields packet data value
  cases data with
  | none =>
    rw [checkDataBounds, configured] at passed
    cases passed
  | some d =>
    rw [checkDataBounds, configured] at passed
    obtain ⟨low, high, aligned, bound⟩ := checkRangeBounds_ok passed held
    have window := windows.2 d rfl
    have width := MemSize.bytes_pos size
    have base : rodataBase.toInt = 0x50000 := by decide
    have place := @place_add offset x rodataBase _ rfl low (by omega) (by omega)
    rw [base] at place
    generalize x.toInt + offset.toInt = y at low high aligned place
    have even : (rodataBase + x + offset.toInt64).toInt % size.bytes = 0 := by
      rw [place]
      exact aligned_from size (by decide) aligned
    exact load_data installed (show (rodataBase + x + offset.toInt64).toInt =
      0x50000 + ((y.toNat : Nat) : Int) by omega) (by omega) even

theorem mapValue_served {fd : Int64} {desc : MapDesc} (known : mapDesc s fd = some desc)
    (shown : desc.valueSize = value.length) (passed : checkMapValueBounds s fd offset size pc = .ok ()) :
    (∃ v, (stagedView packet data value).load (mapScratchBase + offset.toInt64) size = .ok v) ∧
      ∀ x, ∃ m, (stagedView packet data value).store (mapScratchBase + offset.toInt64) size x = .ok m := by
  obtain ⟨scratch, _⟩ := @stagedView_fields packet data value
  rw [checkMapValueBounds, known] at passed
  dsimp only at passed
  split at passed
  · rename_i inside
    obtain ⟨low, high⟩ := offsetInside_iff.mp inside
    have aligned := checkOffsetAlign_ok passed
    have small := offset.toInt_lt
    have base : mapScratchBase.toInt = 0x30000 := by decide
    have place : (mapScratchBase + offset.toInt64).toInt = 0x30000 + (offset.toInt.toNat : Int) :=
      toInt_address (by omega) (by omega) (by omega)
    have fits : offset.toInt.toNat + size.bytes ≤ (stagedView packet data value).mapScratch.length := by
      rw [scratch]
      omega
    have even : (mapScratchBase + offset.toInt64).toInt % size.bytes = 0 := by
      rw [place, Int.toNat_of_nonneg low]
      exact aligned_from size (by decide) aligned
    refine ⟨load_scratch place fits (by omega) even, fun x => ?_⟩
    obtain ⟨_, stored, _⟩ := store_scratch (v := x) place fits (by omega) even
    exact ⟨_, stored⟩
  · cases passed

theorem context_served {t : RegType} {len : Nat} (configured : s.packetLen = some len)
    (passed : checkCtxLoad s offset size pc = .ok t) :
    (stagedView packet data value).load (xdpMdBase + offset.toInt64) size =
      .ok (leValue (slice (stagedView packet data value).xdpMd offset.toInt.toNat size.bytes)) := by
  obtain ⟨_, _, _, eight⟩ := @stagedView_fields packet data value
  obtain ⟨low, high, aligned, _⟩ := checkCtxLoad_ok configured passed
  have base : xdpMdBase.toInt = 0x40000 := by decide
  have place : (xdpMdBase + offset.toInt64).toInt = 0x40000 + (offset.toInt.toNat : Int) :=
    toInt_address (by omega) (by omega) (by omega)
  have even : (xdpMdBase + offset.toInt64).toInt % size.bytes = 0 := by
    rw [place, Int.toNat_of_nonneg low]
    exact aligned_from size (by decide) aligned
  refine load_context place ?_ (by omega) even
  rw [eight]
  omega

/-- What the verifier says of the two typed loads. -/
theorem checkCtxLoad_typed (configured : s.packetLen = some len) :
    checkCtxLoad s 0 .w pc = .ok (.packetPtr (.exact 0)) ∧
      checkCtxLoad s 4 .w pc =
        .ok (.scalar (.exact (saturatingI64 (packetBase.toInt + (saturatingI64 len).toInt)))) := by
  unfold checkCtxLoad
  rw [configured]
  exact ⟨rfl, rfl⟩

theorem contextBounds_served (short : 0x20000 + p.length < 2 ^ 32) (configured : s.packetLen = some p.length) :
    (checkCtxLoad s 0 .w pc = .ok (.packetPtr (.exact 0)) ∧
      (stagedView (some p) data value).load xdpMdBase .w = .ok packetBase) ∧
    ∃ v, v.toInt = packetBase.toInt + p.length ∧ checkCtxLoad s 4 .w pc = .ok (.scalar (.exact v)) ∧
      (stagedView (some p) data value).load (xdpMdBase + 4) .w = .ok v := by
  obtain ⟨first, second⟩ := @checkCtxLoad_typed s pc p.length configured
  have low := @context_served (some p) data value s 0 .w pc _ _ configured first
  have high := @context_served (some p) data value s 4 .w pc _ _ configured second
  rw [stagedView_context] at low high
  refine ⟨⟨first, ?_⟩, _, ?_, second, ?_⟩
  · exact low.trans (congrArg Except.ok (context_data p))
  · have base : packetBase.toInt = 0x20000 := by decide
    simp only [saturatingI64_toInt, base]
    split <;> split <;> omega
  · exact high.trans (congrArg Except.ok (context_dataEnd short))

theorem checks_sound (windows : Windows packet data value) : ChecksSound packet data value where
  packetLoad s range offset size pc x := packet_served windows
  dataLoad s range offset size pc x := data_served windows
  mapValue s fd desc offset size pc := mapValue_served
  contextLoad s offset size pc t configured passed := by
    cases packet with
    | none =>
      rw [checkCtxLoad, configured] at passed
      cases passed
    | some p => exact ⟨_, context_served configured passed⟩
  contextBounds p s pc installed configured := by
    subst installed
    have window := windows.1 p rfl
    refine contextBounds_served ?_ configured
    split at window <;> omega

/-! ### Accesses that are not served -/

theorem regionLoad_inside {bytes : Bytes} {base : Int64} {checks : Bool}
    (loaded : regionLoad bytes base addr size checks = .ok v) :
    ∃ off : Nat, addr.toInt = base.toInt + off ∧ off + size.bytes ≤ bytes.length := by
  unfold regionLoad at loaded
  split at loaded
  · cases loaded
  · rename_i off found
    exact ⟨off, boundedOffset_spec found⟩

/-- One byte at an exact offset inside the length is accepted. -/
theorem checkRangeBounds_exact (low : 0 ≤ x.toInt) (high : x.toInt + 1 ≤ len) (bound : len < 2 ^ 63) :
    checkRangeBounds (.exact x) 0 .b pc len e = .ok () := by
  have start : checkedI64 (x.toInt + (0 : Int16).toInt) = some x := checkedI64_eq_some.mpr (by simp)
  have fin : (Int64.ofInt (x.toInt + 1)).toInt = x.toInt + 1 := toInt_ofInt (by omega) (by omega)
  have fin_eq : checkedI64 (x.toInt + MemSize.b.bytes) = some (Int64.ofInt (x.toInt + 1)) :=
    checkedI64_eq_some.mpr fin
  have len_eq : checkedI64 (len : Int) = some (Int64.ofInt len) :=
    checkedI64_eq_some.mpr (toInt_ofInt (by omega) (by omega))
  have value : (Int64.ofInt (len : Int)).toInt = len := toInt_ofInt (by omega) (by omega)
  unfold checkRangeBounds Range.exact
  dsimp only
  rw [start]
  dsimp only
  rw [fin_eq, len_eq]
  dsimp only
  rw [if_neg, if_neg]
  · exact fun wide => absurd wide.1 (by decide)
  · rw [not_or, Int64.not_lt, gt_iff_lt, Int64.not_lt, Int64.le_iff_toInt_le, Int64.le_iff_toInt_le, fin, value]
    exact ⟨low, high⟩

theorem packet_bound (sound : ChecksSound (some p) data value) :
    p.length ≤ if value.length < 0x10000 then 0x10000 + value.length else 0x20008 := by
  let s : VerifierState := { VerifierState.initialWithMaps [] with packetLen := some p.length }
  obtain ⟨_, last, last_eq, _⟩ := sound.contextBounds p s 0 rfl rfl
  obtain ⟨scratch, _, _, eight⟩ := @stagedView_fields (some p) data value
  have base : packetBase.toInt = 0x20000 := by decide
  have bound := toInt_upper last
  -- a byte of the packet that is not served where it lies
  have served : ∀ y : Nat, 0x10000 ≤ y → y < p.length → ∃ v,
      (stagedView (some p) data value).load (packetBase + Int64.ofNat y + (0 : Int16).toInt64) .b = .ok v ∧
        (packetBase + Int64.ofNat y + (0 : Int16).toInt64).toInt = 0x20000 + y := by
    intro y _ inside
    have place : (Int64.ofNat y).toInt = y := Int64.toInt_ofNat_of_lt (by omega)
    have passed : checkPacketBounds s (.exact (Int64.ofNat y)) 0 .b 0 = .ok () :=
      checkRangeBounds_exact (by omega) (by omega) (by omega)
    obtain ⟨v, loaded⟩ := sound.packetLoad s _ 0 .b 0 _ rfl passed (Range.contains_exact.mpr rfl)
    refine ⟨v, loaded, ?_⟩
    rw [place_add (show (Int64.ofNat y).toInt + (0 : Int16).toInt = y by rw [place]; simp) (by omega) (by omega) (by omega), base]
  by_contra beyond
  split at beyond
  · obtain ⟨v, loaded, place⟩ := served (0x10000 + value.length) (by omega) (by omega)
    rw [MemoryView.load, classify_above (by omega), if_neg (by omega), if_neg (by omega),
      if_pos (by omega)] at loaded
    obtain ⟨off, at_off, inside⟩ := regionLoad_inside loaded
    have area : mapScratchBase.toInt = 0x30000 := by decide
    rw [scratch] at inside
    simp only [MemSize.bytes] at inside
    omega
  · obtain ⟨v, loaded, place⟩ := served 0x20008 (by omega) (by omega)
    rw [MemoryView.load, classify_above (by omega), if_neg (by omega), if_pos (by omega)] at loaded
    obtain ⟨off, at_off, inside⟩ := regionLoad_inside loaded
    have area : xdpMdBase.toInt = 0x40000 := by decide
    rw [eight] at inside
    simp only [MemSize.bytes] at inside
    omega

theorem data_bound (sound : ChecksSound packet (some d) value) :
    d.length ≤ 2 ^ 63 - 0x50000 ∨ 2 ^ 63 ≤ d.length := by
  let s : VerifierState := { VerifierState.initialWithMaps [] with dataLen := some d.length }
  by_contra beyond
  rw [not_or] at beyond
  -- the first byte past the address space
  obtain ⟨x, place, outside⟩ : ∃ x : Int64, x.toInt = 2 ^ 63 - 0x50000 ∧
      MemoryView.classify (rodataBase + x + (0 : Int16).toInt64) = .unknown :=
    ⟨Int64.ofNat (2 ^ 63 - 0x50000), by decide, by decide⟩
  have passed : checkDataBounds s (.exact x) 0 .b 0 = .ok () :=
    checkRangeBounds_exact (by omega) (by omega) (by omega)
  obtain ⟨v, loaded⟩ := sound.dataLoad s _ 0 .b 0 x rfl passed (Range.contains_exact.mpr rfl)
  rw [MemoryView.load, outside] at loaded
  cases loaded

/-- The checks are sound exactly when the regions keep to their windows. -/
theorem checksSound_iff (packet data : Option Bytes) (value : Bytes) :
    ChecksSound packet data value ↔ Windows packet data value := by
  refine ⟨fun sound => ⟨fun p installed => ?_, fun d staged => ?_⟩, checks_sound⟩
  · subst installed
    exact packet_bound sound
  · subst staged
    exact data_bound sound

/-- A packet that runs one byte past an 8-byte value in the scratch area: the verifier accepts a load of
its last byte, and the interpreter looks for it in the scratch area. -/
theorem checks_long_packet :
    checkPacketBounds { VerifierState.initialWithMaps [] with packetLen := some 0x10009 }
        (.exact 0x10008) 0 .b 0 = .ok () ∧
      (stagedView (some (List.replicate 0x10009 0)) none (List.replicate 8 0)).load
        (packetBase + 0x10008 + (0 : Int16).toInt64) .b = .error (.outOfBounds 0x30008 1) := by
  have region : MemoryView.classify (packetBase + 0x10008 + (0 : Int16).toInt64) = .mapScratch := by decide
  refine ⟨by decide, ?_⟩
  rw [MemoryView.load, region]
  rfl

end EbpfLab.Verifier
