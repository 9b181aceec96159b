import EbpfLab.Vm.Access

/-!
# Bulk reads

A bulk read takes a range of bytes from the region of its first address, where the byte-wise loop
looks each address up again. They differ when a region runs on behind the base of a higher one that
holds other bytes there.
-/

namespace EbpfLab.Interp
open Isa Library

variable {addr base : Int64} {len off k : Nat} {m : MemoryView} {bytes out : Bytes} {b : UInt8} {region : MemRegion}

theorem boundedOffset_spec (found : boundedOffset addr base len bytes.length = some off) :
    addr.toInt = base.toInt + off ∧ off + len ≤ bytes.length := by
  obtain ⟨place, fits⟩ := Option.filter_eq_some_iff.mp found
  obtain ⟨gap, below, offset⟩ := Option.bind_eq_some_iff.mp place
  have value := checkedI64_eq_some.mp below
  have place := usizeOf_eq_some.mp offset
  exact ⟨by omega, by simpa using fits⟩

/-! ### The extent of a region -/

/-- The first address of a region. -/
def regionStart : MemRegion → Int
  | .stack => 0xFE00
  | .packet => 0x20000
  | .mapScratch => 0x30000
  | .xdpMd => 0x40000
  | .rodata => 0x50000
  | .unknown => -2 ^ 63

/-- The first address behind a region, where the next one starts or the addresses end. -/
def regionEnd : MemRegion → Int
  | .stack => 0x10001
  | .packet => 0x30000
  | .mapScratch => 0x40000
  | .xdpMd => 0x50000
  | .rodata => 2 ^ 63
  | .unknown => -2 ^ 63

theorem classify_iff (known : region ≠ .unknown) :
    MemoryView.classify addr = region ↔ regionStart region ≤ addr.toInt ∧ addr.toInt < regionEnd region := by
  have upper := toInt_upper addr
  have order : ∀ a b : Int64, a ≤ b ↔ a.toInt ≤ b.toInt := fun a b => Int64.le_iff_toInt_le
  unfold MemoryView.classify
  simp only [ge_iff_le, order, show stackLow.toInt = 0xFE00 by decide, show stackBase.toInt = 0x10000 by decide,
    show packetBase.toInt = 0x20000 by decide, show mapScratchBase.toInt = 0x30000 by decide,
    show xdpMdBase.toInt = 0x40000 by decide, show rodataBase.toInt = 0x50000 by decide]
  cases region <;> first | exact absurd rfl known | (simp only [regionStart, regionEnd]; split_ifs <;> simp <;> omega)

theorem toInt_add_ofNat (low : 0 ≤ addr.toInt) (high : addr.toInt + k < 2 ^ 63) :
    (addr + Int64.ofNat k).toInt = addr.toInt + k := by
  have value : (Int64.ofNat k).toInt = k := Int64.toInt_ofNat_of_lt (by omega)
  rw [toInt_add (by omega) (by omega), value]

/-- Up to its end the addresses behind one of a region are of that region. -/
theorem classify_add (known : MemoryView.classify addr ≠ .unknown)
    (before : addr.toInt + k < regionEnd (MemoryView.classify addr)) :
    (addr + Int64.ofNat k).toInt = addr.toInt + k ∧
      MemoryView.classify (addr + Int64.ofNat k) = MemoryView.classify addr := by
  obtain ⟨lower, _⟩ := (classify_iff known).mp rfl
  have extent : 0 ≤ regionStart (MemoryView.classify addr) ∧ regionEnd (MemoryView.classify addr) ≤ 2 ^ 63 := by
    cases region : MemoryView.classify addr with
    | unknown => exact absurd region known
    | _ => decide
  have sum := @toInt_add_ofNat addr k (by omega) (by omega)
  exact ⟨sum, (classify_iff known).mpr ⟨by omega, by omega⟩⟩

namespace MemoryView

/-- The base and the bytes of a region. -/
def regionBytes (m : MemoryView) : MemRegion → Option (Int64 × Bytes)
  | .stack => some (stackLow, m.stack.bytes)
  | .packet => m.packet.map fun packet => (packetBase, packet)
  | .mapScratch => some (mapScratchBase, m.mapScratch)
  | .xdpMd => some (xdpMdBase, m.xdpMd)
  | .rodata => m.rodata.map fun data => (rodataBase, data)
  | .unknown => none

/-- The bytes of the region of `addr` and the offset there, when it holds `len` readable bytes. -/
def readable (m : MemoryView) (addr : Int64) (len : Nat) : Option (Bytes × Nat) :=
  (m.regionBytes (classify addr)).bind fun region =>
    ((boundedOffset addr region.1 len region.2.length).filter fun off =>
      classify addr ≠ .stack || (List.range' off len).all fun i => m.stack.isInit i 1).map
        fun off => (region.2, off)

/-- The readable byte at an address. -/
def byteAt (m : MemoryView) (addr : Int64) : Option UInt8 :=
  (m.readable addr 1).bind fun place => place.1[place.2]?

/-- The region of an address stores a byte there, on the stack a written one. -/
def Stores (m : MemoryView) (addr : Int64) (b : UInt8) : Prop :=
  ∃ (base : Int64) (bytes : Bytes) (off : Nat), m.regionBytes (classify addr) = some (base, bytes) ∧
    addr.toInt = base.toInt + off ∧ bytes[off]? = some b ∧ (classify addr = .stack → m.stack.isInit off 1)

/-- The bulk path serves a range: it lies in the region of its first address, `off` bytes behind the
base, on the stack among written bytes. -/
def Serves (m : MemoryView) (addr : Int64) (len : Nat) (bytes : Bytes) (off : Nat) : Prop :=
  ∃ base, m.regionBytes (classify addr) = some (base, bytes) ∧ addr.toInt = base.toInt + off ∧
    off + len ≤ bytes.length ∧ (classify addr = .stack → ∀ i, off ≤ i → i < off + len → m.stack.isInit i 1)

/-- Each address of a served range comes before the end of the first one's region, or else the region it
is in stores the byte the first region has in its place. -/
def Unhidden (m : MemoryView) (addr : Int64) (len : Nat) : Prop :=
  ∀ bytes off, m.Serves addr len bytes off → ∀ k, k < len →
    addr.toInt + k < regionEnd (classify addr) ∨
      ∃ b, bytes[off + k]? = some b ∧ m.Stores (addr + Int64.ofNat k) b

theorem regionBytes_known (held : m.regionBytes region = some (base, bytes)) :
    region ≠ .unknown ∧ base.toInt = regionStart region := by
  cases region with
  | unknown => cases held
  | stack | mapScratch | xdpMd =>
    obtain ⟨rfl, rfl⟩ := Prod.mk.inj (Option.some.inj held)
    exact ⟨nofun, by decide⟩
  | packet | rodata =>
    obtain ⟨_, _, same⟩ := Option.map_eq_some_iff.mp held
    obtain ⟨rfl, rfl⟩ := Prod.mk.inj same
    exact ⟨nofun, by decide⟩

theorem regionBytes_base (held : m.regionBytes region = some (base, bytes)) : 0 ≤ base.toInt := by
  obtain ⟨known, start⟩ := regionBytes_known held
  rw [start]
  cases region with
  | unknown => exact absurd rfl known
  | _ => decide

theorem readable_eq_some_iff : m.readable addr len = some (bytes, off) ↔ m.Serves addr len bytes off := by
  unfold readable Serves
  constructor
  · intro range
    obtain ⟨⟨base, bytes⟩, held, found⟩ := Option.bind_eq_some_iff.mp range
    obtain ⟨off, here, same⟩ := Option.map_eq_some_iff.mp found
    obtain ⟨rfl, rfl⟩ := Prod.mk.inj same
    obtain ⟨bounded, init⟩ := Option.filter_eq_some_iff.mp here
    obtain ⟨place, fits⟩ := boundedOffset_spec bounded
    refine ⟨base, held, place, fits, fun onStack i lower upper => ?_⟩
    rcases Bool.or_eq_true_iff.mp init with other | every
    · exact absurd onStack (of_decide_eq_true other)
    · exact List.all_eq_true.mp every i (List.mem_range'_1.mpr ⟨lower, upper⟩)
  · rintro ⟨base, held, place, fits, init⟩
    rw [held]
    refine Option.map_eq_some_iff.mpr ⟨off, Option.filter_eq_some_iff.mpr
      ⟨boundedOffset_eq_some (regionBytes_base held) place fits, Bool.or_eq_true_iff.mpr ?_⟩, rfl⟩
    by_cases onStack : classify addr = .stack
    · exact Or.inr (List.all_eq_true.mpr fun i present =>
        init onStack i (List.mem_range'_1.mp present).1 (List.mem_range'_1.mp present).2)
    · exact Or.inl (decide_eq_true onStack)

theorem byteAt_eq_some_iff : m.byteAt addr = some b ↔ m.Stores addr b := by
  unfold byteAt
  constructor
  · intro found
    obtain ⟨⟨bytes, off⟩, range, byte⟩ := Option.bind_eq_some_iff.mp found
    obtain ⟨base, held, place, _, init⟩ := readable_eq_some_iff.mp range
    exact ⟨base, bytes, off, held, place, byte, fun onStack => init onStack off (Nat.le_refl _) (Nat.lt_succ_self _)⟩
  · rintro ⟨base, bytes, off, held, place, byte, init⟩
    have inside := (List.getElem?_eq_some_iff.mp byte).1
    refine Option.bind_eq_some_iff.mpr ⟨(bytes, off), readable_eq_some_iff.mpr
      ⟨base, held, place, inside, fun onStack i lower upper => ?_⟩, byte⟩
    obtain rfl : i = off := by omega
    exact init onStack

/-- Before the end of the region an address of a served range stores the byte in its place. -/
theorem Serves.stores (serves : m.Serves addr len bytes off) (small : k < len)
    (before : addr.toInt + k < regionEnd (classify addr)) (byte : bytes[off + k]? = some b) :
    m.Stores (addr + Int64.ofNat k) b := by
  obtain ⟨base, held, place, _, init⟩ := serves
  obtain ⟨sum, same⟩ := classify_add (regionBytes_known held).1 before
  refine ⟨base, bytes, off + k, same ▸ held, by omega, byte, fun onStack => ?_⟩
  exact init (same ▸ onStack) (off + k) (by omega) (by omega)

theorem readable_absent (held : m.regionBytes (classify addr) = none) : m.readable addr len = none := by
  unfold readable
  rw [held]
  rfl

theorem readable_plain (other : classify addr ≠ .stack)
    (held : m.regionBytes (classify addr) = some (base, bytes)) :
    m.readable addr len = (boundedOffset addr base len bytes.length).map fun off => (bytes, off) := by
  unfold readable
  rw [held]
  cases found : boundedOffset addr base len bytes.length with
  | none => simp [found]
  | some off => simp [found, other]

theorem readable_stack (region : classify addr = .stack) :
    m.readable addr len = (boundedOffset addr stackLow len stackSize).bind fun off =>
      if (List.range' off len).all fun i => m.stack.isInit i 1 then some (m.stack.bytes, off)
      else none := by
  unfold readable regionBytes
  rw [region]
  simp only [Option.bind_some, m.stack.length_bytes]
  cases found : boundedOffset addr stackLow len stackSize with
  | none => rfl
  | some off =>
    simp only [Option.bind_some, Option.filter_some]
    cases (List.range' off len).all fun i => m.stack.isInit i 1 <;> rfl

theorem readable_inside (range : m.readable addr len = some (bytes, off)) :
    off + len ≤ bytes.length := by
  obtain ⟨_, _, _, fits, _⟩ := readable_eq_some_iff.mp range
  exact fits

theorem loadBytesBulk_eq :
    m.loadBytesBulk addr len = (m.readable addr len).map fun place => slice place.1 place.2 len := by
  have plain : ∀ base bytes, classify addr ≠ .stack →
      m.regionBytes (classify addr) = some (base, bytes) →
      ((boundedOffset addr base len bytes.length).map fun off => slice bytes off len) =
        (m.readable addr len).map fun place => slice place.1 place.2 len := by
    intro base bytes other held
    rw [readable_plain other held, Option.map_map]
    rfl
  unfold loadBytesBulk
  cases region : classify addr with
  | stack =>
    rw [readable_stack region]
    dsimp only
    cases boundedOffset addr stackLow len stackSize with
    | none => rfl
    | some off =>
      dsimp only [Option.bind_some]
      split <;> rfl
  | packet =>
    cases held : m.packet with
    | none => rw [readable_absent (by rw [region, regionBytes, held]; rfl)]; rfl
    | some packet => exact plain packetBase packet (by rw [region]; nofun) (by rw [region, regionBytes, held]; rfl)
  | mapScratch => exact plain _ _ (by rw [region]; nofun) (by rw [region]; rfl)
  | xdpMd => exact plain _ _ (by rw [region]; nofun) (by rw [region]; rfl)
  | rodata =>
    cases held : m.rodata with
    | none => rw [readable_absent (by rw [region, regionBytes, held]; rfl)]; rfl
    | some data => exact plain rodataBase data (by rw [region]; nofun) (by rw [region, regionBytes, held]; rfl)
  | unknown => rw [readable_absent (by rw [region]; rfl)]; rfl

end MemoryView

/-! ### One byte -/

theorem leValue_byte : (leValue [b]).toUInt64.toUInt8 = b := by
  simp [leValue]

theorem slice_byte (held : bytes[off]? = some b) : slice bytes off 1 = [b] := by
  obtain ⟨inside, rfl⟩ := List.getElem?_eq_some_iff.mp held
  unfold slice
  rw [List.drop_eq_getElem_cons inside]
  rfl

/-- A load of one byte of a plain region. -/
theorem regionLoad_byte (checks : Bool) :
    (regionLoad bytes base addr .b checks).toOption.map (fun v => v.toUInt64.toUInt8) =
      (boundedOffset addr base 1 bytes.length).bind fun off => bytes[off]? := by
  unfold regionLoad
  rw [show MemSize.b.bytes = 1 from rfl]
  cases found : boundedOffset addr base 1 bytes.length with
  | none => rfl
  | some off =>
    obtain ⟨_, fits⟩ := boundedOffset_spec found
    have held : bytes[off]? = some bytes[off] := List.getElem?_eq_getElem (by omega)
    have aligned : alignedIf checks addr .b = .ok () := by cases checks <;> rfl
    dsimp only [Option.bind_some]
    rw [aligned, slice_byte held, held]
    exact congrArg some leValue_byte

theorem StackMemory.index_byte :
    (StackMemory.index addr .b).toOption = boundedOffset addr stackLow 1 stackSize := by
  unfold StackMemory.index boundedOffset
  cases checkedSub addr stackLow with
  | none => rfl
  | some gap =>
    have wide : (MemSize.b.bytes : Int) = 1 := rfl
    dsimp only [Option.bind_some]
    by_cases low : 0 ≤ gap.toInt
    · have place : usizeOf gap = some gap.toInt.toNat := by rw [usizeOf, if_pos low]
      rw [place]
      by_cases high : gap.toInt ≤ 511
      · rw [if_neg (by omega)]
        have inside : gap.toInt.toNat + 1 ≤ stackSize := show gap.toInt.toNat + 1 ≤ 512 by omega
        exact (Option.filter_eq_some_iff.mpr ⟨rfl, by simpa using inside⟩).symm
      · rw [if_pos (by omega)]
        refine (Option.filter_eq_none_iff.mpr fun off same => ?_).symm
        cases same
        rw [decide_eq_true_iff, stackSize]
        omega
    · rw [if_pos (by omega), usizeOf, if_neg low]
      rfl

theorem StackMemory.load_byte {s : StackMemory} {checks : Bool} :
    (s.load addr .b checks).toOption.map (fun v => v.toUInt64.toUInt8) =
      (boundedOffset addr stackLow 1 stackSize).bind fun off =>
        if s.isInit off 1 then s.bytes[off]? else none := by
  have aligned : alignedIf checks addr .b = .ok () := by cases checks <;> rfl
  unfold load
  rw [← index_byte, aligned]
  cases found : index addr .b with
  | error e => rfl
  | ok off =>
    have inside : off < s.bytes.length := by
      rw [s.length_bytes]
      exact index_inside found
    have held : s.bytes[off]? = some s.bytes[off] := List.getElem?_eq_getElem inside
    rw [ok_bind, ok_bind]
    by_cases init : s.isInit off 1 = true
    · rw [show MemSize.b.bytes = 1 from rfl, if_pos init, slice_byte held]
      refine (congrArg some leValue_byte).trans (held.symm.trans ?_)
      exact (if_pos init).symm
    · rw [show MemSize.b.bytes = 1 from rfl, if_neg init]
      exact (if_neg init).symm

theorem MemoryView.load_byte :
    (m.load addr .b).toOption.map (fun v => v.toUInt64.toUInt8) = m.byteAt addr := by
  have plain : ∀ base bytes, classify addr ≠ .stack →
      m.regionBytes (classify addr) = some (base, bytes) →
      (regionLoad bytes base addr .b m.alignChecks).toOption.map (fun v => v.toUInt64.toUInt8) =
        m.byteAt addr := by
    intro base bytes other held
    rw [regionLoad_byte, byteAt, readable_plain other held, Option.bind_map]
    rfl
  unfold load
  cases region : classify addr with
  | stack =>
    rw [byteAt, readable_stack region, Option.bind_assoc]
    refine StackMemory.load_byte.trans (congrArg _ (funext fun off => ?_))
    rw [show List.range' off 1 = [off] from rfl, List.all_cons, List.all_nil, Bool.and_true]
    split <;> rfl
  | packet =>
    cases held : m.packet with
    | none =>
      rw [byteAt, readable_absent (by rw [region, regionBytes, held]; rfl)]
      rfl
    | some packet => exact plain packetBase packet (by rw [region]; nofun) (by rw [region, regionBytes, held]; rfl)
  | mapScratch => exact plain _ _ (by rw [region]; nofun) (by rw [region]; rfl)
  | xdpMd => exact plain _ _ (by rw [region]; nofun) (by rw [region]; rfl)
  | rodata =>
    cases held : m.rodata with
    | none =>
      rw [byteAt, readable_absent (by rw [region, regionBytes, held]; rfl)]
      rfl
    | some data => exact plain rodataBase data (by rw [region]; nofun) (by rw [region, regionBytes, held]; rfl)
  | unknown =>
    rw [byteAt, readable_absent (by rw [region]; rfl)]
    rfl

/-! ### The byte-wise loop -/

theorem add_ofNat_succ (addr : Int64) (k : Nat) :
    addr + Int64.ofNat (k + 1) = addr + 1 + Int64.ofNat k := by
  rw [Int64.ofNat_add, Int64.add_comm (Int64.ofNat k), ← Int64.add_assoc]
  rfl

/-- The loop returns the bytes at the addresses of its range. -/
theorem loadBytesSlow_eq_ok : m.loadBytesSlow addr len = .ok out ↔
    out.length = len ∧ ∀ k, k < len → m.byteAt (addr + Int64.ofNat k) = out[k]? := by
  induction len generalizing addr out with
  | zero =>
    rw [MemoryView.loadBytesSlow, Except.ok.injEq, List.length_eq_zero_iff]
    exact ⟨fun empty => ⟨empty.symm, nofun⟩, fun empty => empty.1.symm⟩
  | succ len ih =>
    have first : addr + Int64.ofNat 0 = addr := Int64.add_zero addr
    have byte := @MemoryView.load_byte addr m
    rw [MemoryView.loadBytesSlow, bind_eq_ok]
    constructor
    · rintro ⟨b, here, ran⟩
      obtain ⟨rest, later, same⟩ := bind_eq_ok.mp ran
      cases same
      obtain ⟨long, each⟩ := ih.mp later
      rw [here] at byte
      refine ⟨congrArg (· + 1) long, fun k small => ?_⟩
      cases k with
      | zero => rw [first, ← byte]; rfl
      | succ k =>
        rw [add_ofNat_succ]
        exact each k (by omega)
    · rintro ⟨long, each⟩
      cases out with
      | nil => cases long
      | cons x rest =>
        have here := each 0 (by omega)
        rw [first, ← byte] at here
        cases ran : m.load addr .b with
        | error e =>
          rw [ran] at here
          cases here
        | ok b =>
          rw [ran] at here
          have later := ih.mpr ⟨Nat.succ.inj long, fun k small => by
            rw [← add_ofNat_succ]
            exact each (k + 1) (by omega)⟩
          refine ⟨b, rfl, ?_⟩
          rw [later]
          exact congrArg (fun y => Except.ok (y :: rest)) (Option.some.inj here)

theorem getElem?_slice (small : k < len) : (slice bytes off len)[k]? = bytes[off + k]? := by
  rw [slice, List.getElem?_take_of_lt small, List.getElem?_drop]

/-- The bulk read of a readable range. -/
theorem loadBytes_readable (range : m.readable addr len = some (bytes, off)) :
    m.loadBytes addr len = .ok (slice bytes off len) := by
  unfold MemoryView.loadBytes
  split
  · rename_i empty
    rw [empty, slice, List.take_zero]
  · rw [MemoryView.loadBytesBulk_eq, range]
    rfl

/-- A read returns as many bytes as asked for. -/
theorem loadBytes_length (read : m.loadBytes addr len = .ok out) : out.length = len := by
  cases range : m.readable addr len with
  | none =>
    unfold MemoryView.loadBytes at read
    split at read
    · rename_i empty
      cases read
      exact empty.symm
    · rw [MemoryView.loadBytesBulk_eq, range] at read
      exact (loadBytesSlow_eq_ok.mp read).1
  | some place =>
    rw [loadBytes_readable range] at read
    cases read
    exact length_slice (m.readable_inside range)

/-- Where the bulk path does not serve, the byte-wise loop does. -/
theorem loadBytes_unreadable (range : m.readable addr len = none) :
    m.loadBytes addr len = m.loadBytesSlow addr len := by
  unfold MemoryView.loadBytes
  split
  · rename_i empty
    rw [empty]
    rfl
  · rw [MemoryView.loadBytesBulk_eq, range]
    rfl

theorem loadBytes_of_unhidden (unhidden : m.Unhidden addr len) :
    m.loadBytes addr len = m.loadBytesSlow addr len := by
  cases range : m.readable addr len with
  | none => exact loadBytes_unreadable range
  | some place =>
    obtain ⟨bytes, off⟩ := place
    have fits := m.readable_inside range
    have serves := MemoryView.readable_eq_some_iff.mp range
    rw [loadBytes_readable range]
    refine (loadBytesSlow_eq_ok.mpr ⟨length_slice fits, fun k small => ?_⟩).symm
    rw [getElem?_slice small]
    have byte : bytes[off + k]? = some bytes[off + k] := List.getElem?_eq_getElem (by omega)
    rcases unhidden bytes off serves k small with before | ⟨b, there, stores⟩
    · rw [byte]
      exact MemoryView.byteAt_eq_some_iff.mpr (serves.stores small before byte)
    · rw [there]
      exact MemoryView.byteAt_eq_some_iff.mpr stores

/-- A bulk read is what the byte-wise loop returns exactly when what it reads behind the region of its
first address, if anything, is stored there too. -/
theorem loadBytes_eq_slow_iff (m : MemoryView) (addr : Int64) (len : Nat) :
    m.loadBytes addr len = m.loadBytesSlow addr len ↔ m.Unhidden addr len := by
  refine ⟨fun same bytes off serves k small => Or.inr ?_, loadBytes_of_unhidden⟩
  have range := MemoryView.readable_eq_some_iff.mpr serves
  have fits := m.readable_inside range
  have byte : bytes[off + k]? = some bytes[off + k] := List.getElem?_eq_getElem (by omega)
  rw [loadBytes_readable range] at same
  have here := (loadBytesSlow_eq_ok.mp same.symm).2 k small
  rw [getElem?_slice small, byte] at here
  exact ⟨_, byte, MemoryView.byteAt_eq_some_iff.mp here⟩

/-- A packet one byte longer than the way to the scratch area, before any lookup. -/
def longPacket : MemoryView := MemoryView.default.setPacket (List.replicate 0x10001 0)

/-- The byte-wise loop stops at the scratch area, which the bulk read runs into. -/
theorem loadBytes_longPacket :
    longPacket.loadBytes 0x2FFFF 2 = .ok [0, 0] ∧
      longPacket.loadBytesSlow 0x2FFFF 2 = .error (.outOfBounds 0x30000 1) := by
  have region : MemoryView.classify 0x2FFFF = .packet := by decide
  have held : longPacket.regionBytes (MemoryView.classify 0x2FFFF) =
      some (packetBase, List.replicate 0x10001 0) := by rw [region]; rfl
  have bounded : ∀ n, n ≤ 2 → boundedOffset 0x2FFFF packetBase n (List.replicate 0x10001 (0 : UInt8)).length =
      some 0xFFFF := by
    intro n small
    refine boundedOffset_eq_some (by decide) (by decide) ?_
    rw [List.length_replicate]
    omega
  constructor
  · have range : longPacket.readable 0x2FFFF 2 = some (List.replicate 0x10001 0, 0xFFFF) := by
      rw [MemoryView.readable_plain (by rw [region]; nofun) held, bounded 2 (Nat.le_refl 2)]
      rfl
    rw [loadBytes_readable range, slice, List.drop_replicate, List.take_replicate]
    rfl
  · have first : longPacket.load 0x2FFFF .b = .ok (leValue [0]) := by
      rw [MemoryView.load, region]
      dsimp only
      rw [show longPacket.packet = some (List.replicate 0x10001 0) from rfl]
      dsimp only
      rw [regionLoad, bounded MemSize.b.bytes (by decide)]
      dsimp only
      rw [show slice (List.replicate 0x10001 0) 0xFFFF MemSize.b.bytes = [0] by
        rw [slice, List.drop_replicate, List.take_replicate]; rfl]
      rfl
    have second : longPacket.load (0x2FFFF + 1) .b = .error (.outOfBounds 0x30000 1) := by
      rw [MemoryView.load, show MemoryView.classify (0x2FFFF + 1) = .mapScratch by decide]
      rfl
    rw [MemoryView.loadBytesSlow, first, ok_bind, MemoryView.loadBytesSlow, second]
    rfl

/-! ### Views of the usual size -/

/-- A view no region of which is longer than the way to the next base. -/
structure MemoryView.Windowed (m : MemoryView) : Prop where
  packet : ∀ packet, m.packet = some packet → packet.length ≤ 0x10000
  mapScratch : m.mapScratch.length ≤ 0x10000
  xdpMd : m.xdpMd.length ≤ 0x10000
  rodata : ∀ data, m.rodata = some data → data.length ≤ 2 ^ 63 - 0x50000

theorem MemoryView.Windowed.inside (w : m.Windowed) (held : m.regionBytes region = some (base, bytes)) :
    base.toInt + bytes.length ≤ regionEnd region := by
  obtain ⟨known, start⟩ := regionBytes_known held
  rw [start]
  cases region with
  | unknown => exact absurd rfl known
  | stack =>
    obtain ⟨_, rfl⟩ := Prod.mk.inj (Option.some.inj held)
    have long : m.stack.bytes.length = 512 := m.stack.length_bytes
    simp only [regionStart, regionEnd]
    omega
  | packet =>
    obtain ⟨packet, installed, same⟩ := Option.map_eq_some_iff.mp held
    obtain ⟨_, rfl⟩ := Prod.mk.inj same
    have long := w.packet packet installed
    simp only [regionStart, regionEnd]
    omega
  | mapScratch =>
    obtain ⟨_, rfl⟩ := Prod.mk.inj (Option.some.inj held)
    have long := w.mapScratch
    simp only [regionStart, regionEnd]
    omega
  | xdpMd =>
    obtain ⟨_, rfl⟩ := Prod.mk.inj (Option.some.inj held)
    have long := w.xdpMd
    simp only [regionStart, regionEnd]
    omega
  | rodata =>
    obtain ⟨data, installed, same⟩ := Option.map_eq_some_iff.mp held
    obtain ⟨_, rfl⟩ := Prod.mk.inj same
    have long := w.rodata data installed
    simp only [regionStart, regionEnd]
    omega

/-- In such a view every served range comes before the end of its region. -/
theorem MemoryView.Windowed.unhidden (w : m.Windowed) : m.Unhidden addr len := by
  rintro bytes off ⟨base, held, place, fits, _⟩ k small
  have inside := w.inside held
  exact Or.inl (by omega)

/-- There the two reads agree, whatever the range. -/
theorem MemoryView.Windowed.loadBytes_eq (w : m.Windowed) :
    m.loadBytes addr len = m.loadBytesSlow addr len := loadBytes_of_unhidden w.unhidden

end EbpfLab.Interp
