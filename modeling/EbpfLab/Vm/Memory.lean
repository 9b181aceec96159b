import EbpfLab.Isa.Insn
import EbpfLab.Isa.Num
import EbpfLab.Library.Bitset

/-!
# Guest memory

The memory of the interpreter: stack, packet, XDP context, map scratch and staged data, each behind
one base address. Bounds are checked before alignment, and the stack also tracks which bytes were
written.
-/

namespace EbpfLab.Interp
open Isa Library

abbrev Bytes := List UInt8

/-- `STACK_SIZE`. -/
def stackSize : Nat := 512

/-- `STACK_BASE`, the value of `r10`. -/
def stackBase : Int64 := 0x10000

/-- `StackMemory::LOW`. -/
def stackLow : Int64 := stackBase - 512

/-- `PACKET_BASE`. -/
def packetBase : Int64 := 0x20000

/-- `MAP_SCRATCH_BASE`. -/
def mapScratchBase : Int64 := 0x30000

/-- `XDP_MD_BASE`. -/
def xdpMdBase : Int64 := 0x40000

/-- `XDP_MD_LEN`. -/
def xdpMdLen : Nat := 8

/-- `RODATA_BASE`. -/
def rodataBase : Int64 := 0x50000

inductive MemError where
  | outOfBounds (addr : Int64) (size : Nat)
  | stackOverflow (addr : Int64) (size : Nat)
  | uninitializedRead (addr : Int64) (size : Nat)
  | noPacket
  | misaligned (addr : Int64) (size align : Nat)
  deriving DecidableEq, Repr

inductive MemRegion where
  | stack | packet | mapScratch | xdpMd | rodata | unknown
  deriving DecidableEq, Repr

/-! ### Little-endian bytes -/

/-- Little-endian bytes as a zero-extended word; at most eight of them. -/
def leValue (bytes : Bytes) : Int64 :=
  (bytes.zipIdx.foldl (fun (v : UInt64) (b, i) => v ||| b.toUInt64 <<< UInt64.ofNat (8 * i)) 0).toInt64

/-- The low `width` bytes of `to_le_bytes`. -/
def leBytes (value : Int64) (width : Nat) : Bytes :=
  (List.range width).map fun i => (value.toUInt64 >>> UInt64.ofNat (8 * i)).toUInt8

/-- `bytes[off..off + width]`. -/
def slice (bytes : Bytes) (off width : Nat) : Bytes := (bytes.drop off).take width

/-- `bytes[off..][..new.len()].copy_from_slice(new)`. -/
def overwrite (bytes : Bytes) (off : Nat) (new : Bytes) : Bytes :=
  bytes.take off ++ new ++ bytes.drop (off + new.length)

@[simp] theorem length_leBytes (value : Int64) (width : Nat) :
    (leBytes value width).length = width := by
  simp [leBytes]

theorem length_slice {bytes : Bytes} {off width : Nat} (inside : off + width ≤ bytes.length) :
    (slice bytes off width).length = width := by
  simp [slice]
  omega

theorem length_overwrite {bytes new : Bytes} {off : Nat}
    (inside : off + new.length ≤ bytes.length) :
    (overwrite bytes off new).length = bytes.length := by
  simp [overwrite]
  omega

theorem getElem?_overwrite {bytes new : Bytes} {off k : Nat} (inside : off + new.length ≤ bytes.length)
    (apart : k < off ∨ off + new.length ≤ k) : (overwrite bytes off new)[k]? = bytes[k]? := by
  have length : (bytes.take off).length = off := by
    rw [List.length_take]
    omega
  unfold overwrite
  rcases apart with before | after
  · rw [List.append_assoc, List.getElem?_append_left (by omega), List.getElem?_take_of_lt before]
  · rw [List.getElem?_append_right (by rw [List.length_append]; omega), List.getElem?_drop, List.length_append,
      length]
    congr 1
    omega

theorem getElem?_overwrite_inside {bytes new : Bytes} {off k : Nat} (inside : off + new.length ≤ bytes.length)
    (lower : off ≤ k) (upper : k < off + new.length) : (overwrite bytes off new)[k]? = new[k - off]? := by
  have length : (bytes.take off).length = off := by
    rw [List.length_take]
    omega
  unfold overwrite
  rw [List.append_assoc, List.getElem?_append_right (by omega), length, List.getElem?_append_left (by omega)]

/-! ### Bounds and alignment -/

/-- The offset of `addr` from `base`, when `width` bytes there stay inside `len`. -/
def boundedOffset (addr base : Int64) (width len : Nat) : Option Nat :=
  ((checkedSub addr base).bind usizeOf).filter fun off => off + width ≤ len

/-- `check_alignment`. -/
def checkAlignment (addr : Int64) (size : MemSize) : Except MemError Unit :=
  let align := Int64.ofNat size.bytes
  if align > 1 ∧ addr &&& (align - 1) ≠ 0 then
    .error (.misaligned addr size.bytes size.bytes)
  else .ok ()

/-- Alignment, when the view enforces it. -/
def alignedIf (alignChecks : Bool) (addr : Int64) (size : MemSize) : Except MemError Unit :=
  if alignChecks then checkAlignment addr size else .ok ()

/-- Load from a read-only or scratch region: bounds, then alignment, then the bytes. -/
def regionLoad (bytes : Bytes) (base addr : Int64) (size : MemSize) (alignChecks : Bool) :
    Except MemError Int64 :=
  match boundedOffset addr base size.bytes bytes.length with
  | none => .error (.outOfBounds addr size.bytes)
  | some off => do
    alignedIf alignChecks addr size
    .ok (leValue (slice bytes off size.bytes))

/-! ### Stack -/

/-- The 512-byte stack and the bitmap of its written bytes. -/
structure StackMemory where
  bytes : Bytes
  initialized : Bitset 8
  length_bytes : bytes.length = stackSize

namespace StackMemory

def default : StackMemory :=
  { bytes := List.replicate stackSize 0, initialized := .empty
    length_bytes := List.length_replicate }

/-- `StackMemory::index`. -/
def index (addr : Int64) (size : MemSize) : Except MemError Nat :=
  match checkedSub addr stackLow with
  | none => .error (.stackOverflow addr size.bytes)
  | some off =>
    if off.toInt < 0 ∨ off.toInt > 512 - size.bytes then
      .error (.stackOverflow addr size.bytes)
    else .ok off.toInt.toNat

def isInit (s : StackMemory) (i width : Nat) : Bool := s.initialized.testRange i width

def load (s : StackMemory) (addr : Int64) (size : MemSize) (alignChecks : Bool) :
    Except MemError Int64 := do
  let i ← index addr size
  alignedIf alignChecks addr size
  if s.isInit i size.bytes then .ok (leValue (slice s.bytes i size.bytes))
  else .error (.uninitializedRead addr size.bytes)

theorem index_inside {addr : Int64} {size : MemSize} {i : Nat} (found : index addr size = .ok i) :
    i + size.bytes ≤ stackSize := by
  unfold index at found
  split at found
  · cases found
  · split at found
    · cases found
    · cases found
      have wide : size.bytes ≤ 8 := by cases size <;> decide
      simp only [stackSize]
      omega

theorem length_overwritten (s : StackMemory) {i : Nat} {new : Bytes} (inside : i + new.length ≤ stackSize) :
    (overwrite s.bytes i new).length = stackSize :=
  (length_overwrite (s.length_bytes ▸ inside)).trans s.length_bytes

theorem value_inside {addr value : Int64} {size : MemSize} {i : Nat} (found : index addr size = .ok i) :
    i + (leBytes value size.bytes).length ≤ stackSize := by
  simpa using index_inside found

/-- Write `width` bytes at `i` and mark them. -/
def write (s : StackMemory) (i : Nat) (new : Bytes) (inside : i + new.length ≤ stackSize) :
    StackMemory :=
  { bytes := overwrite s.bytes i new
    initialized := s.initialized.setRange i new.length
    length_bytes := s.length_overwritten inside }

def store (s : StackMemory) (addr : Int64) (size : MemSize) (value : Int64) (alignChecks : Bool) :
    Except MemError StackMemory :=
  match found : index addr size with
  | .error e => .error e
  | .ok i => do
    alignedIf alignChecks addr size
    .ok (s.write i (leBytes value size.bytes) (value_inside found))

end StackMemory

/-! ### The view -/

structure MemoryView where
  stack : StackMemory
  packet : Option Bytes
  xdpMd : Bytes
  mapScratch : Bytes
  rodata : Option Bytes
  alignChecks : Bool

namespace MemoryView

def default : MemoryView :=
  { stack := .default, packet := none, xdpMd := List.replicate xdpMdLen 0, mapScratch := []
    rodata := none, alignChecks := true }

/-- `MemoryView::classify`. -/
def classify (addr : Int64) : MemRegion :=
  if addr ≥ stackLow ∧ addr ≤ stackBase then .stack
  else if addr ≥ rodataBase then .rodata
  else if addr ≥ xdpMdBase then .xdpMd
  else if addr ≥ mapScratchBase then .mapScratch
  else if addr ≥ packetBase then .packet
  else .unknown

/-- `u32::try_from(v).unwrap_or(u32::MAX)`. -/
def saturateU32 (v : Int64) : UInt32 :=
  if 0 ≤ v.toInt ∧ v.toInt < 2 ^ 32 then v.toUInt64.toUInt32 else 0xFFFFFFFF

/-- Install a packet and stage `data` and `data_end` in the context. -/
def setPacket (m : MemoryView) (packet : Bytes) : MemoryView :=
  let fin := saturatingI64 (packetBase.toInt + (saturatingI64 packet.length).toInt)
  { m with
    packet := some packet
    xdpMd := leBytes (zeroExtend (saturateU32 packetBase)) 4 ++
      leBytes (zeroExtend (saturateU32 fin)) 4 }

def setMapScratch (m : MemoryView) (value : Bytes) : MemoryView := { m with mapScratch := value }

def setRodata (m : MemoryView) (data : Bytes) : MemoryView := { m with rodata := some data }

def load (m : MemoryView) (addr : Int64) (size : MemSize) : Except MemError Int64 :=
  match classify addr with
  | .stack => m.stack.load addr size m.alignChecks
  | .packet =>
    match m.packet with
    | none => .error .noPacket
    | some packet => regionLoad packet packetBase addr size m.alignChecks
  | .mapScratch => regionLoad m.mapScratch mapScratchBase addr size m.alignChecks
  | .xdpMd => regionLoad m.xdpMd xdpMdBase addr size m.alignChecks
  | .rodata =>
    match m.rodata with
    | none => .error (.outOfBounds addr size.bytes)
    | some data => regionLoad data rodataBase addr size m.alignChecks
  | .unknown => .error (.outOfBounds addr size.bytes)

/-- `scratch_store`. -/
def scratchStore (m : MemoryView) (addr : Int64) (size : MemSize) (value : Int64) :
    Except MemError MemoryView :=
  match boundedOffset addr mapScratchBase size.bytes m.mapScratch.length with
  | none => .error (.outOfBounds addr size.bytes)
  | some off => do
    alignedIf m.alignChecks addr size
    .ok { m with mapScratch := overwrite m.mapScratch off (leBytes value size.bytes) }

def store (m : MemoryView) (addr : Int64) (size : MemSize) (value : Int64) :
    Except MemError MemoryView :=
  match classify addr with
  | .stack => do
    let stack ← m.stack.store addr size value m.alignChecks
    .ok { m with stack }
  | .mapScratch => m.scratchStore addr size value
  | .packet | .xdpMd | .rodata | .unknown => .error (.outOfBounds addr size.bytes)

/-- Whole-range attempt of `load_bytes`; `none` leaves the fault to the byte-wise loop. -/
def loadBytesBulk (m : MemoryView) (addr : Int64) (len : Nat) : Option Bytes :=
  let region (bytes : Bytes) (base : Int64) : Option Bytes :=
    (boundedOffset addr base len bytes.length).map fun off => slice bytes off len
  match classify addr with
  | .stack =>
    (boundedOffset addr stackLow len stackSize).bind fun off =>
      if (List.range' off len).all fun i => m.stack.isInit i 1 then
        some (slice m.stack.bytes off len)
      else none
  | .packet => m.packet.bind fun packet => region packet packetBase
  | .mapScratch => region m.mapScratch mapScratchBase
  | .xdpMd => region m.xdpMd xdpMdBase
  | .rodata => m.rodata.bind fun data => region data rodataBase
  | .unknown => none

/-- Byte-wise fallback, one full dispatch per byte. -/
def loadBytesSlow (m : MemoryView) (addr : Int64) : Nat → Except MemError Bytes
  | 0 => .ok []
  | len + 1 => do
    let b ← m.load addr .b
    let rest ← m.loadBytesSlow (addr + 1) len
    .ok (b.toUInt64.toUInt8 :: rest)

def loadBytes (m : MemoryView) (addr : Int64) (len : Nat) : Except MemError Bytes :=
  if len = 0 then .ok []
  else
    match m.loadBytesBulk addr len with
    | some bytes => .ok bytes
    | none => m.loadBytesSlow addr len

end MemoryView

end EbpfLab.Interp
