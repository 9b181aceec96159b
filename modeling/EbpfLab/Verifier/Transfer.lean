import EbpfLab.Cfg.Build
import EbpfLab.Verifier.State

/-!
# Transfer functions

The per-instruction checks and abstract effects of the verifier, the helper signatures, and the
refinement of a state along an edge.
-/

namespace EbpfLab.Verifier
open Isa Interp FlowGraph

inductive VerifyError where
  | uninitRegister (pc : Nat) (reg : Reg)
  | typeMismatch (pc : Nat) (register : Reg) (expected found : String)
  | stackOverflow (pc : Nat)
  | uninitStackRead (pc : Nat) (offset : Int32)
  | unknownHelper (pc : Nat) (func : UInt32)
  | badMapFd (pc : Nat) (fd : Int64)
  | unboundedLoop (pc : Nat)
  | loopBudgetExceeded (pc trip limit : Nat)
  | nullMapPtrAccess (pc : Nat) (register : Reg) (fd : Int64)
  | mapValueOutOfBounds (pc : Nat) (fd : Int64) (offset : Int32) (size valueSize : Nat)
  | packetOutOfBounds (pc : Nat) (offset : Int32) (size packetLen : Nat)
  | noPacketContext (pc : Nat)
  | dataOutOfBounds (pc : Nat) (offset : Int32) (size dataLen : Nat)
  | noDataContext (pc : Nat)
  | misalignedAccess (pc : Nat) (offset : Int32) (size : Nat)
  | invalidEndWidth (pc : Nat) (width : Int64)
  | illegalInstruction (pc : Nat)
  deriving DecidableEq, Repr

/-! ### Register checks -/

/-- `ensure_init`. -/
def ensureInit (s : VerifierState) (r : Reg) (pc : Nat) : Except VerifyError Unit :=
  if s.reg r = .notInit then .error (.uninitRegister pc r) else .ok ()

/-- `ensure_init` on a register operand. -/
def ensureOperandInit (s : VerifierState) (src : Operand) (pc : Nat) : Except VerifyError Unit :=
  match src with
  | .reg r => ensureInit s r pc
  | .imm _ => .ok ()

/-- `ensure_stack_ptr`. -/
def ensureStackPtr (s : VerifierState) (r : Reg) (pc : Nat) : Except VerifyError Unit :=
  let mismatch (found : String) : Except VerifyError Unit :=
    .error (.typeMismatch pc r "stack pointer" found)
  match s.reg r with
  | .stackPtr _ => .ok ()
  | .notInit => .error (.uninitRegister pc r)
  | .scalar _ => mismatch "scalar"
  | .mapPtr _ => mismatch "map pointer"
  | .maybeMapPtr _ => mismatch "nullable map pointer"
  | .xdpMdPtr => mismatch "xdp context pointer"
  | .packetPtr _ => mismatch "packet pointer"
  | .dataPtr _ => mismatch "data pointer"

/-! ### Checked 32-bit offsets -/

/-- The `i32` of an integer that fits. -/
def checkedI32 (x : Int) : Option Int32 :=
  if -2 ^ 31 ≤ x ∧ x < 2 ^ 31 then some (Int32.ofInt x) else none

/-- `byte_range`: the start offset and the inclusive bitmap indices of an access. -/
def byteRange (baseOff : Int32) (offset : Int16) (width : Nat) (pc : Nat) :
    Except VerifyError (Int32 × Nat × Nat) :=
  match checkedI32 (baseOff.toInt + offset.toInt) with
  | none => .error (.stackOverflow pc)
  | some start =>
    match checkedI32 (start.toInt + width) with
    | none => .error (.stackOverflow pc)
    | some fin =>
      if start.toInt < -512 ∨ fin.toInt > 0 then .error (.stackOverflow pc)
      else if fin.toInt - 1 + 512 < 0 then .error (.stackOverflow pc)
      else .ok (start, (start.toInt + 512).toNat, (fin.toInt - 1 + 512).toNat)

/-- `check_mem_access`: a stack access by bounds, then alignment. -/
def checkMemAccess (s : VerifierState) (base : Reg) (offset : Int16) (size : MemSize) (pc : Nat) :
    Except VerifyError (Int32 × Nat × Nat) := do
  ensureStackPtr s base pc
  let baseOff := (s.reg base).stackOffset.getD 0
  let (start, lo, hi) ← byteRange baseOff offset size.bytes pc
  if size.bytes > 1 ∧ (baseOff.toInt + offset.toInt) % size.bytes ≠ 0 then
    throw (.misalignedAccess pc start size.bytes)
  .ok (start, lo, hi)

/-! ### Map values -/

/-- `map_value_fd`. -/
def mapValueFd (s : VerifierState) (base : Reg) (pc : Nat) : Except VerifyError (Option Int64) :=
  match s.reg base with
  | .mapPtr fd => .ok (some fd)
  | .maybeMapPtr fd => .error (.nullMapPtrAccess pc base fd)
  | _ => .ok none

/-- `map_desc`. -/
def mapDesc (s : VerifierState) (fd : Int64) : Option MapDesc :=
  (usizeOf fd).bind fun i => s.maps[i]?.join

/-- Natural alignment of an offset from an aligned base. -/
def checkOffsetAlign (offset : Int16) (size : MemSize) (pc : Nat) : Except VerifyError Unit :=
  if size.bytes > 1 ∧ offset.toInt % size.bytes ≠ 0 then
    .error (.misalignedAccess pc offset.toInt32 size.bytes)
  else .ok ()

/-- The bound shared by the fixed-size regions: `offset .. offset + width` inside `len`. -/
def offsetInside (offset : Int16) (width len : Nat) : Bool :=
  0 ≤ offset.toInt && offset.toInt + width ≤ len

/-- `check_map_value_bounds`. -/
def checkMapValueBounds (s : VerifierState) (fd : Int64) (offset : Int16) (size : MemSize)
    (pc : Nat) : Except VerifyError Unit :=
  match mapDesc s fd with
  | none => .error (.badMapFd pc fd)
  | some desc =>
    if offsetInside offset size.bytes desc.valueSize then checkOffsetAlign offset size pc
    else .error (.mapValueOutOfBounds pc fd offset.toInt32 size.bytes desc.valueSize)

/-! ### Packet, context and data -/

/-- `check_ctx_load`. -/
def checkCtxLoad (s : VerifierState) (offset : Int16) (size : MemSize) (pc : Nat) :
    Except VerifyError RegType :=
  match s.packetLen with
  | none => .error (.noPacketContext pc)
  | some len =>
    if offsetInside offset size.bytes xdpMdLen then do
      checkOffsetAlign offset size pc
      if offset = 0 ∧ size = .w then .ok (.packetPtr (.exact 0))
      else if offset = 4 ∧ size = .w then
        let fin := saturatingI64 (packetBase.toInt + (saturatingI64 len).toInt)
        .ok (.scalar (.exact fin))
      else .ok (.scalar .top)
    else .error (.packetOutOfBounds pc offset.toInt32 size.bytes len)

/-- The check `check_packet_bounds` and `check_data_bounds` share: bounds of every offset in the
range, then alignment of an exact one. -/
def checkRangeBounds (baseOff : Range) (offset : Int16) (size : MemSize) (pc len : Nat)
    (outOfBounds : VerifyError) : Except VerifyError Unit :=
  let against (lo hi : Int64) : Except VerifyError Unit :=
    match checkedI64 (lo.toInt + offset.toInt), checkedI64 (hi.toInt + offset.toInt) with
    | some startLo, some startHi =>
      match checkedI64 (startHi.toInt + size.bytes), checkedI64 len with
      | some finHi, some len =>
        if startLo < 0 ∨ finHi > len then .error outOfBounds
        else if size.bytes > 1 ∧ (startLo ≠ startHi ∨ startLo.toInt % size.bytes ≠ 0) then
          .error (.misalignedAccess pc ((checkedI32 startLo.toInt).getD Int32.maxValue) size.bytes)
        else .ok ()
      | _, _ => .error outOfBounds
    | _, _ => .error outOfBounds
  match baseOff with
  | .bottom => .ok ()
  | .interval lo hi => against lo hi
  | .top => against Int64.minValue Int64.maxValue

/-- `check_packet_bounds`. -/
def checkPacketBounds (s : VerifierState) (baseOff : Range) (offset : Int16) (size : MemSize)
    (pc : Nat) : Except VerifyError Unit :=
  match s.packetLen with
  | none => .error (.noPacketContext pc)
  | some len =>
    checkRangeBounds baseOff offset size pc len
      (.packetOutOfBounds pc offset.toInt32 size.bytes len)

/-- `check_data_bounds`. -/
def checkDataBounds (s : VerifierState) (baseOff : Range) (offset : Int16) (size : MemSize)
    (pc : Nat) : Except VerifyError Unit :=
  match s.dataLen with
  | none => .error (.noDataContext pc)
  | some len =>
    checkRangeBounds baseOff offset size pc len
      (.dataOutOfBounds pc offset.toInt32 size.bytes len)

/-- `packet_store_error`. -/
def packetStoreError (s : VerifierState) (offset : Int16) (size : MemSize) (pc : Nat) :
    VerifyError :=
  match s.packetLen with
  | none => .noPacketContext pc
  | some len => .packetOutOfBounds pc offset.toInt32 size.bytes len

/-- `data_store_error`. -/
def dataStoreError (s : VerifierState) (offset : Int16) (size : MemSize) (pc : Nat) :
    VerifyError :=
  match s.dataLen with
  | none => .noDataContext pc
  | some len => .dataOutOfBounds pc offset.toInt32 size.bytes len

/-- `store_readonly_error`. -/
def storeReadonlyError (s : VerifierState) (base : Reg) (offset : Int16) (size : MemSize)
    (pc : Nat) : VerifyError :=
  match s.reg base with
  | .dataPtr _ => dataStoreError s offset size pc
  | _ => packetStoreError s offset size pc

/-! ### Helper signatures -/

/-- `map_fd`: the exact descriptor in `r1`, or `none` for a range of scalars. -/
def mapFd (s : VerifierState) (pc : Nat) : Except VerifyError (Option Int64) :=
  match s.reg 1 with
  | .scalar (.interval lo hi) => .ok (if lo = hi then some lo else none)
  | .scalar _ => .ok none
  | .notInit => .error (.uninitRegister pc 1)
  | _ => .error (.typeMismatch pc 1 "scalar file descriptor" "pointer")

/-- `check_map_ptr`: a stack pointer over `size` written bytes. -/
def checkMapPtr (s : VerifierState) (r : Reg) (size : Nat) (pc : Nat) : Except VerifyError Unit := do
  ensureStackPtr s r pc
  let baseOff := (s.reg r).stackOffset.getD 0
  if size ≥ 2 ^ 8 then
    throw (.stackOverflow pc)
  let (start, lo, hi) ← byteRange baseOff 0 size pc
  if s.stackRangeInit lo hi then .ok () else .error (.uninitStackRead pc start)

/-- The map helpers' shared effect: `pointers` names the argument of each checked pointer with its
width in the descriptor, `result` the value of `r0` for a known map. -/
def mapHelperEffect (pointers : MapDesc → List (Reg × Nat)) (result : Int64 → RegType)
    (s : VerifierState) (pc : Nat) : Except VerifyError RegType := do
  match ← mapFd s pc with
  | none => .ok (.scalar .top)
  | some fd =>
    match mapDesc s fd with
    | none => .error (.badMapFd pc fd)
    | some desc => do
      (pointers desc).forM fun (r, size) => checkMapPtr s r size pc
      .ok (result fd)

abbrev HelperSignature := VerifierState → Nat → Except VerifyError RegType

def mapLookup : HelperSignature :=
  mapHelperEffect (fun desc => [(2, desc.keySize)]) .maybeMapPtr

def mapUpdate : HelperSignature :=
  mapHelperEffect (fun desc => [(2, desc.keySize), (3, desc.valueSize)]) fun _ => .scalar (.exact 0)

def mapDelete : HelperSignature :=
  mapHelperEffect (fun desc => [(2, desc.keySize)]) fun _ => .scalar (.exact 0)

def prandomU32 : HelperSignature := fun _ _ => .ok (.scalar (.interval 0 Int32.maxValue.toInt64))

def ktimeNs : HelperSignature := fun _ _ => .ok (.scalar (.interval 0 Int64.maxValue))

def tracePrintk : HelperSignature := fun _ _ => .ok (.scalar .top)

/-- `HelperSignatureRegistry::get`; none of the built-in helpers may write memory. -/
def builtInHelper (func : UInt32) : Option HelperSignature :=
  if func = 1 then some mapLookup
  else if func = 2 then some mapUpdate
  else if func = 3 then some mapDelete
  else if func = 43 then some prandomU32
  else if func = 5 then some ktimeNs
  else if func = 6 then some tracePrintk
  else none

/-! ### ALU transfer -/

/-- The constant an operand is known to be: an immediate, or a register with an exact range. -/
def exactOperand (s : VerifierState) : Operand → Option Int64
  | .imm v => some v.toInt64
  | .reg r =>
    match s.reg r with
    | .scalar (.interval lo hi) => if lo = hi then some lo else none
    | _ => none

/-- The shift `add` or `sub` by a constant makes on an offset range. -/
def shiftRange (op : AluOp) (offset : Range) (k : Int64) : Range :=
  match op with
  | .add => offset.add (.exact k)
  | _ => offset.sub (.exact k)

/-- The stack offset after `add` or `sub` by a constant; overflow degrades to a scalar. -/
def shiftStack (op : AluOp) (offset k : Int32) : RegType :=
  let k := match op with
    | .sub => checkedI32 (-k.toInt)
    | _ => some k
  match k.bind fun k => checkedI32 (offset.toInt + k.toInt) with
  | none => .scalar .top
  | some offset => .stackPtr offset

/-- `ptr_alu_transfer`: the new type of `dst` when the instruction is pointer arithmetic. -/
def ptrAluTransfer (s : VerifierState) (op : AluOp) (dst : Reg) (src : Operand) : Option RegType :=
  match op with
  | .mov =>
    match src with
    | .imm _ => none
    | .reg r =>
      if dst.isFramePtr then none
      else
        match s.reg r with
        | .stackPtr offset => some (.stackPtr offset)
        | .packetPtr offset => some (.packetPtr offset)
        | .dataPtr offset => some (.dataPtr offset)
        | .xdpMdPtr => some .xdpMdPtr
        | _ => none
  | .add | .sub =>
    match s.reg dst with
    | .stackPtr offset =>
      ((exactOperand s src).bind fun k => checkedI32 k.toInt).map fun k => shiftStack op offset k
    | .packetPtr offset => (exactOperand s src).map fun k => .packetPtr (shiftRange op offset k)
    | .dataPtr offset => (exactOperand s src).map fun k => .dataPtr (shiftRange op offset k)
    | _ => none
  | _ => none

/-- The abstract result of a scalar operation, before truncation. -/
def aluRange (op : AluOp) (lhs rhs : Range) : Range :=
  match op with
  | .add => lhs.add rhs
  | .sub | .mul | .div | .mod | .neg | .byteSwap _ => .top
  | .or => lhs.bitor rhs
  | .and => lhs.bitand rhs
  | .xor => lhs.bitxor rhs
  | .mov => rhs
  | .lsh => lhs.shl rhs
  | .rsh => lhs.shr rhs
  | .arsh => lhs.sar rhs

/-- The range of an operand. -/
def operandRange (s : VerifierState) : Operand → Range
  | .reg r => (s.reg r).scalarRange
  | .imm v => .exact v.toInt64

/-- The operand check of `BPF_END`. -/
def checkEnd (op : AluOp) (src : Operand) (pc : Nat) : Except VerifyError Unit :=
  match op, src with
  | .byteSwap _, .imm w =>
    if w = 16 ∨ w = 32 ∨ w = 64 then .ok () else .error (.invalidEndWidth pc w.toInt64)
  | .byteSwap _, .reg _ => .error (.illegalInstruction pc)
  | _, _ => .ok ()

/-- The type `alu_transfer` gives `dst`. -/
def aluResult (s : VerifierState) (width : Width) (op : AluOp) (dst : Reg) (src : Operand) :
    RegType :=
  let range := aluRange op (s.reg dst).scalarRange (operandRange s src)
  match width with
  | .b32 => .scalar range.trunc32
  | .b64 => (ptrAluTransfer s op dst src).getD (.scalar range)

/-- `alu_transfer`. -/
def aluTransfer (pc : Nat) (s : VerifierState) (width : Width) (op : AluOp) (dst : Reg)
    (src : Operand) : Except VerifyError VerifierState := do
  checkEnd op src pc
  ensureOperandInit s src pc
  .ok (s.assign dst (aluResult s width op dst src))

/-! ### Instructions -/

/-- The type a wide immediate gets: a data pointer when it names a staged byte. -/
def loadImmType (s : VerifierState) (imm : Int64) : RegType :=
  let dataOffset := do
    let len ← s.dataLen
    let off ← checkedSub imm rodataBase
    let len ← checkedI64 len
    if off ≥ 0 ∧ off < len then some off else none
  match dataOffset with
  | some off => .dataPtr (.exact off)
  | none => .scalar (.exact imm)

/-- The check of a load and the type it yields. -/
def loadType (pc : Nat) (s : VerifierState) (size : MemSize) (base : Reg) (offset : Int16) :
    Except VerifyError RegType := do
  match ← mapValueFd s base pc with
  | some fd => do
    checkMapValueBounds s fd offset size pc
    .ok (.scalar .top)
  | none =>
    match s.reg base with
    | .xdpMdPtr => checkCtxLoad s offset size pc
    | .packetPtr baseOff => do
      checkPacketBounds s baseOff offset size pc
      .ok (.scalar .top)
    | .dataPtr baseOff => do
      checkDataBounds s baseOff offset size pc
      .ok (.scalar .top)
    | _ => do
      let (start, lo, hi) ← checkMemAccess s base offset size pc
      if s.stackRangeInit lo hi then .ok (.scalar .top) else throw (.uninitStackRead pc start)

/-- The check of a store and the state it leaves. -/
def storeTransfer (pc : Nat) (s : VerifierState) (size : MemSize) (base : Reg) (offset : Int16)
    (src : Operand) : Except VerifyError VerifierState := do
  ensureOperandInit s src pc
  match ← mapValueFd s base pc with
  | some fd => do
    checkMapValueBounds s fd offset size pc
    .ok s
  | none =>
    match s.reg base with
    | .xdpMdPtr | .packetPtr _ | .dataPtr _ => throw (storeReadonlyError s base offset size pc)
    | _ => do
      let (_, lo, hi) ← checkMemAccess s base offset size pc
      .ok (s.markStackRange lo hi)

/-- `check_and_transfer`. -/
def checkAndTransfer (pc : Nat) (insn : Insn) (s : VerifierState) :
    Except VerifyError VerifierState :=
  match insn with
  | .alu width op dst src => aluTransfer pc s width op dst src
  | .loadImm64 dst imm => .ok (s.assign dst (loadImmType s imm))
  | .load size dst base offset => do
    let t ← loadType pc s size base offset
    .ok (s.assign dst t)
  | .store size base offset src => storeTransfer pc s size base offset src
  | .jump _ .always _ _ _ => .ok s
  | .jump _ _ dst src _ => do
    ensureInit s dst pc
    ensureOperandInit s src pc
    .ok s
  | .call func =>
    match builtInHelper func with
    | none => .error (.unknownHelper pc func)
    | some effect => do
      let r0 ← effect s pc
      .ok (s.setReg 0 r0)
  | .exit => do
    ensureInit s 0 pc
    .ok s
  | .unknown _ => .error (.illegalInstruction pc)

/-- `check_and_transfer` over the instructions `pc ..` of a block. -/
def transferFrom (pc : Nat) : List Insn → VerifierState → Except VerifyError VerifierState
  | [], s => .ok s
  | insn :: rest, s => do
    let s ← checkAndTransfer pc insn s
    transferFrom (pc + 1) rest s

/-! ### Edges -/

/-- `swap_op`. -/
def swapOp : JumpOp → Option JumpOp
  | .eq => some .eq
  | .ne => some .ne
  | .gt => some .lt
  | .ge => some .le
  | .lt => some .gt
  | .le => some .ge
  | .sgt => some .slt
  | .sge => some .sle
  | .slt => some .sgt
  | .sle => some .sge
  | .set | .always | .call | .exit => none

/-- `refine_reg`. -/
def refineReg (incoming : RegType) (op : JumpOp) (k : Int64) (taken : Bool) : RegType :=
  match incoming with
  | .maybeMapPtr fd =>
    let (op, taken) := match op with
      | .ne => (JumpOp.eq, !taken)
      | op => (op, taken)
    if op = .eq ∧ k = 0 then if taken then .scalar (.exact 0) else .mapPtr fd else .maybeMapPtr fd
  | .mapPtr fd => .mapPtr fd
  | _ => .scalar (incoming.scalarRange.refine op k taken)

/-- The packet-relative constant of an exact scalar. -/
def exactPacketOffset : RegType → Option Int64
  | .scalar (.interval lo hi) => if lo = hi then checkedSub lo packetBase else none
  | _ => none

/-- `refine_packet_edge`. -/
def refinePacketEdge (s : VerifierState) (op : JumpOp) (dst src : Reg) (taken : Bool) :
    VerifierState :=
  match s.reg dst, s.reg src with
  | .packetPtr offset, other =>
    match exactPacketOffset other with
    | some k => s.setReg dst (.packetPtr (offset.refine op k taken))
    | none => s
  | other, .packetPtr offset =>
    match exactPacketOffset other, swapOp op with
    | some k, some swapped => s.setReg src (.packetPtr (offset.refine swapped k taken))
    | _, _ => s
  | _, _ => s

/-- Whether a branch edge is the taken one. -/
def edgeTaken : EdgeKind → Option Bool
  | .branchTrue => some true
  | .branchFalse => some false
  | .fallthrough | .unconditional => none

/-- `refine_edge`, after the block whose last instruction is `last`. -/
def refineEdge (s : VerifierState) (kind : EdgeKind) (last : Option Insn) : VerifierState :=
  match edgeTaken kind, last with
  | some taken, some (.jump _ op dst (.imm k) _) =>
    s.setReg dst (refineReg (s.reg dst) op k.toInt64 taken)
  | some taken, some (.jump _ op dst (.reg src) _) => refinePacketEdge s op dst src taken
  | _, _ => s

end EbpfLab.Verifier
