import EbpfLab.Isa.Slots
import EbpfLab.Vm.Maps

/-!
# The interpreter

`load` resolves a decoded program once; `step` executes one resolved instruction over registers,
memory and map stores. Helpers follow their calling convention: arguments in `r1`–`r5`, result in
`r0`, and the call advances by one.
-/

namespace EbpfLab.Interp
open Isa

inductive VmError where
  | illegalInstruction (pc : Nat)
  | jumpOutOfBounds (pc : Nat) (target : Int)
  | unknownHelper (func : UInt32)
  | invalidEndWidth (pc : Nat) (width : Int64)
  | stepsExceeded (limit : Nat)
  | memory (e : MemError)
  deriving DecidableEq, Repr

inductive TrapKind where
  | oobJump (target : Int)
  | badEndWidth (width : Int64)
  | illegal
  deriving DecidableEq, Repr

/-- `TrapKind::into_error`. -/
def TrapKind.intoError (kind : TrapKind) (pc : Nat) : VmError :=
  match kind with
  | .oobJump target => .jumpOutOfBounds pc target
  | .badEndWidth width => .invalidEndWidth pc width
  | .illegal => .illegalInstruction pc

/-- A pre-resolved instruction: operands split, jump targets absolute. -/
inductive ExecInsn where
  | aluReg (width : Width) (op : AluOp) (dst src : Reg)
  | aluImm (width : Width) (op : AluOp) (dst : Reg) (imm : Int32)
  | load (size : MemSize) (dst base : Reg) (offset : Int16)
  | storeReg (size : MemSize) (base : Reg) (offset : Int16) (src : Reg)
  | storeImm (size : MemSize) (base : Reg) (offset : Int16) (imm : Int32)
  | loadImm64 (dst : Reg) (imm : Int64)
  | jumpReg (width : Width) (op : JumpOp) (dst src : Reg) (target : Nat)
  | jumpImm (width : Width) (op : JumpOp) (dst : Reg) (imm : Int32) (target : Nat)
  | jumpAlways (target : Nat)
  | call (func : UInt32)
  | exit
  | trap (kind : TrapKind)
  deriving DecidableEq, Repr

/-! ### Loading -/

/-- `slot_table`: the slot of each instruction and the inverse map, `none` for the second slot of a
wide load. -/
def execSlotTable (insns : List Insn) : List Nat × List (Option Nat) :=
  (slotsFrom 0 insns, slotTable none some insns)

/-- Resolve a jump at decoded index `i` to an absolute decoded target. -/
def resolve (i : Nat) (offset : Int16) (slots : List Nat) (rev : List (Option Nat)) :
    Except TrapKind Nat :=
  let target : Int := slots.getD i 0 + 1 + offset.toInt
  if target < 0 then .error (.oobJump target)
  else
    match rev[target.toNat]?.join with
    | none => .error (.oobJump target)
    | some decoded => if decoded < 2 ^ 32 then .ok decoded else .error (.oobJump target)

/-- `lower_one`. -/
def lowerOne (i : Nat) (insn : Insn) (slots : List Nat) (rev : List (Option Nat)) : ExecInsn :=
  match insn with
  | .alu width (.byteSwap endian) dst src =>
    match src with
    | .reg _ => .trap .illegal
    | .imm w =>
      if w = 16 ∨ w = 32 ∨ w = 64 then .aluImm width (.byteSwap endian) dst w
      else .trap (.badEndWidth w.toInt64)
  | .alu width op dst (.reg src) => .aluReg width op dst src
  | .alu width op dst (.imm imm) => .aluImm width op dst imm
  | .load size dst base offset => .load size dst base offset
  | .store size base offset (.reg src) => .storeReg size base offset src
  | .store size base offset (.imm imm) => .storeImm size base offset imm
  | .loadImm64 dst imm => .loadImm64 dst imm
  | .jump width op dst src offset =>
    match resolve i offset slots rev with
    | .error kind => .trap kind
    | .ok target =>
      if op = .always then .jumpAlways target
      else
        match src with
        | .reg src => .jumpReg width op dst src target
        | .imm imm => .jumpImm width op dst imm target
  | .call func => .call func
  | .exit => .exit
  | .unknown _ => .trap .illegal

/-- `exec::load`. -/
def load (insns : List Insn) : List ExecInsn :=
  let (slots, rev) := execSlotTable insns
  insns.zipIdx.map fun (insn, i) => lowerOne i insn slots rev

/-! ### Machine state -/

/-- What a run changes besides registers and program counter. -/
structure World where
  memory : MemoryView
  maps : Stores

/-- Resolve `fd` to its live store. -/
def World.mapStore (w : World) (fd : Int64) : Option MapStore :=
  (usizeOf fd).bind fun i => w.maps[i]?.join

/-- Put back the entries of the store behind `fd`. -/
def World.setStore (w : World) (fd : Int64) (store : MapStore) : World :=
  match usizeOf fd with
  | none => w
  | some i => { w with maps := w.maps.set i (some store) }

/-- `read_guest_bytes`. -/
def World.readGuestBytes (w : World) (addr : Int64) (len : Nat) : Except VmError Bytes :=
  (w.memory.loadBytes addr len).mapError .memory

abbrev Regs := Reg → Int64

/-- `zeroed_with_frame_pointer`. -/
def Regs.zeroedWithFramePointer : Regs := fun r => if r.isFramePtr then stackBase else 0

/-- Assignment through an instruction: `r10` silently keeps its value. -/
def Regs.write (regs : Regs) (dst : Reg) (value : Int64) : Regs := fun r =>
  if r = dst ∧ dst.isFramePtr = false then value else regs r

/-- A helper reads its arguments, and on success yields the new `r0`. -/
abbrev HelperFn := Regs → World → Except VmError (Int64 × World)

abbrev HelperRegistry := UInt32 → Option HelperFn

def helperMapLookup : HelperFn := fun regs w =>
  match w.mapStore (regs 1) with
  | none => .ok (0, w)
  | some store => do
    let key ← w.readGuestBytes (regs 2) store.desc.keySize
    match store.lookup key with
    | .error _ => .ok (0, w)
    | .ok (none, data) => .ok (0, w.setStore (regs 1) ⟨store.desc, data⟩)
    | .ok (some value, data) =>
      let w := w.setStore (regs 1) ⟨store.desc, data⟩
      .ok (mapScratchBase, { w with memory := w.memory.setMapScratch value.val })

/-- `u64::try_from(flags).unwrap_or(u64::MAX)`. -/
def flagsOf (flags : Int64) : Nat := (usizeOf flags).getD (2 ^ 64 - 1)

def helperMapUpdate : HelperFn := fun regs w =>
  match w.mapStore (regs 1) with
  | none => .ok (-1, w)
  | some store => do
    let key ← w.readGuestBytes (regs 2) store.desc.keySize
    let value ← w.readGuestBytes (regs 3) store.desc.valueSize
    match store.update key value (flagsOf (regs 4)) with
    | .error _ => .ok (-1, w)
    | .ok data => .ok (0, w.setStore (regs 1) ⟨store.desc, data⟩)

def helperMapDelete : HelperFn := fun regs w =>
  match w.mapStore (regs 1) with
  | none => .ok (-1, w)
  | some store => do
    let key ← w.readGuestBytes (regs 2) store.desc.keySize
    match store.delete key with
    | .error _ => .ok (-1, w)
    | .ok data => .ok (0, w.setStore (regs 1) ⟨store.desc, data⟩)

namespace HelperRegistry

def empty : HelperRegistry := fun _ => none

def insert (r : HelperRegistry) (func : UInt32) (helper : HelperFn) : HelperRegistry :=
  fun f => if f = func then some helper else r f

/-- The built-in map helpers. -/
def withMapHelpers : HelperRegistry :=
  ((empty.insert 1 helperMapLookup).insert 2 helperMapUpdate).insert 3 helperMapDelete

end HelperRegistry

/-- The interpreter. -/
structure Vm extends World where
  regs : Regs
  pc : Nat
  exec : List ExecInsn
  helpers : HelperRegistry

inductive StepResult where
  | cont
  | exit (code : Int64)
  | error (e : VmError)
  deriving DecidableEq, Repr

namespace Vm

/-- `Vm::new`. -/
def new (insns : List Insn) : Vm :=
  { regs := .zeroedWithFramePointer, pc := 0, exec := load insns, memory := .default
    helpers := .empty, maps := [] }

/-- `Vm::new_with_stores`. -/
def newWithStores (insns : List Insn) (maps : Stores) : Vm :=
  { new insns with helpers := .withMapHelpers, maps }

/-- `install_xdp_packet`: stage the packet and point `r1` at its context. -/
def installXdpPacket (vm : Vm) (packet : Bytes) : Vm :=
  { vm with memory := vm.memory.setPacket packet, regs := vm.regs.write 1 xdpMdBase }

/-- `install_rodata`. -/
def installRodata (vm : Vm) (data : Bytes) : Vm :=
  { vm with memory := vm.memory.setRodata data }

/-- Write `dst` and advance. -/
def assign (vm : Vm) (dst : Reg) (value : Int64) : Vm :=
  { vm with regs := vm.regs.write dst value, pc := vm.pc + 1 }

/-- Store through `base + offset` and advance. -/
def storeTo (vm : Vm) (size : MemSize) (base : Reg) (offset : Int16) (value : Int64) :
    Vm × StepResult :=
  match vm.memory.store (vm.regs base + offset.toInt64) size value with
  | .ok memory => ({ vm with memory, pc := vm.pc + 1 }, .cont)
  | .error e => (vm, .error (.memory e))

/-- Go to `target` or to the next instruction. -/
def branch (vm : Vm) (taken : Bool) (target : Nat) : Vm :=
  { vm with pc := if taken then target else vm.pc + 1 }

/-- `dispatch_helper`. -/
def dispatchHelper (vm : Vm) (func : UInt32) : Vm × StepResult :=
  match vm.helpers func with
  | none => (vm, .error (.unknownHelper func))
  | some helper =>
    match helper vm.regs vm.toWorld with
    | .error e => (vm, .error e)
    | .ok (r0, w) => ({ vm with toWorld := w, regs := vm.regs.write 0 r0, pc := vm.pc + 1 }, .cont)

/-- One fetched instruction. -/
def execute (vm : Vm) : ExecInsn → Vm × StepResult
  | .aluReg width op dst src =>
    (vm.assign dst (op.apply (vm.regs dst) (vm.regs src) width), .cont)
  | .aluImm width op dst imm => (vm.assign dst (op.apply (vm.regs dst) imm.toInt64 width), .cont)
  | .loadImm64 dst imm => (vm.assign dst imm, .cont)
  | .load size dst base offset =>
    match vm.memory.load (vm.regs base + offset.toInt64) size with
    | .ok v => (vm.assign dst v, .cont)
    | .error e => (vm, .error (.memory e))
  | .storeReg size base offset src => vm.storeTo size base offset (vm.regs src)
  | .storeImm size base offset imm => vm.storeTo size base offset imm.toInt64
  | .jumpReg width op dst src target =>
    (vm.branch (jumpTaken op (vm.regs dst) (vm.regs src) width) target, .cont)
  | .jumpImm width op dst imm target =>
    (vm.branch (jumpTaken op (vm.regs dst) imm.toInt64 width) target, .cont)
  | .jumpAlways target => (vm.branch true target, .cont)
  | .call func => vm.dispatchHelper func
  | .exit => (vm, .exit (vm.regs 0))
  | .trap kind => (vm, .error (kind.intoError vm.pc))

/-- `Vm::step`. The fetch bounds-check reports a program counter past the end. -/
def step (vm : Vm) : Vm × StepResult :=
  match vm.exec[vm.pc]? with
  | none => (vm, .error (.jumpOutOfBounds vm.pc vm.pc))
  | some insn => vm.execute insn

/-- The loop of `Vm::run` with `fuel` turns left of `limit`. -/
def runFrom (limit : Nat) : Nat → Vm → Vm × Except VmError Int64
  | 0, vm => (vm, .error (.stepsExceeded limit))
  | fuel + 1, vm =>
    match vm.step with
    | (vm, .cont) => runFrom limit fuel vm
    | (vm, .exit code) => (vm, .ok code)
    | (vm, .error e) => (vm, .error e)

/-- `Vm::run`, with the machine it leaves. -/
def run (vm : Vm) (maxSteps : Nat) : Vm × Except VmError Int64 := runFrom maxSteps maxSteps vm

end Vm

end EbpfLab.Interp
