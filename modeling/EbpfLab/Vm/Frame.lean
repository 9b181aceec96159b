import EbpfLab.Vm.Helpers

/-!
# What no step can touch

Every step keeps the frame pointer and the read-only regions, and forgets no written stack byte. The
map scratch changes in two ways only: a lookup that hits replaces it, and a store may write into it.
-/

namespace EbpfLab.Interp
open Isa Library

variable {vm vm' : Vm} {m m' : MemoryView} {addr value : Int64} {size : MemSize}

/-! ### Memory -/

/-- The regions a program cannot write are as they were. -/
structure ReadOnlyKept (m m' : MemoryView) : Prop where
  packet : m'.packet = m.packet
  xdpMd : m'.xdpMd = m.xdpMd
  rodata : m'.rodata = m.rodata

/-- No written stack byte is forgotten. -/
def StackGrows (m m' : MemoryView) : Prop :=
  ∀ k, m.stack.initialized.test k = true → m'.stack.initialized.test k = true

/-- The `size` bytes from `addr` lie in the scratch region. -/
def InScratch (m : MemoryView) (addr : Int64) (size : MemSize) : Prop :=
  mapScratchBase.toInt ≤ addr.toInt ∧
    addr.toInt + size.bytes ≤ mapScratchBase.toInt + m.mapScratch.length

theorem ReadOnlyKept.refl (m : MemoryView) : ReadOnlyKept m m := ⟨rfl, rfl, rfl⟩

theorem ReadOnlyKept.trans {m'' : MemoryView} (first : ReadOnlyKept m m')
    (second : ReadOnlyKept m' m'') : ReadOnlyKept m m'' :=
  ⟨second.packet.trans first.packet, second.xdpMd.trans first.xdpMd,
    second.rodata.trans first.rodata⟩

theorem boundedOffset_inside {base : Int64} {width len off : Nat}
    (found : boundedOffset addr base width len = some off) :
    addr.toInt = base.toInt + off ∧ off + width ≤ len := by
  unfold boundedOffset at found
  obtain ⟨inside, fits⟩ := Option.filter_eq_some_iff.mp found
  obtain ⟨gap, distance, offset⟩ := Option.bind_eq_some_iff.mp inside
  have gap_eq := checkedI64_eq_some.mp distance
  have off_eq := usizeOf_eq_some.mp offset
  exact ⟨by omega, by simpa using fits⟩

theorem stackStore_grows {s s' : StackMemory} {alignChecks : Bool}
    (stored : s.store addr size value alignChecks = .ok s') {k : Nat}
    (written : s.initialized.test k = true) : s'.initialized.test k = true := by
  unfold StackMemory.store at stored
  split at stored
  · cases stored
  · rename_i i found
    obtain ⟨_, _, stored⟩ := bind_eq_ok.mp stored
    cases stored
    have inside := StackMemory.index_inside found
    have short : size.bytes < 64 := by cases size <;> decide
    have positive : 0 < size.bytes := by cases size <;> decide
    simp only [StackMemory.write, length_leBytes]
    rw [Bitset.test_setRange _ _ _ _ short (by simpa [stackSize] using inside) positive, written]
    rfl

/-- A store writes the stack or, inside its bounds, the scratch. -/
theorem store_frame (stored : m.store addr size value = .ok m') :
    ReadOnlyKept m m' ∧ StackGrows m m' ∧ (m'.mapScratch ≠ m.mapScratch → InScratch m addr size) := by
  unfold MemoryView.store at stored
  split at stored
  · obtain ⟨stack, written, done⟩ := bind_eq_ok.mp stored
    cases done
    exact ⟨⟨rfl, rfl, rfl⟩, fun k => stackStore_grows written, fun moved => absurd rfl moved⟩
  · unfold MemoryView.scratchStore at stored
    split at stored
    · cases stored
    · rename_i off found
      obtain ⟨_, _, done⟩ := bind_eq_ok.mp stored
      cases done
      obtain ⟨place, fits⟩ := boundedOffset_inside found
      exact ⟨⟨rfl, rfl, rfl⟩, fun k => id, fun _ => ⟨by omega, by omega⟩⟩
  all_goals cases stored

/-! ### Steps -/

/-- The map helpers are the only ones registered. -/
def BuiltIn (helpers : HelperRegistry) : Prop :=
  ∀ func helper, helpers func = some helper → ∃ pointers, IsMapHelper func helper pointers

/-- The next step is a map lookup that finds its key. -/
def LookupHits (vm : Vm) : Prop :=
  vm.exec[vm.pc]? = some (.call 1) ∧ ∃ store key value data,
    vm.mapStore (vm.regs 1) = some store ∧
    vm.readGuestBytes (vm.regs 2) store.desc.keySize = .ok key ∧
    store.lookup key = .ok (some value, data)

/-- The address and the width of a store. -/
def ExecInsn.storeRange (regs : Regs) : ExecInsn → Option (Int64 × MemSize)
  | .storeReg size base offset _ | .storeImm size base offset _ =>
    some (regs base + offset.toInt64, size)
  | _ => none

/-- The next step is a store into the scratch region. -/
def StoresScratch (vm : Vm) : Prop :=
  ∃ insn addr size, vm.exec[vm.pc]? = some insn ∧ insn.storeRange vm.regs = some (addr, size) ∧
    InScratch vm.memory addr size

/-- What one step keeps. -/
structure StepFrame (vm vm' : Vm) : Prop where
  framePtr : vm'.regs Reg.framePtr = vm.regs Reg.framePtr
  readOnly : ReadOnlyKept vm.memory vm'.memory
  stack : StackGrows vm.memory vm'.memory
  scratch : vm'.memory.mapScratch ≠ vm.memory.mapScratch → LookupHits vm ∨ StoresScratch vm
  helpers : vm'.helpers = vm.helpers

theorem StepFrame.refl (vm : Vm) : StepFrame vm vm :=
  ⟨rfl, .refl _, fun _ => id, fun moved => absurd rfl moved, rfl⟩

theorem write_framePtr (regs : Regs) (dst : Reg) (value : Int64) :
    regs.write dst value Reg.framePtr = regs Reg.framePtr := by
  unfold Regs.write
  rw [if_neg]
  rintro ⟨rfl, other⟩
  cases other

theorem assign_frame (vm : Vm) (dst : Reg) (value : Int64) : StepFrame vm (vm.assign dst value) :=
  ⟨write_framePtr _ _ _, .refl _, fun _ => id, fun moved => absurd rfl moved, rfl⟩

theorem branch_frame (vm : Vm) (taken : Bool) (target : Nat) :
    StepFrame vm (vm.branch taken target) :=
  ⟨rfl, .refl _, fun _ => id, fun moved => absurd rfl moved, rfl⟩

theorem storeTo_frame {insn : ExecInsn} {base : Reg} {offset : Int16}
    (fetched : vm.exec[vm.pc]? = some insn)
    (range : insn.storeRange vm.regs = some (vm.regs base + offset.toInt64, size)) :
    StepFrame vm (vm.storeTo size base offset value).1 := by
  unfold Vm.storeTo
  split
  · rename_i memory stored
    obtain ⟨readOnly, stack, scratch⟩ := store_frame stored
    exact ⟨rfl, readOnly, stack, fun moved => .inr ⟨insn, _, size, fetched, range, scratch moved⟩, rfl⟩
  · exact .refl vm

/-- A lookup that changes the memory found its key. -/
theorem helperMapLookup_hit {regs : Regs} {w w' : World} {r0 : Int64}
    (called : helperMapLookup regs w = .ok (r0, w')) (moved : w'.memory ≠ w.memory) :
    ∃ store key value data, w.mapStore (regs 1) = some store ∧
      w.readGuestBytes (regs 2) store.desc.keySize = .ok key ∧
      store.lookup key = .ok (some value, data) ∧ w'.memory = w.memory.setMapScratch value.val := by
  unfold helperMapLookup at called
  split at called
  · cases called
    exact absurd rfl moved
  · rename_i store found
    obtain ⟨key, read, called⟩ := bind_eq_ok.mp called
    split at called
    · cases called
      exact absurd rfl moved
    · cases called
      exact absurd (setStore_memory w _ _) moved
    · rename_i value data hit
      cases called
      exact ⟨store, key, value, data, found, read, hit, by simp only [setStore_memory]⟩

/-- Only a lookup hit moves the scratch; the other helper calls leave the memory alone. -/
theorem dispatchHelper_frame {func : UInt32} (builtIn : BuiltIn vm.helpers)
    (fetched : vm.exec[vm.pc]? = some (.call func)) : StepFrame vm (vm.dispatchHelper func).1 := by
  unfold Vm.dispatchHelper
  split
  · exact .refl vm
  · rename_i helper known
    split
    · exact .refl vm
    · rename_i r0 w called
      obtain ⟨pointers, mapHelper⟩ := builtIn func helper known
      have framePtr := write_framePtr vm.regs 0 r0
      by_cases same : w.memory = vm.memory
      · refine ⟨framePtr, ?_, ?_, fun moved => ?_, rfl⟩
        · exact same ▸ .refl _
        · exact same ▸ fun _ => id
        · exact absurd (congrArg MemoryView.mapScratch same) moved
      · cases mapHelper with
        | update => exact absurd (helperMapUpdate_ok called).2 same
        | delete => exact absurd (helperMapDelete_ok called).2 same
        | lookup =>
          obtain ⟨store, key, value, data, found, read, hit, shown⟩ := helperMapLookup_hit called same
          refine ⟨framePtr, ?_, ?_, fun _ => .inl ⟨fetched, store, key, value, data, found, read, hit⟩,
            rfl⟩
          · exact shown ▸ ⟨rfl, rfl, rfl⟩
          · exact shown ▸ fun _ => id

theorem step_frame (builtIn : BuiltIn vm.helpers) : StepFrame vm vm.step.1 := by
  unfold Vm.step
  split
  · exact .refl vm
  · rename_i insn fetched
    cases insn with
    | aluReg width op dst src => exact assign_frame _ _ _
    | aluImm width op dst imm => exact assign_frame _ _ _
    | loadImm64 dst imm => exact assign_frame _ _ _
    | load size dst base offset =>
      simp only [Vm.execute]
      split
      · exact assign_frame _ _ _
      · exact .refl vm
    | storeReg size base offset src => exact storeTo_frame fetched rfl
    | storeImm size base offset imm => exact storeTo_frame fetched rfl
    | jumpReg width op dst src target => exact branch_frame _ _ _
    | jumpImm width op dst imm target => exact branch_frame _ _ _
    | jumpAlways target => exact branch_frame _ _ _
    | call func => exact dispatchHelper_frame builtIn fetched
    | exit => exact .refl vm
    | trap kind => exact .refl vm

/-! ### Runs -/

/-- A machine before its first step, however it was staged, with built-in helpers only. -/
inductive Initial : Vm → Prop where
  | new (insns : List Insn) : Initial (Vm.new insns)
  | newWithStores (insns : List Insn) (maps : Stores) : Initial (Vm.newWithStores insns maps)
  | withMapHelpers {vm : Vm} : Initial vm → Initial { vm with helpers := .withMapHelpers }
  | installXdpPacket {vm : Vm} (packet : Bytes) : Initial vm → Initial (vm.installXdpPacket packet)
  | installRodata {vm : Vm} (data : Bytes) : Initial vm → Initial (vm.installRodata data)

theorem Initial.builtIn (initial : Initial vm) : BuiltIn vm.helpers := by
  induction initial with
  | new insns => exact nofun
  | newWithStores insns maps => exact fun func helper => withMapHelpers_eq_some
  | withMapHelpers _ _ => exact fun func helper => withMapHelpers_eq_some
  | installXdpPacket packet _ ih => exact ih
  | installRodata data _ ih => exact ih

theorem Initial.framePtr (initial : Initial vm) : vm.regs Reg.framePtr = stackBase := by
  induction initial with
  | new insns => rfl
  | newWithStores insns maps => rfl
  | withMapHelpers _ ih => exact ih
  | installXdpPacket packet _ ih => exact (write_framePtr _ 1 xdpMdBase).trans ih
  | installRodata data _ ih => exact ih

/-- The machine after `n` steps, whatever they return. -/
def Vm.steps (vm : Vm) : Nat → Vm
  | 0 => vm
  | n + 1 => (vm.steps n).step.1

theorem steps_builtIn (builtIn : BuiltIn vm.helpers) (n : Nat) : BuiltIn (vm.steps n).helpers := by
  induction n with
  | zero => exact builtIn
  | succ n ih => exact (step_frame ih).helpers.symm ▸ ih

/-- After any number of steps the frame pointer and the read-only regions are those of the initial
machine, and the next step forgets no written stack byte and changes the scratch only by a lookup
hit or a store into it. -/
theorem vm_frame {vm : Vm} (initial : Initial vm) (n : Nat) :
    (vm.steps n).regs Reg.framePtr = stackBase ∧ ReadOnlyKept vm.memory (vm.steps n).memory ∧
      StepFrame (vm.steps n) (vm.steps (n + 1)) := by
  have next : ∀ n, StepFrame (vm.steps n) (vm.steps (n + 1)) :=
    fun n => step_frame (steps_builtIn initial.builtIn n)
  refine ⟨?_, ?_, next n⟩
  · induction n with
    | zero => exact initial.framePtr
    | succ n ih => exact (next n).framePtr.trans ih
  · induction n with
    | zero => exact .refl _
    | succ n ih => exact ih.trans (next n).readOnly

/-- `r10 = 0` leaves the frame pointer where it was. -/
theorem vm_frame_alu :
    ((Vm.new [.alu .b64 .mov 10 (.imm 0)]).steps 1).regs Reg.framePtr = stackBase :=
  (vm_frame (.new [.alu .b64 .mov 10 (.imm 0)]) 1).1

end EbpfLab.Interp
