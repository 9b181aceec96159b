import EbpfLab.Verifier.Annotation
import EbpfLab.Verifier.Contains
import EbpfLab.Verifier.Frame
import EbpfLab.Verifier.StackBytes
import EbpfLab.Vm.Access
import EbpfLab.Vm.Helpers

/-!
# What an abstract state says of a machine

A machine is modelled by a state when every register holds what its type promises and every stack
byte the state calls written was written. Larger states model more machines.
-/

namespace EbpfLab.Verifier
open Isa FlowGraph Interp Library

variable {config : VerifyConfig} {setup : Setup config} {s s' : VerifierState} {u u' : Vm} {r : Reg}
  {t t' : RegType} {v : Int64} {window window' : Int64 → Prop}

/-- A value of the type, in register `r`; `window fd` says the scratch window shows a value of the
map behind `fd`. Only `r0` ever points into that window. -/
def Holds (window : Int64 → Prop) (r : Reg) (v : Int64) : RegType → Prop
  | .notInit => True
  | .scalar range => range.contains v
  | .stackPtr o => v.toInt = 0x10000 + o.toInt
  | .mapPtr fd => r = 0 ∧ v = mapScratchBase ∧ window fd
  | .maybeMapPtr fd => r = 0 ∧ (v = 0 ∨ v = mapScratchBase ∧ window fd)
  | .xdpMdPtr => v = xdpMdBase
  | .packetPtr range => range.contains (v - packetBase)
  | .dataPtr range => range.contains (v - rodataBase)

/-- The scratch window shows a value of the map behind `fd`. -/
def Window (config : VerifyConfig) (scratch : Bytes) (fd : Int64) : Prop :=
  ∃ desc, mapDesc (entryState config) fd = some desc ∧ scratch.length = desc.valueSize

/-- The state describes the machine. -/
structure Models (config : VerifyConfig) (s : VerifierState) (u : Vm) : Prop where
  regs : ∀ r, Holds (Window config u.memory.mapScratch) r (u.regs r) (s.reg r)
  stack : ∀ k, s.stackInit.test k = true → u.memory.stack.initialized.test k = true
  maps : MapsLe (entryState config).maps s.maps
  packetLen : LenLe config.packetLen s.packetLen
  dataLen : LenLe config.dataLen s.dataLen

/-- The regions and maps of the machine are those it was set up with. -/
structure Staged (setup : Setup config) (u : Vm) : Prop where
  packet : u.memory.packet = setup.packet
  context : ∀ packet, setup.packet = some packet →
    u.memory.xdpMd = (MemoryView.default.setPacket packet).xdpMd
  data : u.memory.rodata = setup.data
  maps : ∀ fd desc, mapDesc (entryState config) fd = some desc →
    ∃ store, u.mapStore fd = some store ∧ store.desc = desc

/-! ### Order -/

theorem Holds.mono (below : t ≤ t') (held : Holds window r v t) : Holds window r v t' := by
  cases below with
  | notInit _ => trivial
  | scalarTop _ => trivial
  | scalar below => exact Range.contains_mono below held
  | stackPtr _ | mapPtr _ | maybeMapPtr _ | xdpMdPtr => exact held
  | mapPtrMaybe fd => exact ⟨held.1, Or.inr held.2⟩
  | packetPtr below => exact Range.contains_mono below held
  | dataPtr below => exact Range.contains_mono below held

/-- A value keeps its type while the scratch window shows what it showed. -/
theorem Holds.of_window (held : Holds window r v t) (shows : ∀ fd, window fd → window' fd) :
    Holds window' r v t := by
  cases t with
  | mapPtr fd => exact ⟨held.1, held.2.1, shows fd held.2.2⟩
  | maybeMapPtr fd => exact ⟨held.1, held.2.imp_right fun shown => ⟨shown.1, shows fd shown.2⟩⟩
  | _ => exact held

theorem Models.mono (below : s ≤ s') (models : Models config s u) : Models config s' u := by
  obtain ⟨regs, stack, maps, packetLen, dataLen⟩ := below
  refine ⟨fun r => (models.regs r).mono (regs r), ?_, ?_, models.packetLen.trans packetLen,
    models.dataLen.trans dataLen⟩
  · intro k written
    rw [← stack, Bitset.test_inter, Bool.and_eq_true] at written
    exact models.stack k written.2
  · exact ⟨Nat.le_trans models.maps.1 maps.1, fun i x held => models.maps.2 i x (maps.2 i x held)⟩

/-! ### Reading types -/

theorem Holds.scalarRange (held : Holds window r v t) (written : t ≠ .notInit) :
    t.scalarRange.contains v := by
  cases t with
  | notInit => exact absurd rfl written
  | scalar range => exact held
  | _ => trivial

/-- A descriptor the state knows is one of the configuration. -/
theorem Models.mapDesc (models : Models config s u) {fd : Int64} {desc : MapDesc}
    (known : Verifier.mapDesc s fd = some desc) :
    Verifier.mapDesc (entryState config) fd = some desc := by
  unfold Verifier.mapDesc at known ⊢
  cases index : usizeOf fd with
  | none => simp [index] at known
  | some i =>
    simp only [index, Option.bind_some] at known ⊢
    exact models.maps.2 i desc known

theorem Models.packet (models : Models config s u) {len : Nat} (known : s.packetLen = some len) :
    config.packetLen = some len := by
  rcases models.packetLen with unknown | same
  · rw [unknown] at known
    cases known
  · exact same.trans known

theorem Models.data (models : Models config s u) {len : Nat} (known : s.dataLen = some len) :
    config.dataLen = some len := by
  rcases models.dataLen with unknown | same
  · rw [unknown] at known
    cases known
  · exact same.trans known

/-! ### Writing registers -/

/-- A type for the assigned register, wherever it lands. -/
theorem Models.assign {dst : Reg} {pc : Nat} (models : Models config s u)
    (held : Holds (Window config u.memory.mapScratch) dst v t) :
    Models config (s.assign dst t) { u with regs := u.regs.write dst v, pc } := by
  obtain ⟨maps, packetLen, dataLen⟩ : (s.assign dst t).maps = s.maps ∧
      (s.assign dst t).packetLen = s.packetLen ∧ (s.assign dst t).dataLen = s.dataLen := by
    simpa [VerifierState.config] using VerifierState.config_assign s dst t
  have stackInit : (s.assign dst t).stackInit = s.stackInit := by
    unfold VerifierState.assign
    split <;> rfl
  refine ⟨?_, ?_, maps ▸ models.maps, packetLen ▸ models.packetLen, dataLen ▸ models.dataLen⟩
  · intro r
    rw [VerifierState.reg_assign]
    simp only [Regs.write]
    split
    · rename_i here
      rw [here.1]
      exact held
    · exact models.regs r
  · intro k written
    exact models.stack k (stackInit ▸ written)

end EbpfLab.Verifier
