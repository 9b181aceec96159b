import EbpfLab.Verifier.CallSound
import EbpfLab.Verifier.Control
import EbpfLab.Verifier.RangeSound
import EbpfLab.Vm.MapNew

/-!
# Memory faults of accepted programs

The machine a configuration stages is modelled by the entry state, a step that agrees with its
transfer stays modelled, and a modelled machine passes every access its transfer checked.
-/

namespace EbpfLab.Verifier
open Isa FlowGraph Interp Library

variable {petgraph : Petgraph} {insns : List Insn} {cfg : Cfg} {config : VerifyConfig} {setup : Setup config}
  {s s' : VerifierState} {u u' : Vm} {insn : Insn} {pc : Nat}

/-! ### The descriptor tables -/

theorem new_desc {desc : MapDesc} {store : MapStore} (made : MapStore.new desc = .ok store) :
    store.desc = desc := by
  obtain ⟨_, _, rfl, _⟩ := new_ok made
  rfl

/-- The descriptors of a table of stores. -/
def descriptors (stores : Stores) : MapTable := stores.map (Option.map MapStore.desc)

/-- The verifier's table follows the interpreter's, descriptor by descriptor. -/
theorem installStores_descriptors {descs : List MapDesc} {table stores : Stores}
    (installed : installStores descs table = .ok stores) :
    descs.foldl installDesc (descriptors table) = descriptors stores := by
  induction descs generalizing table with
  | nil =>
    cases installed
    rfl
  | cons desc rest ih =>
    simp only [installStores] at installed
    split at installed
    · cases installed
    · rename_i i index
      split at installed
      · cases installed
      · rename_i free
        obtain ⟨store, made, installed⟩ := bind_eq_ok.mp installed
        rw [List.foldl_cons, ← ih installed]
        congr 1
        have placed : descriptors (table.set i (some store)) = (descriptors table).set i (some desc) := by
          simp [descriptors, List.map_set, new_desc made]
        rw [placed]
        simp only [installDesc, index]
        split
        · rfl
        · rename_i taken
          refine (List.set_eq_of_length_le ?_).symm
          by_contra inside
          rw [Nat.not_le] at inside
          apply taken
          rw [descriptors, List.length_map] at inside
          rw [descriptors, List.getElem?_map, List.getElem?_eq_getElem inside]
          rw [List.getElem?_eq_getElem inside] at free
          cases held : table[i] with
          | none => rfl
          | some other => simp [held] at free

theorem buildMapTable_eq {stores : Stores} (built : buildStores config.maps = .ok stores)
    (mapped : config.maps ≠ []) : buildMapTable config = descriptors stores := by
  unfold buildMapTable
  cases maps : config.maps with
  | nil => exact absurd maps mapped
  | cons first rest =>
    rw [maps] at built
    simp only [buildStores] at built
    split at built
    · cases built
    · rename_i positive
      split at built
      · cases built
      · rename_i small
        rw [← installStores_descriptors built]
        have nonneg : ¬ rest.foldl (fun m d => if m < d.fd then d.fd else m) first.fd < 0 := by
          intro negative
          exact positive (Int64.le_of_lt negative)
        simp only [nonneg, small, if_false, descriptors, List.map_replicate, Option.map_none]

/-- Every configured descriptor has a live store. -/
theorem stores_described (setup : Setup config) {fd : Int64} {desc : MapDesc}
    (described : mapDesc (entryState config) fd = some desc) (w : World) (live : w.maps = setup.stores) :
    ∃ store, w.mapStore fd = some store ∧ store.desc = desc := by
  have table : (entryState config).maps = buildMapTable config := by
    unfold entryState
    split <;> rfl
  unfold mapDesc at described
  rw [table] at described
  obtain ⟨i, index, held⟩ := Option.bind_eq_some_iff.mp described
  unfold World.mapStore
  rw [index, Option.bind_some, live]
  by_cases mapped : config.maps = []
  · have empty : buildMapTable config = [none] := by
      unfold buildMapTable
      rw [mapped]
      rfl
    rw [empty] at held
    cases i <;> cases held
  · rw [buildMapTable_eq setup.built mapped, descriptors, List.getElem?_map] at held
    cases entry : setup.stores[i]? with
    | none => simp [entry] at held
    | some slot =>
      cases slot with
      | none => simp [entry] at held
      | some store => exact ⟨store, rfl, by simpa [entry] using held⟩

/-! ### The machine at the start -/

theorem setup_staged (setup : Setup config) (insns : List Insn) :
    Staged setup (setup.vm insns) := by
  have maps : (setup.vm insns).maps = setup.stores := by
    unfold Setup.vm
    cases setup.packet <;> cases setup.data <;> rfl
  refine ⟨?_, ?_, ?_, fun fd desc described => stores_described setup described _ maps⟩
  · unfold Setup.vm
    cases setup.packet <;> cases setup.data <;> rfl
  · intro packet installed
    unfold Setup.vm
    rw [installed]
    cases setup.data <;> rfl
  · unfold Setup.vm
    cases setup.packet <;> cases setup.data <;> rfl

theorem setup_models (setup : Setup config) (insns : List Insn) :
    Models config (entryState config) (setup.vm insns) := by
  have frame : (setup.vm insns).regs 10 = stackBase := by
    unfold Setup.vm
    cases setup.packet <;> cases setup.data <;> rfl
  have context : config.packetLen.isSome = true → (setup.vm insns).regs 1 = xdpMdBase := by
    intro packet
    rw [← setup.packetLen, Option.isSome_map] at packet
    obtain ⟨packet, installed⟩ := Option.isSome_iff_exists.mp packet
    unfold Setup.vm
    rw [installed]
    cases setup.data <;> rfl
  have table : (entryState config).stackInit = .empty ∧
      (entryState config).packetLen = config.packetLen ∧
      (entryState config).dataLen = config.dataLen := by
    cases packet : config.packetLen <;> simp [entryState, packet] <;> exact ⟨rfl, rfl⟩
  refine ⟨?_, ?_, ⟨Nat.le_refl _, fun _ _ => id⟩, Or.inr table.2.1.symm, Or.inr table.2.2.symm⟩
  · intro r
    rw [reg_entryState]
    split
    · rename_i here
      subst here
      rw [frame]
      exact show stackBase.toInt = 0x10000 + (0 : Int32).toInt by decide
    · split
      · rename_i here
        rw [here.1]
        exact context here.2
      · trivial
  · intro k init
    rw [table.1] at init
    simp at init

/-! ### Steps -/

/-- The step avoids the corners of its transfer: ranges that lose a result, a load beyond the window of
its region, a comparison read as a signed 64-bit one, a descriptor that is not exact, a request the store
refuses. -/
def StepAgrees (config : VerifyConfig) (s : VerifierState) (u : Vm) : Insn → Prop
  | .alu width op dst src => AluAgrees s width op dst src
  | .load size _ base offset => LoadAgrees config s u size base offset
  | .jump width op dst src _ => JumpAgrees s u width op dst src
  | .call func => CallAgrees s u u.pc func
  | _ => True

theorem loadImm_holds (s : VerifierState) (window : Int64 → Prop) (r : Reg) (imm : Int64) :
    Holds window r imm (loadImmType s imm) := by
  simp only [loadImmType]
  split
  · rename_i off inside
    obtain ⟨len, _, inside⟩ := Option.bind_eq_some_iff.mp inside
    obtain ⟨off', difference, inside⟩ := Option.bind_eq_some_iff.mp inside
    obtain ⟨len', _, inside⟩ := Option.bind_eq_some_iff.mp inside
    split at inside
    · cases inside
      have difference := checkedI64_eq_some.mp difference
      have low := toInt_lower off
      have high := toInt_upper off
      refine Range.contains_exact.mpr ?_
      rw [← Int64.toInt_inj, toInt_sub (by omega) (by omega)]
      exact difference.symm
    · cases inside
  · exact Range.contains_exact.mpr rfl

/-- A step that agrees with its transfer keeps the machine modelled. -/
theorem step_models (models : Models config s u) (staged : Staged setup u)
    (agrees : StepAgrees config s u insn) (checked : checkAndTransfer u.pc insn s = .ok s')
    (helpers : u.helpers = setup.helpers) (step : Advance insns u insn u') :
    Models config (refineEdge s' (flowKind u.regs insn) (some insn)) u' ∧ Staged setup u' := by
  have kept : ∀ {dst v}, Staged setup (u.assign dst v) := fun {dst v} =>
    ⟨staged.packet, staged.context, staged.data, staged.maps⟩
  cases step with
  | alu admitted =>
    cases checkAndTransfer_ok checked with
    | alu _ operand => exact ⟨models.assign (alu_holds models operand agrees), kept⟩
  | load read =>
    cases checkAndTransfer_ok checked with
    | load allowed =>
      obtain ⟨v, read', held⟩ := load_succeeds agrees models staged allowed
      rw [read, Except.ok.injEq] at read'
      subst read'
      exact ⟨models.assign (held _ _), kept⟩
  | store stored =>
    cases checkAndTransfer_ok checked with
    | store operand allowed =>
      obtain ⟨memory, stored', after⟩ := store_succeeds models staged allowed _ (u.pc + 1)
      rw [stored, Except.ok.injEq] at stored'
      subst stored'
      exact after
  | loadImm64 =>
    cases checkAndTransfer_ok checked with
    | loadImm64 => exact ⟨models.assign (loadImm_holds s _ _ _), kept⟩
  | @jump width op dst src offset target lands =>
    have moved : ∀ {s pc}, Models config s u → Models config s { u with pc } ∧
        Staged setup { u with pc } := fun models =>
      ⟨⟨models.regs, models.stack, models.maps, models.packetLen, models.dataLen⟩,
        ⟨staged.packet, staged.context, staged.data, staged.maps⟩⟩
    cases checkAndTransfer_ok checked with
    | always => exact moved models
    | jump _ left _ => exact moved (refineEdge_models models (ensureInit_ok left) agrees)
  | call installed called =>
    cases checkAndTransfer_ok checked with
    | call known result =>
      exact call_models models staged agrees known result
        (setup.helpers_eq (helpers ▸ installed)) called _

/-- A modelled machine passes the accesses its transfer checked. -/
theorem step_no_memory_fault {e : VmError} (models : Models config s u)
    (staged : Staged setup u) (agrees : StepAgrees config s u insn)
    (checked : checkAndTransfer u.pc insn s = .ok s') (helpers : u.helpers = setup.helpers)
    (fault : Fault insns u insn e) (m : MemError) : e ≠ .memory m := by
  intro same
  cases fault with
  | @trap _ kind _ => cases kind <;> cases same
  | load read =>
    cases checkAndTransfer_ok checked with
    | load allowed =>
      obtain ⟨v, read', _⟩ := load_succeeds agrees models staged allowed
      rw [read] at read'
      cases read'
  | store stored =>
    cases checkAndTransfer_ok checked with
    | store operand allowed =>
      obtain ⟨memory, stored', _⟩ := store_succeeds models staged allowed _ 0
      rw [stored] at stored'
      cases stored'
  | unknownHelper _ => cases same
  | helper installed failed =>
    cases checkAndTransfer_ok checked with
    | call known result =>
      exact call_succeeds models staged agrees known result
        (setup.helpers_eq (helpers ▸ installed)) failed

/-! ### Runs -/

/-- The state the worklist recorded for the instruction at `pc`. -/
def Recorded (petgraph : Petgraph) (insns : List Insn) (cfg : Cfg) (config : VerifyConfig) (pc : Nat)
    (s : VerifierState) : Prop :=
  ∃ fuel w, drain insns cfg config.wideningThreshold fuel (seed petgraph insns cfg config) = some (.ok w) ∧
    At insns cfg w.stateAt pc s

/-- No run of an accepted program whose steps agree with their transfers ends in a memory fault. -/
theorem memory_safe (documented : petgraph.Documented) (accepted : buildCfg petgraph insns = .ok cfg)
    (accepts : Accepts petgraph insns cfg config) (setup : Setup config)
    (agrees : ∀ k u insn s, (setup.vm insns).after k = some u → insns[u.pc]? = some insn →
      Recorded petgraph insns cfg config u.pc s → StepAgrees config s u insn) (budget : Nat) (m : MemError) :
    ((setup.vm insns).run budget).2 ≠ .error (.memory m) := by
  intro failed
  obtain ⟨targets, ordered⟩ := buildCfg_ordered documented accepted
  have built := ordered.toBuilt
  obtain ⟨fuel, report, verified⟩ := accepts
  obtain ⟨outcome, drained, verified⟩ := Option.map_eq_some_iff.mp verified
  obtain ⟨w, rfl, _⟩ := bind_eq_ok.mp verified
  obtain ⟨sound, empty⟩ := (sound_seed ordered config).drained built fuel drained
  have fixed := sound.postFixpoint built empty
  have loaded := setup.loaded insns
  have ended : (setup.vm insns).runFrom budget budget =
      (((setup.vm insns).run budget).1, .error (.memory m)) := Prod.ext rfl failed
  rcases Vm.runFrom_error ended with exhausted | ⟨k, u, reached, stepped⟩
  · cases exhausted
  have frame : ∀ {k u}, (setup.vm insns).after k = some u → u.helpers = setup.helpers :=
    fun reached => (Vm.after_frame loaded built.small reached).2.trans (setup.helpers_vm insns)
  have current := (Vm.after_frame loaded built.small reached).1
  cases fetched : insns[u.pc]? with
  | none =>
    rw [step_past_end current fetched] at stepped
    cases stepped
  | some insn =>
    obtain ⟨s, annotated, models, staged⟩ := annotated_run fixed built loaded (setup.pc_vm insns)
      (fun _ s u => Models config s u ∧ Staged setup u)
      ⟨setup_models setup insns, setup_staged setup insns⟩
      (fun _ _ _ _ below held => ⟨held.1.mono below, held.2⟩)
      (fun k s s' u u' insn reached annotated held fetched checked step =>
        step_models held.1 held.2
          (agrees k u insn s reached fetched ⟨fuel, w, drained, annotated⟩) checked (frame reached) step)
      reached (List.getElem?_eq_some_iff.mp fetched).1
    obtain ⟨s', checked⟩ := annotated.checked fixed fetched
    exact step_no_memory_fault models staged
      (agrees k u insn s reached fetched ⟨fuel, w, drained, annotated⟩) checked (frame reached)
      (step_error current built.small fetched stepped) m rfl

/-- Copies the first packet byte to the stack and returns it. -/
def firstByte : List Insn :=
  [.load .w 2 1 0, .load .b 3 2 0, .store .b 10 (-1) (.reg 3), .alu .b64 .mov 0 (.reg 3), .exit]

def firstByteCfg : Cfg :=
  { blocks := [⟨0, 5⟩], edges := [], entry := 0, blockOfPc := [0, 0, 0, 0, 0]
    slotOf := [0, 1, 2, 3, 4], rpo := [0] }

/-- A packet of four bytes. -/
def onePacket : VerifyConfig := { VerifyConfig.default with packetLen := some 4 }

def Setup.onePacket : Setup onePacket where
  stores := []
  built := rfl
  helpers := .withMapHelpers
  registered := Or.inl rfl
  packet := some [7, 8, 9, 10]
  packetLen := rfl
  data := none
  dataLen := Setup.absent

theorem memory_safe_firstByte :
    ((Setup.onePacket.vm firstByte).run 10).2 ≠ .error (.memory .noPacket) := by
  have accepted : buildCfg searching firstByte = .ok firstByteCfg := by decide +kernel
  have accepts : Accepts searching firstByte firstByteCfg onePacket := ⟨20, ⟨5⟩, by decide +kernel⟩
  have small : ∀ s u size base offset, LoadAgrees onePacket s u size base offset := by
    intro s u size base offset
    refine ⟨fun _ _ len known long => ?_, fun _ _ len known => ?_, fun _ _ len known => ?_⟩ <;> cases known
    · exact absurd long (by decide)
    · decide
  refine memory_safe searching_documented accepted accepts Setup.onePacket ?_ 10 .noPacket
  intro k u insn s _ fetched _
  have present : insn ∈ firstByte := List.mem_of_getElem? fetched
  simp only [firstByte, List.mem_cons, List.not_mem_nil, or_false] at present
  rcases present with rfl | rfl | rfl | rfl | rfl
  · exact small _ _ _ _ _
  · exact small _ _ _ _ _
  · trivial
  · exact ⟨nofun, keeps_lossless rfl _ _⟩
  · trivial

/-- Calls the lookup with a descriptor the verifier does not know: `[r10-8] = 1; r1 = [r10-8];
call 1; exit`. -/
def blindLookup : List Insn := [.store .dw 10 (-8) (.imm 1), .load .dw 1 10 (-8), .call 1, .exit]

def blindLookupCfg : Cfg :=
  { blocks := [⟨0, 4⟩], edges := [], entry := 0, blockOfPc := [0, 0, 0, 0], slotOf := [0, 1, 2, 3]
    rpo := [0] }

/-- The verifier accepts it without a look at `r2`, through which the helper reads its key. -/
theorem blindLookup_faults :
    buildCfg searching blindLookup = .ok blindLookupCfg ∧ Accepts searching blindLookup blindLookupCfg oneMap ∧
      ∃ budget m, ((Setup.oneMap.vm blindLookup).run budget).2 = .error (.memory m) := by
  refine ⟨by decide +kernel, ⟨20, ⟨4⟩, by decide +kernel⟩, 4, .outOfBounds 0 1, ?_⟩
  decide +kernel

end EbpfLab.Verifier
