import EbpfLab.Verifier.StepSound
import EbpfLab.Vm.Serves

/-!
# Helper calls keep the model

With an exact descriptor in `r1` the verifier checks the stack bytes behind the very pointers the
interpreter's map helper reads.
-/

namespace EbpfLab.Verifier
open Isa FlowGraph Interp Library

variable {config : VerifyConfig} {setup : Setup config} {s : VerifierState} {u : Vm} {t : RegType}
  {pc : Nat} {func : UInt32} {w : World} {r0 fd : Int64}

/-- A map helper is called with an exact descriptor, and the store takes the update or the deletion. -/
structure CallAgrees (s : VerifierState) (u : Vm) (pc : Nat) (func : UInt32) : Prop where
  exact : func = 1 ∨ func = 2 ∨ func = 3 → mapFd s pc ≠ .ok none
  serves : ∀ store key, u.mapStore (u.regs 1) = some store →
    u.memory.loadBytes (u.regs 2) store.desc.keySize = .ok key →
      (func = 2 → store.TakesUpdate key (flagsOf (u.regs 4))) ∧ (func = 3 → store.hasKey key = true)

/-- The descriptor the signatures know is the exact scalar in `r1`. -/
theorem mapFd_eq_some : mapFd s pc = .ok (some fd) ↔ s.reg 1 = .scalar (.exact fd) := by
  unfold mapFd
  cases s.reg 1 with
  | scalar range =>
    cases range with
    | interval lo hi =>
      simp only [Except.ok.injEq, RegType.scalar.injEq, Range.exact, Range.interval.injEq]
      by_cases same : lo = hi
      · subst same
        simp
      · rw [if_neg same]
        refine iff_of_false (fun known => ?_) fun both => same (both.1.trans both.2.symm)
        cases known
    | _ =>
      constructor
      all_goals intro known; cases known
  | _ =>
    constructor
    all_goals intro known; cases known

/-- A checked guest pointer can be read. -/
theorem checkMapPtr_reads {window : Int64 → Prop} {r : Reg} {size : Nat}
    (value : Holds window r (u.regs r) (s.reg r))
    (stack : ∀ k, s.stackInit.test k = true → u.memory.stack.initialized.test k = true)
    (checked : checkMapPtr s r size pc = .ok ()) :
    ∃ bytes, u.memory.loadBytes (u.regs r) size = .ok bytes := by
  obtain ⟨_, pointer, checked⟩ := bind_eq_ok.mp checked
  obtain ⟨o, held⟩ := ensureStackPtr_ok pointer
  simp only [held, RegType.stackOffset, Option.getD_some] at checked
  split at checked
  · cases checked
  · obtain ⟨⟨start, lo, hi⟩, ranged, checked⟩ := bind_eq_ok.mp checked
    simp only at checked
    split at checked
    · rename_i init
      obtain ⟨low, high, first, last⟩ := byteRange_ok ranged
      rw [held] at value
      have value : (u.regs r).toInt = 0x10000 + o.toInt := value
      have zero : (0 : Int16).toInt = 0 := rfl
      exact loadBytes_stack (i := lo) (by omega) (by omega) fun k lower upper =>
        stack k (stackRangeInit_iff.mp init k lower (by omega))
    · cases checked

theorem forM_eq_ok {α ε : Type} {f : α → Except ε Unit} {l : List α} (passed : l.forM f = .ok ()) :
    ∀ x ∈ l, f x = .ok () := by
  induction l with
  | nil => simp
  | cons x l ih =>
    obtain ⟨⟨⟩, first, rest⟩ := bind_eq_ok.mp passed
    intro y present
    rcases List.mem_cons.mp present with rfl | later
    · exact first
    · exact ih rest y later

/-- What the signature of a map helper checked when its descriptor is exact. -/
theorem mapHelperEffect_ok {pointers : MapDesc → List (Reg × Nat)} {result : Int64 → RegType}
    (models : Models config s u) (staged : Staged setup u) (known : mapFd s pc ≠ .ok none)
    (passed : mapHelperEffect pointers result s pc = .ok t) :
    ∃ store, u.mapStore (u.regs 1) = some store ∧
      mapDesc (entryState config) (u.regs 1) = some store.desc ∧ t = result (u.regs 1) ∧
      ∀ r size, (r, size) ∈ pointers store.desc →
        ∃ bytes, u.memory.loadBytes (u.regs r) size = .ok bytes := by
  obtain ⟨fd, exact_fd, passed⟩ := bind_eq_ok.mp passed
  cases fd with
  | none => exact absurd exact_fd known
  | some fd =>
    simp only at passed
    split at passed
    · cases passed
    · rename_i desc described
      obtain ⟨_, checked, passed⟩ := bind_eq_ok.mp passed
      cases passed
      obtain ⟨store, live, rfl⟩ := staged.maps fd desc (models.mapDesc described)
      have value := models.regs 1
      rw [mapFd_eq_some.mp exact_fd] at value
      rw [show u.regs 1 = fd from Range.contains_exact.mp value]
      refine ⟨store, live, models.mapDesc described, rfl, ?_⟩
      intro r size present
      exact checkMapPtr_reads (models.regs r) models.stack (forM_eq_ok checked (r, size) present)

/-- The signature that goes with a registered map helper. -/
theorem IsMapHelper.signature {helper : HelperFn} {pointers : MapDesc → List (Reg × Nat)}
    {effect : HelperSignature} (mapHelper : IsMapHelper func helper pointers)
    (known : builtInHelper func = some effect) :
    (func = 1 ∨ func = 2 ∨ func = 3) ∧ ∃ result, effect = mapHelperEffect pointers result ∧
      (func = 1 ∧ result = .maybeMapPtr ∨
        (func = 2 ∨ func = 3) ∧ result = fun _ => .scalar (.exact 0)) := by
  cases mapHelper <;> cases known
  · exact ⟨by decide, _, rfl, Or.inl ⟨rfl, rfl⟩⟩
  · exact ⟨by decide, _, rfl, Or.inr ⟨by decide, rfl⟩⟩
  · exact ⟨by decide, _, rfl, Or.inr ⟨by decide, rfl⟩⟩

theorem Setup.helpers_eq (setup : Setup config) {helper : HelperFn}
    (registered : setup.helpers func = some helper) :
    HelperRegistry.withMapHelpers func = some helper := by
  rcases setup.registered with same | ⟨_, same⟩
  · rw [← same]
    exact registered
  · rw [same] at registered
    cases registered

/-- A call the verifier passed does not fault on a guest pointer. -/
theorem call_succeeds {effect : HelperSignature} {helper : HelperFn} {e : VmError}
    (models : Models config s u) (staged : Staged setup u) (agrees : CallAgrees s u pc func)
    (known : builtInHelper func = some effect) (result : effect s pc = .ok t)
    (registered : HelperRegistry.withMapHelpers func = some helper)
    (failed : helper u.regs u.toWorld = .error e) : False := by
  obtain ⟨pointers, mapHelper⟩ := withMapHelpers_eq_some registered
  obtain ⟨which, r, rfl, _⟩ := IsMapHelper.signature mapHelper known
  obtain ⟨store, live, _, _, reads⟩ := mapHelperEffect_ok models staged (agrees.exact which) result
  obtain ⟨store', live', r, size, present, m, unread, _⟩ := mapHelper.error failed
  rw [live, Option.some.injEq] at live'
  subst live'
  obtain ⟨bytes, read⟩ := reads r size present
  rw [read] at unread
  cases unread

/-- Registers other than the assigned `r0` keep their types under any scratch window. -/
theorem Models.call {w' : World} (models : Models config s u) (stack : w'.memory.stack = u.memory.stack)
    (held : Holds (Window config w'.memory.mapScratch) 0 r0 t) (next : Nat) :
    Models config (s.setReg 0 t)
      { u with toWorld := w', regs := u.regs.write 0 r0, pc := next } := by
  refine ⟨?_, ?_, models.maps, models.packetLen, models.dataLen⟩
  · intro r
    rw [VerifierState.reg_setReg]
    by_cases result : r = 0
    · subst result
      exact held
    · have other : u.regs.write 0 r0 r = u.regs r := by simp [Regs.write, result]
      simp only [result, if_false, other]
      have before := models.regs r
      generalize s.reg r = type at before
      cases type with
      | mapPtr fd | maybeMapPtr fd => exact absurd before.1 result
      | _ => exact before
  · intro k init
    rw [stack]
    exact models.stack k init

theorem Staged.call {w' : World} (staged : Staged setup u) (maps : SameMaps u.toWorld w')
    (packet : w'.memory.packet = u.memory.packet) (xdpMd : w'.memory.xdpMd = u.memory.xdpMd)
    (rodata : w'.memory.rodata = u.memory.rodata) (regs : Regs) (next : Nat) :
    Staged setup { u with toWorld := w', regs, pc := next } := by
  refine ⟨packet.trans staged.packet, fun p installed => xdpMd.trans (staged.context p installed),
    rodata.trans staged.data, ?_⟩
  intro fd desc described
  obtain ⟨store, live, rfl⟩ := staged.maps fd desc described
  have kept := maps fd
  rw [live, Option.map_some] at kept
  exact Option.map_eq_some_iff.mp kept

/-- A successful call keeps the model. -/
theorem call_models {effect : HelperSignature} {helper : HelperFn} (models : Models config s u)
    (staged : Staged setup u) (agrees : CallAgrees s u pc func)
    (known : builtInHelper func = some effect) (result : effect s pc = .ok t)
    (registered : HelperRegistry.withMapHelpers func = some helper)
    (called : helper u.regs u.toWorld = .ok (r0, w)) (next : Nat) :
    Models config (s.setReg 0 t) { u with toWorld := w, regs := u.regs.write 0 r0, pc := next } ∧
      Staged setup { u with toWorld := w, regs := u.regs.write 0 r0, pc := next } := by
  obtain ⟨pointers, mapHelper⟩ := withMapHelpers_eq_some registered
  obtain ⟨which, r, rfl, kind⟩ := IsMapHelper.signature mapHelper known
  obtain ⟨store, live, described, rfl, reads⟩ :=
    mapHelperEffect_ok models staged (agrees.exact which) result
  have quiet : SameMaps u.toWorld w → w.memory = u.memory → Holds (Window config w.memory.mapScratch)
      0 r0 (r (u.regs 1)) →
      Models config (s.setReg 0 (r (u.regs 1)))
          { u with toWorld := w, regs := u.regs.write 0 r0, pc := next } ∧
        Staged setup { u with toWorld := w, regs := u.regs.write 0 r0, pc := next } := by
    intro maps memory held
    exact ⟨models.call (by rw [memory]) held next,
      staged.call maps (by rw [memory]) (by rw [memory]) (by rw [memory]) _ next⟩
  cases mapHelper with
  | lookup =>
    obtain ⟨_, rfl⟩ := kind.resolve_right fun other => absurd other.1 (by decide)
    obtain ⟨maps, missed | ⟨store', value, live', length, shown, memory⟩⟩ := helperMapLookup_ok called
    · exact quiet maps missed.2 ⟨rfl, Or.inl missed.1⟩
    · have live' : u.mapStore (u.regs 1) = some store' := live'
      rw [live, Option.some.injEq] at live'
      subst live'
      have window : Window config w.memory.mapScratch (u.regs 1) :=
        ⟨store.desc, described, by rw [memory]; exact length⟩
      have held : Holds (Window config w.memory.mapScratch) 0 r0 (.maybeMapPtr (u.regs 1)) :=
        ⟨rfl, Or.inr ⟨shown, window⟩⟩
      exact ⟨models.call (by rw [memory]; rfl) held next,
        staged.call maps (by rw [memory]; rfl) (by rw [memory]; rfl) (by rw [memory]; rfl) _ next⟩
  | update =>
    obtain ⟨_, rfl⟩ := kind.resolve_left fun other => absurd other.1 (by decide)
    obtain ⟨maps, memory⟩ := helperMapUpdate_ok called
    obtain ⟨key, read⟩ := reads 2 store.desc.keySize (by simp [keyValuePointers])
    have takes := (agrees.serves store key live read).1 rfl
    exact quiet maps memory (Range.contains_exact.mpr ((helperMapUpdate_answer live read called).mpr takes))
  | delete =>
    obtain ⟨_, rfl⟩ := kind.resolve_left fun other => absurd other.1 (by decide)
    obtain ⟨maps, memory⟩ := helperMapDelete_ok called
    obtain ⟨key, read⟩ := reads 2 store.desc.keySize (by simp [keyPointer])
    have bound := (agrees.serves store key live read).2 rfl
    exact quiet maps memory (Range.contains_exact.mpr ((helperMapDelete_answer live read called).mpr bound))

end EbpfLab.Verifier
