import EbpfLab.Elf.Link

/-!
# Relocation offsets

Which offsets the resolvers report as out of bounds, and the one they overflow at.
-/

namespace EbpfLab.Elf
open Isa Library Interp

variable {prog : ElfProgram} {reloc : Relocation} {shapes : List (Option UInt32)} {bytes : Bytes}
  {step : Bytes → Relocation → Except Stop Bytes}

/-- The resolver comes to a relocation: it accepts all before it. -/
def Reached (resolver : ElfProgram → ElfProgram × Except Stop Unit) (prog : ElfProgram) (reloc : Relocation) : Prop :=
  ∃ before after, prog.relocations = before ++ reloc :: after ∧
    (resolver { prog with relocations := before }).2 = .ok ()

/-- No index overflows, and a relocation whose two slots are not inside is reported when the resolver
comes to it. -/
structure Guarded (resolver : ElfProgram → ElfProgram × Except Stop Unit) (shapes : List (Option UInt32))
    (prog : ElfProgram) : Prop where
  total : (resolver prog).2 ≠ .error .panicked
  reports : ∀ reloc, Reached resolver prog reloc → WellShaped shapes prog.bytes reloc →
    prog.bytes.length < reloc.offset.toNat + 16 →
    (resolver prog).2 = .error (.refused (.relocOutOfBounds reloc.offset prog.bytes.length))

/-- A step that locates the relocation first. -/
def Locates (shapes : List (Option UInt32)) (step : Bytes → Relocation → Except Stop Bytes) : Prop :=
  ∀ bytes reloc, (∀ stop, locate true shapes bytes reloc = .error stop → step bytes reloc = .error stop) ∧
    ∀ place, locate true shapes bytes reloc = .ok place → step bytes reloc ≠ .error .panicked

theorem mapStep_locates (mapFds : Table Int32) : Locates [none, some rBpf6464] (mapStep true mapFds) := by
  intro bytes reloc
  refine ⟨fun stop stopped => ?_, fun place located panicked => ?_⟩
  · rw [mapStep, stopped]
    rfl
  · rw [mapStep, located, ok_bind] at panicked
    split at panicked <;> cases panicked

theorem dataStep_locates (data : Table (Int64 × Nat)) :
    Locates [none, some rBpf6464, some rBpf6432] (dataStep true data) := by
  intro bytes reloc
  refine ⟨fun stop stopped => ?_, fun place located panicked => ?_⟩
  · rw [dataStep, stopped]
    rfl
  · rw [dataStep, located, ok_bind] at panicked
    split at panicked
    · cases panicked
    · dsimp only at panicked
      split at panicked <;> cases panicked

theorem locateInside_total : locateInside shapes bytes reloc ≠ .error .panicked := by
  intro panicked
  unfold locateInside at panicked
  dsimp only at panicked
  split at panicked
  · cases panicked
  split at panicked
  · cases panicked
  split at panicked
  · cases panicked
  split at panicked <;> cases panicked

/-- A step panics at the last slot of the address space only. -/
theorem step_panics_iff (locates : Locates shapes step) (bounded : bytes.length < 2 ^ 63) :
    step bytes reloc = .error .panicked ↔ reloc.offset.toNat = 2 ^ 64 - 8 := by
  obtain ⟨stops, goes⟩ := locates bytes reloc
  constructor
  · intro panicked
    by_contra away
    cases located : locate true shapes bytes reloc with
    | ok place => exact goes place located panicked
    | error stop =>
      have same := (stops stop located).symm.trans panicked
      cases same
      rw [locate_eq bounded away] at located
      exact locateInside_total located
  · intro edge
    exact stops _ (locate_edge edge)

theorem resolve_reached (inPlace : InPlace step) {before after : List Relocation}
    (split : prog.relocations = before ++ reloc :: after)
    (accepted : ({ prog with relocations := before }.resolve step inPlace).2 = .ok ()) :
    ∃ mid, mid.length = prog.bytes.length ∧ (∀ k, k % 8 = 0 → mid[k]? = prog.bytes[k]?) ∧
      (prog.resolve step inPlace).2 = (resolveLoop step mid (reloc :: after)).2 := by
  have loop : resolveLoop step prog.bytes before = ((resolveLoop step prog.bytes before).1, .ok ()) :=
    Prod.ext rfl accepted
  refine ⟨(resolveLoop step prog.bytes before).1, resolveLoop_length inPlace prog.bounded,
    fun k first => resolveLoop_opcode inPlace prog.bounded first, ?_⟩
  change (resolveLoop step prog.bytes prog.relocations).2 = _
  rw [split, resolveLoop_append loop]

/-- A resolver is guarded exactly when it comes to no relocation of the last slot of the address space. -/
theorem resolve_guarded_iff (locates : Locates shapes step) (inPlace : InPlace step) :
    Guarded (fun prog => prog.resolve step inPlace) shapes prog ↔
      ∀ reloc, Reached (fun prog => prog.resolve step inPlace) prog reloc → reloc.offset.toNat ≠ 2 ^ 64 - 8 := by
  constructor
  · rintro guarded reloc ⟨before, after, split, accepted⟩ edge
    obtain ⟨mid, length, _, same⟩ := resolve_reached inPlace split accepted
    have panics := (step_panics_iff locates (length ▸ prog.bounded)).mpr edge
    refine guarded.total (same.trans ?_)
    rw [resolveLoop, panics]
  · intro away
    refine ⟨fun panicked => ?_, ?_⟩
    · obtain ⟨before, reloc, after, mid, split, accepted, stopped⟩ := resolveLoop_stops panicked
      have kept : (resolveLoop step prog.bytes before).1.length = prog.bytes.length :=
        resolveLoop_length inPlace prog.bounded
      have length : mid.length = prog.bytes.length := by rw [← kept, accepted]
      exact away reloc ⟨before, after, split, congrArg Prod.snd accepted⟩
        ((step_panics_iff locates (length ▸ prog.bounded)).mp stopped)
    · rintro reloc ⟨before, after, split, accepted⟩ shaped outside
      have apart := away reloc ⟨before, after, split, accepted⟩
      obtain ⟨mid, length, opcodes, same⟩ := resolve_reached inPlace split accepted
      have shaped' : WellShaped shapes mid reloc :=
        { shaped with opcode := fun slot op held => shaped.opcode slot op (opcodes _ slot ▸ held) }
      have refused := locateInside_outside shaped' (length ▸ outside)
      rw [← locate_eq (length ▸ prog.bounded) apart] at refused
      have stops := (locates mid reloc).1 _ refused
      rw [same, resolveLoop, stops, length]

/-- The resolvers are guarded exactly where they come to no relocation of the last slot of the address
space: its end is not a `usize`. -/
theorem resolvers_guarded_iff (prog : ElfProgram) (mapFds : Table Int32) (data : Table (Int64 × Nat)) :
    (Guarded (resolveMapRelocs true mapFds) [none, some rBpf6464] prog ↔
      ∀ reloc, Reached (resolveMapRelocs true mapFds) prog reloc → reloc.offset.toNat ≠ 2 ^ 64 - 8) ∧
    (Guarded (resolveDataRelocs true data) [none, some rBpf6464, some rBpf6432] prog ↔
      ∀ reloc, Reached (resolveDataRelocs true data) prog reloc → reloc.offset.toNat ≠ 2 ^ 64 - 8) :=
  ⟨resolve_guarded_iff (mapStep_locates mapFds) _, resolve_guarded_iff (dataStep_locates data) _⟩

/-- An empty section with a relocation at `2 ^ 64 - 8`. -/
theorem lastSlot_panics : ¬∀ (prog : ElfProgram) (mapFds : Table Int32),
    Guarded (resolveMapRelocs true mapFds) [none, some rBpf6464] prog := by
  intro guarded
  have total := (guarded ⟨[], [⟨0xFFFFFFFFFFFFFFF8, some "m", some 1⟩], by decide⟩ fun _ => some 1).total
  exact total rfl

end EbpfLab.Elf
