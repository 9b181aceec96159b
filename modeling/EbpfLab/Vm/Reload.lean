import EbpfLab.Isa.RoundTrip
import EbpfLab.Vm.Exec

/-!
# Loading a re-encoded program

The fields an unconditional jump loses on the wire are ones the loader drops as well, so a program
and its encoding load to the same executable form.
-/

namespace EbpfLab.Interp
open Isa

theorem slotsFrom_canonical (insns : List Insn) (slot : Nat) :
    slotsFrom slot (insns.map Insn.canonical) = slotsFrom slot insns := by
  induction insns generalizing slot with
  | nil => rfl
  | cons insn rest ih => rw [List.map_cons, slotsFrom, slotWidth_canonical, ih, slotsFrom]

theorem slotCount_canonical (insns : List Insn) :
    slotCount (insns.map Insn.canonical) = slotCount insns := by
  have widths : slotWidth ∘ Insn.canonical = slotWidth := funext slotWidth_canonical
  rw [slotCount, List.map_map, widths, slotCount]

theorem execSlotTable_canonical (insns : List Insn) :
    execSlotTable (insns.map Insn.canonical) = execSlotTable insns := by
  simp only [execSlotTable, slotTable, slotsFrom_canonical, slotCount_canonical]

theorem lowerOne_canonical (i : Nat) (insn : Insn) (slots : List Nat) (rev : List (Option Nat)) :
    lowerOne i insn.canonical slots rev = lowerOne i insn slots rev := by
  cases insn with
  | jump width op dst src offset =>
    cases op with
    | always =>
      simp only [Insn.canonical, lowerOne]
      cases resolve i offset slots rev <;> rfl
    | _ => rfl
  | _ => rfl

theorem load_canonical (insns : List Insn) : load (insns.map Insn.canonical) = load insns := by
  simp only [load, execSlotTable_canonical, List.zipIdx_map, List.map_map]
  apply List.map_congr_left
  rintro ⟨insn, i⟩ _
  exact lowerOne_canonical i insn _ _

/-- Encoding then decoding preserves execution. -/
theorem encode_decode_load {insns : List Insn} {bytes : List UInt8}
    (encoded : encodeProgram insns = .ok bytes) :
    ∃ decoded, decodeProgram bytes = .ok decoded ∧ decoded.length = insns.length ∧
      load decoded = load insns ∧ encodeProgram decoded = .ok bytes := by
  refine ⟨insns.map Insn.canonical, decodeProgram_encodeProgram encoded, List.length_map _,
    load_canonical insns, ?_⟩
  rw [← encoded, encodeProgram, encodeFrom_canonical, encodeProgram]

/-- A wide load, and a `ja` with fields its encoding drops. -/
theorem encode_decode_load_wide :
    ∃ decoded, decodeProgram [0x18, 2, 0, 0, 5, 0, 0, 0, 0, 0, 0, 0, 0xff, 0xff, 0xff, 0xff,
        0x05, 0, 0xfd, 0xff, 0, 0, 0, 0] = .ok decoded ∧ decoded.length = 2 ∧
      load decoded = load [.loadImm64 2 (-4294967291), .jump .b32 .always 3 (.reg 4) (-3)] ∧
      encodeProgram decoded = .ok [0x18, 2, 0, 0, 5, 0, 0, 0, 0, 0, 0, 0, 0xff, 0xff, 0xff, 0xff,
        0x05, 0, 0xfd, 0xff, 0, 0, 0, 0] := by
  have encoded : encodeProgram [.loadImm64 2 (-4294967291), .jump .b32 .always 3 (.reg 4) (-3)] =
      .ok [0x18, 2, 0, 0, 5, 0, 0, 0, 0, 0, 0, 0, 0xff, 0xff, 0xff, 0xff,
        0x05, 0, 0xfd, 0xff, 0, 0, 0, 0] := by decide
  exact encode_decode_load encoded

end EbpfLab.Interp
