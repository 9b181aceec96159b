import EbpfLab.Library.Outcome
import EbpfLab.Verifier.Checks
import EbpfLab.Verifier.Verify

/-!
# What transfers leave alone

The map table and the configured packet and data lengths of a state are set once, at the entry.
Neither a transfer, an edge refinement nor a merge of equally configured states moves them.
-/

namespace EbpfLab.Verifier
open Isa FlowGraph Library

namespace VerifierState

/-- The immutable part of a state. -/
def config (s : VerifierState) : MapTable × Option Nat × Option Nat :=
  (s.maps, s.packetLen, s.dataLen)

@[simp] theorem config_setReg (s : VerifierState) (r : Reg) (t : RegType) :
    (s.setReg r t).config = s.config := rfl

@[simp] theorem config_assign (s : VerifierState) (dst : Reg) (t : RegType) :
    (s.assign dst t).config = s.config := by
  unfold assign
  split <;> rfl

/-- Marking stack bytes touches nothing but the bitmap. -/
theorem markStackRange_frame (s : VerifierState) (lo hi : Nat) :
    (s.markStackRange lo hi).regs = s.regs ∧ (s.markStackRange lo hi).config = s.config := by
  unfold markStackRange
  induction List.range' lo (hi + 1 - lo) generalizing s with
  | nil => exact ⟨rfl, rfl⟩
  | cons byte bytes ih => exact ih (s.markStackByte byte)

@[simp] theorem reg_markStackRange (s : VerifierState) (lo hi : Nat) (r : Reg) :
    (s.markStackRange lo hi).reg r = s.reg r := by
  simp only [reg, (markStackRange_frame s lo hi).1]

@[simp] theorem config_markStackRange (s : VerifierState) (lo hi : Nat) :
    (s.markStackRange lo hi).config = s.config := (markStackRange_frame s lo hi).2

theorem config_mergeAssign {merge : RegType → RegType → RegType} {a b : VerifierState}
    (same : b.config = a.config) : (mergeAssign merge a b).1.config = a.config := by
  simp only [config, Prod.mk.injEq] at same ⊢
  obtain ⟨maps, packetLen, dataLen⟩ := same
  simp only [mergeAssign, maps, packetLen, dataLen]
  exact ⟨joinMaps_eq_left ⟨Nat.le_refl _, fun _ _ => id⟩, joinLen_eq_left (Or.inr rfl),
    joinLen_eq_left (Or.inr rfl)⟩

end VerifierState

/-- Only `r10`, and `r1` under a packet, are initialised at the entry. -/
theorem reg_entryState (config : VerifyConfig) (r : Reg) : (entryState config).reg r =
    if r = 10 then .stackPtr 0
    else if r = 1 ∧ config.packetLen.isSome = true then .xdpMdPtr
    else .notInit := by
  have initial : ∀ maps, (VerifierState.initialWithMaps maps).reg r =
      if r = 10 then .stackPtr 0 else .notInit := by
    intro maps
    simp [VerifierState.initialWithMaps, VerifierState.reg, Vector.getElem_set, Fin.ext_iff,
      eq_comm]
  cases packet : config.packetLen with
  | none =>
    simp only [entryState, packet]
    refine (initial (buildMapTable config)).trans ?_
    simp
  | some len =>
    have context : ∀ maps, (VerifierState.initialXdp (some len) maps).reg r =
        if r = 1 then .xdpMdPtr else (VerifierState.initialWithMaps maps).reg r := by
      intro maps
      exact VerifierState.reg_setReg (VerifierState.initialWithMaps maps) 1 r .xdpMdPtr
    simp only [entryState, packet]
    refine (context _).trans ?_
    rw [initial]
    by_cases frame : r = 10
    · subst frame
      rfl
    · simp [frame]

/-- A transfer keeps the configuration. -/
theorem config_checkAndTransfer {pc : Nat} {insn : Insn} {s s' : VerifierState}
    (checked : checkAndTransfer pc insn s = .ok s') : s'.config = s.config := by
  cases checkAndTransfer_ok checked with
  | alu _ _ | load _ | loadImm64 => exact VerifierState.config_assign _ _ _
  | store _ allowed =>
    cases allowed with
    | mapValue _ _ => rfl
    | stack _ => exact VerifierState.config_markStackRange _ _ _
  | always | jump _ _ _ | call _ _ | exit _ => rfl

theorem config_transferFrom {pc : Nat} {insns : List Insn} {s s' : VerifierState}
    (moved : transferFrom pc insns s = .ok s') : s'.config = s.config := by
  induction insns generalizing pc s with
  | nil =>
    cases moved
    rfl
  | cons insn insns ih =>
    obtain ⟨next, first, rest⟩ := bind_eq_ok.mp moved
    exact (ih rest).trans (config_checkAndTransfer first)

@[simp] theorem config_refineEdge (s : VerifierState) (kind : EdgeKind) (last : Option Insn) :
    (refineEdge s kind last).config = s.config := by
  unfold refineEdge refinePacketEdge
  split
  · rfl
  · split
    · split <;> rfl
    · split <;> rfl
    · rfl
  · rfl

/-- Every output of a block keeps the configuration of its entry state. -/
theorem config_blockOutputs {insns : List Insn} {cfg : Cfg} {block : Nat} {s : VerifierState}
    {outs : List (Nat × VerifierState)} (ran : blockOutputs insns cfg block s = .ok outs) :
    ∀ t o, (t, o) ∈ outs → o.config = s.config := by
  unfold blockOutputs at ran
  split at ran
  · cases ran
    intro _ _ present
    cases present
  · obtain ⟨current, moved, ran⟩ := bind_eq_ok.mp ran
    cases ran
    intro t o present
    obtain ⟨e, _, same⟩ := List.mem_map.mp present
    cases same
    rw [config_refineEdge, config_transferFrom moved]

end EbpfLab.Verifier
