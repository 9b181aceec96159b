import EbpfLab.Cfg.Blocks
import EbpfLab.Cfg.Searching
import EbpfLab.Isa.Patch
import EbpfLab.Isa.Places
import EbpfLab.Vm.Flow

/-!
# Slots in the graph, the decoder and the loader

The graph's slot numbers are the places the decoder read the instructions at, and the graph and the
loader of the interpreter resolve jumps alike.
-/

namespace EbpfLab.FlowGraph
open Isa Library Interp

variable {petgraph : Petgraph} {insns out : List Insn} {cfg : Cfg} {bytes : List UInt8}

theorem buildCfg_slotOf (built : buildCfg petgraph insns = .ok cfg) : cfg.slotOf = slotsFrom 0 insns := by
  unfold buildCfg at built
  split at built
  · cases built
  split at built
  · cases built
  simp only [slotMaps] at built
  split at built
  · cases built
  · cases built
    rfl

/-! ### Places -/

theorem slotMaps_place {i : Nat} (inside : i < insns.length) :
    (slotMaps insns).1[i]? = some (slotCount (insns.take i)) := by
  change (slotsFrom 0 insns)[i]? = _
  rw [slotsFrom_getElem?, if_pos inside, Nat.zero_add]

/-- The slot the graph gives an instruction is the place it was decoded at, in slots of eight bytes;
the rest of the string from there decodes to the rest of the list. -/
theorem slots_are_places (decoded : decodeProgram bytes = .ok insns) :
    8 * slotCount insns = bytes.length ∧ ∀ i, i < insns.length →
      ∃ slot, (slotMaps insns).1[i]? = some slot ∧
        (∀ petgraph cfg, buildCfg petgraph insns = .ok cfg → cfg.slotOf[i]? = some slot) ∧
        Reading decodeNext bytes (8 * slot) (insns.take i) ∧
        (∀ place out, Reading decodeNext bytes place out → out.length = i → place = 8 * slot) ∧
        decodeProgram (bytes.drop (8 * slot)) = .ok (insns.drop i) := by
  refine ⟨decodeProgram_length decoded, fun i inside => ?_⟩
  obtain ⟨place, reading⟩ := readAll_reading decodeNext_advances decoded (Nat.le_of_lt inside)
  obtain ⟨behind, _⟩ := reading_place reading
  subst behind
  have slot := slotMaps_place inside
  refine ⟨slotCount (insns.take i), slot, fun petgraph cfg graph => ?_, reading, fun place out reached read => ?_,
    decodeProgram_drop decoded reading⟩
  · rw [buildCfg_slotOf graph]
    exact slot
  · obtain ⟨rest, split, _⟩ := reached.rest decodeNext_advances decoded
    rw [(reading_place reached).1, split, ← read, List.take_left]

/-- A wide load between two moves. -/
theorem slots_are_places_wide :
    8 * slotCount [.alu .b64 .mov 1 (.imm 1), .loadImm64 2 7, .exit] = 32 ∧ ∀ i, i < 3 →
      ∃ slot, (slotMaps [.alu .b64 .mov 1 (.imm 1), .loadImm64 2 7, .exit]).1[i]? = some slot := by
  have decoded : decodeProgram
      [0xb7, 1, 0, 0, 1, 0, 0, 0, 0x18, 2, 0, 0, 7, 0, 0, 0, 0x55, 0, 0, 0, 0, 0, 0, 0, 0x95, 0, 0, 0, 0, 0, 0, 0] =
      .ok [.alu .b64 .mov 1 (.imm 1), .loadImm64 2 7, .exit] := by decide
  have places := slots_are_places decoded
  refine ⟨places.1, fun i inside => ?_⟩
  obtain ⟨slot, found, _⟩ := places.2 i inside
  exact ⟨slot, found⟩

/-! ### Jumps -/

/-- The absolute target of a resolved jump. -/
def execTarget : ExecInsn → Option Nat
  | .jumpReg _ _ _ _ target | .jumpImm _ _ _ _ target | .jumpAlways target => some target
  | _ => none

/-- The kind of the edge a jump takes. -/
def takenKind : JumpOp → EdgeKind
  | .always => .unconditional
  | _ => .branchTrue

section

variable {i j s t : Nat} {width : Width} {op : JumpOp} {dst d : Reg} {src : Operand} {offset : Int16} {imm : Int64}

theorem slotCount_small (short : insns.length < 2 ^ 31) : slotCount insns < 2 ^ 32 := by
  have twice : slotCount insns ≤ 2 * insns.length := by
    clear short
    induction insns with
    | nil => exact Nat.le_refl 0
    | cons insn insns ih =>
      have narrow : slotWidth insn ≤ 2 := by
        cases insn <;> simp [slotWidth]
      simp only [slotCount, List.map_cons, List.sum_cons, List.length_cons] at ih ⊢
      omega
  omega

/-- A jump the loader resolves carries where it lands. -/
theorem load_jump (small : slotCount insns < 2 ^ 32) (fetched : insns[i]? = some (.jump width op dst src offset))
    (lands : JumpsTo insns i offset j) : ((load insns)[i]?.bind execTarget) = some j := by
  have inside := (List.getElem?_eq_some_iff.mp fetched).1
  have resolved := (resolve_eq_ok_iff inside small).mpr lands
  rw [load_getElem?, fetched, Option.map_some, Option.bind_some]
  simp only [lowerOne, resolved]
  split
  · rfl
  · cases src <;> rfl

theorem resolve_refuses {slots : List Nat} {rev : List (Option Nat)} {kind : TrapKind}
    (refused : resolve i offset slots rev = .error kind) : ∃ target, kind = .oobJump target := by
  unfold resolve at refused
  dsimp only at refused
  split at refused
  · cases refused
    exact ⟨_, rfl⟩
  split at refused
  · cases refused
    exact ⟨_, rfl⟩
  split at refused
  · cases refused
  · cases refused
    exact ⟨_, rfl⟩

/-- A trap for a jump out of bounds stands where a jump lands nowhere. -/
theorem load_trap_iff (small : slotCount insns < 2 ^ 32) :
    (∃ target, (load insns)[i]? = some (.trap (.oobJump target))) ↔
      ∃ width op dst src offset, insns[i]? = some (.jump width op dst src offset) ∧
        ¬∃ j, JumpsTo insns i offset j := by
  rw [load_getElem?]
  constructor
  · rintro ⟨target, trapped⟩
    obtain ⟨insn, fetched, lowered⟩ := Option.map_eq_some_iff.mp trapped
    cases insn with
    | jump width op dst src offset =>
      refine ⟨width, op, dst, src, offset, fetched, ?_⟩
      rintro ⟨j, lands⟩
      have carried := load_jump small fetched lands
      rw [load_getElem?, trapped] at carried
      cases carried
    | alu width op dst src =>
      cases op with
      | byteSwap endian =>
        cases src with
        | reg r => cases lowered
        | imm w =>
          simp only [lowerOne] at lowered
          split at lowered <;> cases lowered
      | _ => cases src <;> cases lowered
    | store size base offset src => cases src <;> cases lowered
    | _ => cases lowered
  · rintro ⟨width, op, dst, src, offset, fetched, nowhere⟩
    have inside := (List.getElem?_eq_some_iff.mp fetched).1
    cases resolved : resolve i offset (slotsFrom 0 insns) (slotTable none some insns) with
    | ok j => exact absurd ⟨j, (resolve_eq_ok_iff inside small).mp resolved⟩ nowhere
    | error kind =>
      obtain ⟨target, rfl⟩ := resolve_refuses resolved
      exact ⟨target, by rw [fetched, Option.map_some]; simp only [lowerOne, resolved]⟩

/-- The second slot of a wide load is a slot of the program at which no instruction starts. -/
theorem second_slot (wide : insns[j]? = some (.loadImm64 d imm)) (place : (slotsFrom 0 insns)[j]? = some t) :
    t + 1 < slotCount insns ∧ t + 1 ∉ slotsFrom 0 insns := by
  have inside := (List.getElem?_eq_some_iff.mp wide).1
  rw [slotsFrom_getElem?, if_pos inside, Nat.zero_add, Option.some.injEq] at place
  subst place
  have upto := slotCount_take_succ wide
  have width : slotWidth (.loadImm64 d imm) = 2 := rfl
  constructor
  · have whole := slotCount_append (insns.take (j + 1)) (insns.drop (j + 1))
    rw [List.take_append_drop] at whole
    omega
  · intro start
    obtain ⟨k, found⟩ := List.mem_iff_getElem?.mp start
    have there := (List.getElem?_eq_some_iff.mp found).1
    rw [length_slotsFrom] at there
    rw [slotsFrom_getElem?, if_pos there, Nat.zero_add, Option.some.injEq] at found
    have trailing := byteOffset_ne_trailing (j := k) wide
    unfold byteOffset at trailing
    omega

/-- A jump to the second slot of a wide load is resolved by neither table. -/
theorem second_refused (source : (slotsFrom 0 insns)[i]? = some s) (wide : insns[j]? = some (.loadImm64 d imm))
    (place : (slotsFrom 0 insns)[j]? = some t) (named : (s : Int) + 1 + offset.toInt = t + 1) :
    resolve i offset (slotsFrom 0 insns) (slotTable none some insns) = .error (.oobJump (t + 1)) ∧
      resolveTarget (slotMaps insns).1 (slotMaps insns).2 i offset = .error (.jumpIntoWide s (t + 1)) := by
  obtain ⟨inside, unmarked⟩ := second_slot wide place
  have start : (slotsFrom 0 insns).getD i 0 = s := by simp [List.getD, source]
  have second : ((t : Int) + 1).toNat = t + 1 := by omega
  constructor
  · simp only [resolve, start, named, second]
    rw [if_neg (by omega), slotTable_getElem?, if_pos inside, if_neg unmarked]
    rfl
  · simp only [slotMaps, resolveTarget, start, named, second]
    rw [if_neg (by omega), slotTable_getElem?, if_pos inside, if_neg unmarked]

/-- The graph is built exactly when every jump lands somewhere. -/
theorem buildCfg_ok_iff (petgraph : Petgraph) (nonempty : insns ≠ []) (small : slotCount insns < 2 ^ 32) :
    (∃ cfg, buildCfg petgraph insns = .ok cfg) ↔ ∀ (i : Nat) width op dst src offset,
      insns[i]? = some (.jump width op dst src offset) → ∃ j, JumpsTo insns i offset j := by
  constructor
  · rintro ⟨cfg, graph⟩ i width op dst src offset fetched
    obtain ⟨targets, built⟩ := buildCfg_built graph
    obtain ⟨j, _, lands⟩ := built.resolved.jump fetched
    exact ⟨j, lands⟩
  · intro lands
    have resolves : ∃ targets, jumpTargets insns (slotsFrom 0 insns) (slotTable 0 (· + 1) insns) = .ok targets := by
      refine mapM_ok fun place there => ?_
      obtain ⟨insn, i⟩ := place
      have fetched : insns[i]? = some insn := List.mem_zipIdx_iff_getElem?.mp there
      have inside := (List.getElem?_eq_some_iff.mp fetched).1
      cases insn with
      | jump width op dst src offset =>
        obtain ⟨j, lands⟩ := lands i width op dst src offset fetched
        exact ⟨some j, by dsimp only; rw [(resolveTarget_eq_ok_iff inside).mpr lands]; rfl⟩
      | _ => exact ⟨none, rfl⟩
    obtain ⟨targets, resolves⟩ := resolves
    unfold buildCfg
    rw [if_neg nonempty, if_neg (by omega)]
    simp only [slotMaps, resolves]
    exact ⟨_, rfl⟩

/-- The edge a jump takes leads to where the jump lands. -/
theorem taken_edge (graph : buildCfg petgraph insns = .ok cfg) (fetched : insns[i]? = some (.jump width op dst src offset))
    (lands : JumpsTo insns i offset j) :
    (∃ e ∈ cfg.edges, cfg.blockOfPc[i]? = some e.source ∧ e.kind = takenKind op) ∧
      ∀ e ∈ cfg.edges, cfg.blockOfPc[i]? = some e.source → e.kind = takenKind op →
        (cfg.blocks[e.target]?).map BasicBlock.start = some j := by
  obtain ⟨targets, built⟩ := buildCfg_built graph
  have inside := (List.getElem?_eq_some_iff.mp fetched).1
  obtain ⟨b, found, lower, upper⟩ := built.block_at inside
  have last := built.ends_last (List.mem_of_getElem? found) lower upper fetched rfl
  have block : cfg.blockOfPc[i]? = some (blockIndex cfg.blocks i) := by
    rw [built.blockOfPc_eq, List.getElem?_map, List.getElem?_range inside]
    rfl
  have site : b.stop - 1 = i := by omega
  have taken : ∀ k, Succession insns i (takenKind op) k ↔ JumpsTo insns i offset k := by
    intro k
    by_cases always : op = .always
    · subst always
      simp [takenKind, succession_always fetched]
    · have kind : takenKind op = .branchTrue := by
        cases op <;> first | rfl | exact absurd rfl always
      simp [kind, succession_jump fetched always]
  constructor
  · have next := (taken j).mpr lands
    rw [← site] at next
    obtain ⟨c, target, start⟩ := built.successor_start (List.mem_of_getElem? found) next
    refine ⟨⟨blockIndex cfg.blocks i, blockIndex cfg.blocks j, takenKind op⟩, ?_, block, rfl⟩
    exact built.edge_iff.mpr ⟨b, c, found, target, start ▸ next⟩
  · intro e there source kind
    obtain ⟨b', c, from_, target, next⟩ := built.edge_iff.mp there
    rw [← Option.some.inj (block.symm.trans source), found] at from_
    cases from_
    rw [site, kind] at next
    rw [target, Option.map_some, ((taken c.start).mp next).unique lands]

/-- The loader traps exactly the programs the graph builder refuses, each target on the second slot of a
wide load among the traps; in the others each jump carries the start of the block its edge leads to. -/
theorem load_agrees (petgraph : Petgraph) (nonempty : insns ≠ []) (short : insns.length < 2 ^ 31) :
    ((∃ cfg, buildCfg petgraph insns = .ok cfg) ↔
      ∀ (i : Nat) (target : Int), (load insns)[i]? ≠ some (.trap (.oobJump target))) ∧
      (∀ (i j s t : Nat) width op dst src offset d imm, insns[i]? = some (.jump width op dst src offset) →
        insns[j]? = some (.loadImm64 d imm) → (slotMaps insns).1[i]? = some s → (slotMaps insns).1[j]? = some t →
        (s : Int) + 1 + offset.toInt = t + 1 →
        (load insns)[i]? = some (.trap (.oobJump (t + 1))) ∧
          resolveTarget (slotMaps insns).1 (slotMaps insns).2 i offset = .error (.jumpIntoWide s (t + 1)) ∧
          ¬∃ cfg, buildCfg petgraph insns = .ok cfg) ∧
      ∀ cfg, buildCfg petgraph insns = .ok cfg → ∀ (i : Nat) width op dst src offset,
        insns[i]? = some (.jump width op dst src offset) →
        ∃ j, (load insns)[i]?.bind execTarget = some j ∧
          (∃ e ∈ cfg.edges, cfg.blockOfPc[i]? = some e.source ∧ e.kind = takenKind op) ∧
          ∀ e ∈ cfg.edges, cfg.blockOfPc[i]? = some e.source → e.kind = takenKind op →
            (cfg.blocks[e.target]?).map BasicBlock.start = some j := by
  have small := slotCount_small short
  have built := buildCfg_ok_iff petgraph nonempty small
  have traps : ∀ cfg, buildCfg petgraph insns = .ok cfg → ∀ (i : Nat) (target : Int),
      (load insns)[i]? ≠ some (.trap (.oobJump target)) := by
    intro cfg graph i target trapped
    obtain ⟨width, op, dst, src, offset, fetched, nowhere⟩ := (load_trap_iff small).mp ⟨target, trapped⟩
    exact nowhere (built.mp ⟨cfg, graph⟩ i width op dst src offset fetched)
  refine ⟨⟨fun ⟨cfg, graph⟩ => traps cfg graph, fun untrapped => ?_⟩, ?_, ?_⟩
  · refine built.mpr fun i width op dst src offset fetched => ?_
    by_contra nowhere
    obtain ⟨target, trapped⟩ := (load_trap_iff small).mpr ⟨width, op, dst, src, offset, fetched, nowhere⟩
    exact untrapped i target trapped
  · intro i j s t width op dst src offset d imm fetched wide source place named
    obtain ⟨loader, graph⟩ := second_refused source wide place named
    have trapped : (load insns)[i]? = some (.trap (.oobJump (t + 1))) := by
      rw [load_getElem?, fetched, Option.map_some]
      simp only [lowerOne, loader]
    exact ⟨trapped, graph, fun ⟨cfg, built⟩ => traps cfg built i _ trapped⟩
  · intro cfg graph i width op dst src offset fetched
    obtain ⟨j, lands⟩ := built.mp ⟨cfg, graph⟩ i width op dst src offset fetched
    exact ⟨j, load_jump small fetched lands, taken_edge graph fetched lands⟩

/-- A jump back to a wide load is resolved to it; a jump to the load's second slot is trapped. -/
theorem load_agrees_loop :
    (∃ j, (load [.loadImm64 1 7, .jump .b64 .ne 1 (.imm 0) (-3), .exit])[1]?.bind execTarget = some j ∧ j = 0) ∧
      ¬∃ cfg, buildCfg searching [.loadImm64 1 7, .jump .b64 .ne 1 (.imm 0) (-2), .exit] = .ok cfg := by
  constructor
  · have built : ∃ cfg, buildCfg searching [.loadImm64 1 7, .jump .b64 .ne 1 (.imm 0) (-3), .exit] = .ok cfg :=
      (load_agrees searching (List.cons_ne_nil _ _) (by decide)).1.mpr fun i target trapped => by
        match i with
        | 0 | 1 | 2 => cases trapped
        | i + 3 => cases trapped
    obtain ⟨cfg, graph⟩ := built
    obtain ⟨j, carried, _⟩ := (load_agrees searching (List.cons_ne_nil _ _) (by decide)).2.2 cfg graph 1 _ _ _ _ _ rfl
    exact ⟨j, carried, (Option.some.inj carried).symm⟩
  · refine ((load_agrees searching (List.cons_ne_nil _ _) ?_).2.1 1 0 2 0 _ _ _ _ _ _ _ rfl rfl rfl rfl ?_).2.2
    · decide
    · decide

end

end EbpfLab.FlowGraph
