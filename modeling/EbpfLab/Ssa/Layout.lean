import EbpfLab.Ssa.Built
import EbpfLab.Ssa.Homes
import Mathlib.Data.List.DropRight

/-!
# The flat order

Blocks are laid out one after another. Control falls through to a block further down, and a use is
pinned when the block it is laid out in lies on a cycle of the edges.
-/

namespace EbpfLab.Ssa
open Isa FlowGraph Library Relation

variable {petgraph : Petgraph}
  {prog prog' : SsaProgram} {block block' pos index : Nat} {insn : SsaInsn} {insns : List Insn} {cfg : Cfg}
  {fuel : Nat} {consts : ConstTable} {head phis body : List SsaInsn}

namespace SsaProgram

/-- Behind the last phi of a block. -/
def behindPhis (prog : SsaProgram) (block : Nat) : Nat :=
  ((prog.insnsOf block).rdropWhile fun insn => !insn.isPhi).length

/-- A flat position lies in a live block that can be left and entered again. -/
def OnCycle (prog : SsaProgram) (pos : Nat) : Prop :=
  ∃ block, prog.isLive block ∧ prog.blockStart block ≤ pos ∧ pos < prog.blockEnd block ∧
    TransGen (Joins prog.edges) block block

end SsaProgram

/-! ### Blocks in a row -/

theorem blockEnd_eq : prog.blockEnd block = prog.blockStart block + (prog.insnsOf block).length := by
  unfold SsaProgram.blockEnd SsaProgram.insnsOf
  cases prog.blocks[block]? <;> rfl

theorem blockStart_succ : prog.blockStart (block + 1) = prog.blockEnd block := by
  unfold SsaProgram.blockStart SsaProgram.blockEnd SsaProgram.blockStart
  rw [List.take_add_one, List.map_append, List.sum_append]
  cases prog.blocks[block]? <;> simp

theorem blockStart_le_blockEnd : prog.blockStart block ≤ prog.blockEnd block := Nat.le_add_right _ _

theorem blockStart_mono (le : block ≤ block') : prog.blockStart block ≤ prog.blockStart block' := by
  induction le with
  | refl => exact Nat.le_refl _
  | step _ ih =>
    rw [blockStart_succ]
    exact ih.trans blockStart_le_blockEnd

theorem blockEnd_le_blockStart (lt : block < block') : prog.blockEnd block ≤ prog.blockStart block' :=
  blockStart_succ ▸ blockStart_mono lt

theorem blockEnd_mono (le : block ≤ block') : prog.blockEnd block ≤ prog.blockEnd block' := by
  rw [← blockStart_succ, ← blockStart_succ]
  exact blockStart_mono (Nat.succ_le_succ le)

theorem blockEnd_le_len : prog.blockEnd block ≤ prog.len := by
  have whole : prog.blockStart prog.blocks.length = prog.len := by
    simp [SsaProgram.blockStart, SsaProgram.len]
  by_cases inside : block < prog.blocks.length
  · rw [← whole]
    exact blockEnd_le_blockStart inside
  · have beyond : prog.blocks[block]? = none := List.getElem?_eq_none (Nat.not_lt.mp inside)
    have all : prog.blocks.take block = prog.blocks := List.take_of_length_le (Nat.not_lt.mp inside)
    simp [SsaProgram.blockEnd, SsaProgram.blockStart, SsaProgram.len, beyond, all]

/-! ### Behind the phis -/

theorem behindPhis_append (split : prog.insnsOf block = head ++ body) (plain : ∀ i ∈ body, i.isPhi = false) :
    prog.behindPhis block = (head.rdropWhile fun insn => !insn.isPhi).length := by
  have behind : ∀ i ∈ body.reverse, (!i.isPhi) = true := fun i among => by simp [plain i (List.mem_reverse.mp among)]
  unfold SsaProgram.behindPhis List.rdropWhile
  rw [split, List.reverse_append, List.dropWhile_append_of_pos behind]

theorem behindPhis_eq (split : prog.insnsOf block = head ++ phis ++ body) (some_phi : phis ≠ [])
    (phi : ∀ i ∈ phis, i.isPhi) (plain : ∀ i ∈ body, i.isPhi = false) :
    prog.behindPhis block = (head ++ phis).length := by
  rw [behindPhis_append split plain, List.rdropWhile_eq_self_iff.mpr fun some_ => ?_]
  rw [List.getLast_append_of_ne_nil some_ some_phi, phi _ (List.getLast_mem some_phi)]
  exact Bool.false_ne_true

/-! ### Cycles -/

/-- `cyclic_blocks` finds the blocks that can be left and entered again. -/
theorem cyclic_iff (documented : petgraph.Documented) (inside : ∀ e ∈ prog.edges, e.target < prog.blocks.length) :
    prog.cyclic petgraph block = true ↔ TransGen (Joins prog.edges) block block := by
  have ends : ∀ {a b}, TransGen (Joins prog.edges) a b → b < prog.blocks.length := by
    intro a b path
    obtain ⟨_, _, e, present, _, rfl⟩ := TransGen.tail'_iff.mp path
    exact inside e present
  unfold SsaProgram.cyclic
  rw [List.any_eq_true]
  constructor
  · rintro ⟨scc, present, found⟩
    obtain ⟨once, mutual_⟩ := documented.component _ _ scc present
    split at found
    · -- a component of one block, with an edge to itself
      rename_i node
      obtain ⟨rfl, loops⟩ : node = block ∧ _ := by simpa only [Bool.and_eq_true, beq_iff_eq] using found
      obtain ⟨e, edge, source, target⟩ : ∃ e ∈ prog.edges, e.source = node ∧ e.target = node := by
        simpa only [List.any_eq_true, Bool.and_eq_true, beq_iff_eq] using loops
      exact .single ⟨e, edge, source, target⟩
    · rename_i several
      have here : block ∈ scc := List.contains_iff_mem.mp found
      obtain ⟨other, there, differs⟩ : ∃ other ∈ scc, other ≠ block := by
        by_contra alone
        simp only [not_exists, not_and, not_not] at alone
        exact several block (List.perm_singleton.mp
          ((List.perm_ext_iff_of_nodup once (List.nodup_singleton block)).mpr fun b =>
            ⟨fun among => List.mem_singleton.mpr (alone b among), fun same => List.mem_singleton.mp same ▸ here⟩))
      obtain ⟨_, out, back⟩ := (mutual_ block here other).mp there
      exact TransGen.trans_right out ((reflTransGen_iff_eq_or_transGen.mp back).resolve_left differs.symm)
  · intro cycle
    obtain ⟨scc, present, here⟩ := documented.covered _ prog.edges block (ends cycle)
    obtain ⟨_, mutual_⟩ := documented.component _ _ scc present
    refine ⟨scc, present, ?_⟩
    split
    · rename_i node
      obtain rfl := List.mem_singleton.mp here
      -- the first step of the cycle stays in the component
      obtain ⟨next, edge, path⟩ := TransGen.head'_iff.mp cycle
      have among := (mutual_ block here next).mpr ⟨ends (.single edge), .single edge, path⟩
      obtain rfl := List.mem_singleton.mp among
      obtain ⟨e, listed, source, target⟩ := edge
      simp only [BEq.rfl, Bool.true_and, List.any_eq_true, Bool.and_eq_true, beq_iff_eq]
      exact ⟨e, listed, source, target⟩
    · exact List.contains_iff_mem.mpr here

theorem inCycle_iff (documented : petgraph.Documented) (inside : ∀ e ∈ prog.edges, e.target < prog.blocks.length) :
    prog.inCycle petgraph pos = true ↔ prog.OnCycle pos := by
  simp only [SsaProgram.inCycle, List.any_eq_true, Bool.and_eq_true, decide_eq_true_eq, cyclic_iff documented inside]
  constructor
  · rintro ⟨⟨b, block⟩, listed, ⟨live, low, high⟩, cycle⟩
    have found := List.mem_zipIdx_iff_getElem?.mp listed
    exact ⟨block, by rw [SsaProgram.isLive, found]; exact live, low, high, cycle⟩
  · rintro ⟨block, live, low, high, cycle⟩
    unfold SsaProgram.isLive at live
    cases found : prog.blocks[block]? with
    | none =>
      rw [found] at live
      cases live
    | some b =>
      rw [found] at live
      exact ⟨(b, block), List.mem_zipIdx_iff_getElem?.mpr found, ⟨live, low, high⟩, cycle⟩

/-! ### Produced programs -/

/-- The run starts in the first block, and control falls through to a block further down. -/
structure Laid (prog : SsaProgram) : Prop where
  entry : prog.entry = 0
  falls : ∀ e ∈ prog.edges, e.kind = .fallthrough → e.source < e.target

theorem Laid.trims (laid : Laid prog) (trims : Trims prog prog') : Laid prog' where
  entry := trims.entry.trans laid.entry
  falls e present := laid.falls e (trims.edges ▸ present)

theorem Laid.round (laid : Laid prog) : Laid (optimizeRound prog consts).1 := by
  unfold optimizeRound
  dsimp only
  rw [copyPropagate_eq]
  exact ((laid.trims fold_trims).trims (mapLive_trims (mapUses_stays _))).trims sweep_trims |>.trims cut_trims

theorem Laid.optimized (laid : Laid prog) (ends : optimizeFrom fuel prog consts = some prog') : Laid prog' := by
  induction fuel generalizing prog consts with
  | zero => cases ends
  | succ fuel ih =>
    rw [optimizeFrom_succ] at ends
    split at ends
    · exact ih laid.round ends
    · cases ends
      exact laid.round

theorem buildSsaWith_laid (graph : buildCfg petgraph insns = .ok cfg)
    (built : buildSsaWith fuel insns cfg = some (.ok prog)) : Laid prog := by
  obtain ⟨targets, graph⟩ := buildCfg_built graph
  unfold buildSsaWith at built
  split at built
  · cases built
  · obtain ⟨result, _, done⟩ := Option.bind_eq_some_iff.mp built
    cases result with
    | error e => cases done
    | ok b =>
      cases done
      refine ⟨graph.entry_eq, fun e present kind => ?_⟩
      obtain ⟨b, c, here, there, next⟩ := graph.edge_iff.mp present
      have positive := (graph.tiles.mem (List.mem_of_getElem? here)).2.1
      refine graph.tiles.index_lt here there ?_
      rw [kind] at next
      generalize c.start = j at next
      cases next with
      | fallthrough => omega

theorem Produced.laid (produced : Produced prog) : Laid prog := by
  induction produced with
  | built _ graph built => exact buildSsaWith_laid graph built
  | optimized _ optimized ih => exact ih.optimized optimized

theorem Laid.falls_lt (laid : Laid prog) (falls : prog.fallsTo block = some block') : block < block' := by
  obtain ⟨e, found, rfl⟩ := Option.map_eq_some_iff.mp falls
  have listed := List.mem_of_find?_eq_some found
  have kind : e.kind = .fallthrough := by simpa using List.find?_some found
  simp only [SsaProgram.outEdges, List.mem_reverse, List.mem_filter, beq_iff_eq] at listed
  exact listed.2 ▸ laid.falls e listed.1 kind

end EbpfLab.Ssa
