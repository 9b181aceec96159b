import EbpfLab.Ssa.DeadCode

/-!
# Unreachable-block elimination

The blocks that stay live are exactly those control flows to, so a phi loses only inputs that no run
arrives from.
-/

namespace EbpfLab.Ssa
open Isa FlowGraph Library Interp

variable {m : Machine} {prog : SsaProgram} {insn i i' : SsaInsn} {pre : List SsaInsn} {block : Nat}
  {v : SsaValue} {pred : Pred} {inputs : List (Pred × SsaValue)}

theorem reached_reaches (seen : block ∈ reached prog) : prog.Reaches block :=
  markFrom_sound (fun _ before _ flows => before.step flows)
    (by simpa using (Reached.root : prog.Reaches prog.entry))
    (by simpa using (Reached.root : prog.Reaches prog.entry)) block seen

theorem SsaProgram.WellFormed.entry_inside (wf : prog.WellFormed) : prog.entry < prog.blocks.length := by
  have live := wf.live prog.entry .root
  unfold SsaProgram.isLive at live
  cases found : prog.blocks[prog.entry]? with
  | none =>
    rw [found] at live
    cases live
  | some _ => exact (List.getElem?_eq_some_iff.mp found).1

/-- The search has fuel for every block. -/
theorem entry_pending (entry : prog.entry < prog.blocks.length) :
    pending (List.range prog.blocks.length) [prog.entry] [prog.entry] ≤ prog.blocks.length := by
  have fewer := List.length_filter_lt_length_iff_exists (l := List.range prog.blocks.length)
    (p := fun x => decide (x ∉ [prog.entry])) |>.mpr ⟨prog.entry, List.mem_range.mpr entry, by simp⟩
  rw [List.length_range] at fewer
  unfold pending
  rw [List.length_singleton]
  omega

theorem liveSuccessors_inside (inside : ∀ e ∈ prog.edges, e.target < prog.blocks.length) (x y : Nat)
    (flows : y ∈ prog.liveSuccessors x) : y ∈ List.range prog.blocks.length := by
  obtain ⟨e, present, _, rfl, _⟩ := mem_liveSuccessors.mp flows
  exact List.mem_range.mpr (inside e present)

theorem reaches_reached (entry : prog.entry < prog.blocks.length)
    (inside : ∀ e ∈ prog.edges, e.target < prog.blocks.length) (reaches : prog.Reaches block) :
    block ∈ reached prog := by
  have closed := markFrom_closed (entry_pending entry)
    (liveSuccessors_inside inside) (fun x marked => Or.inl marked)
  induction reaches with
  | root => exact subset_markFrom _ _ _ _ (List.mem_singleton.mpr rfl)
  | step _ flows ih => exact closed _ ih _ flows

/-- The program with the blocks that are not reached dead. -/
abbrev cut (prog : SsaProgram) : SsaProgram :=
  { prog with blocks := prog.blocks.zipIdx.map fun (b, block) => cutBlock (reached prog) b block }

/-- Its phis without the inputs from dead blocks. -/
abbrev pruned (prog : SsaProgram) : SsaProgram := (cut prog).mapLive (pruneInputs (cut prog))

/-- An instruction and what is left of it. -/
def Pruned (prog : SsaProgram) (i i' : SsaInsn) : Prop := i' = pruneInputs (cut prog) i

theorem cut_block (block : Nat) : (cut prog).insnsOf block = prog.insnsOf block ∧
    (cut prog).isLive block = (prog.isLive block && (reached prog).contains block) := by
  unfold SsaProgram.insnsOf SsaProgram.isLive
  rw [List.getElem?_map, List.getElem?_zipIdx]
  cases prog.blocks[block]? with
  | none => exact ⟨rfl, rfl⟩
  | some b =>
    rw [Nat.zero_add]
    exact ⟨rfl, rfl⟩

theorem pruned_live : (pruned prog).isLive block ↔
    prog.isLive block ∧ block ∈ reached prog := by
  rw [(mapLive_block _).2, (cut_block block).2]
  simp

theorem pruneInputs_shape {kept : SsaProgram} : SameShape i (pruneInputs kept i) := by
  cases i <;> exact ⟨rfl, rfl, rfl, fun _ => rfl, rfl, id⟩

theorem pruneInputs_plain {kept : SsaProgram} (plain : i.isPhi = false) : pruneInputs kept i = i := by
  cases i with
  | phi => cases plain
  | _ => rfl

theorem pruned_dsts (block : Nat) : ((pruned prog).insnsOf block).map SsaInsn.defDst =
    (prog.insnsOf block).map SsaInsn.defDst := by
  rw [(mapLive_block _).1, (cut_block block).1]
  split
  · rw [List.map_map]
    exact List.map_congr_left fun insn _ => pruneInputs_shape.defDst
  · rfl

/-- A phi input that counts afterwards is found among those that are left. -/
theorem phiInput_filter {kept : SsaProgram} (counts : kept.predLive pred) :
    phiInput pred (inputs.filter fun input => kept.predLive input.1) = phiInput pred inputs := by
  unfold phiInput
  rw [List.find?_filter]
  congr 1
  refine congrArg (fun q => List.find? q inputs) (funext fun input => ?_)
  by_cases named : input.1 = pred
  · simp [named, counts]
  · simp [named]

theorem cut_pass (wf : prog.WellFormed) :
    Pass prog (pruned prog).rebuildDefSites (Pruned prog) fun _ => False where
  length := by simp [SsaProgram.rebuildDefSites, SsaProgram.mapLive]
  edges := rfl
  entry := rfl
  lives block reaches := pruned_live.mpr ⟨wf.live block reaches, reaches_reached wf.entry_inside wf.inside reaches⟩
  dies block live := (pruned_live.mp live).1
  fewer block := by
    rw [rebuild_insnsOf, defs_of_same (pruned_dsts block)]
  recorded block pre insn v live here defines := by
    have distinct : ((pruned prog).blocks.flatMap fun b => defs b.insns).Nodup := by
      refine wf.single.sublist
        (flatMap_sublist (by simp [SsaProgram.mapLive]) fun k b b' present present' => ?_)
      have same := defs_of_same (@pruned_dsts prog k)
      rw [SsaProgram.insnsOf_eq present, SsaProgram.insnsOf_eq present'] at same
      rw [same]
    refine rebuild_recorded distinct ?_ live here defines
    have defined := here.dst_mem defines
    rw [rebuild_insnsOf, defs_of_same (pruned_dsts block)] at defined
    obtain ⟨j, present, defines'⟩ := mem_defs.mp defined
    obtain ⟨front, there⟩ := SsaProgram.at_of_mem present
    exact (List.getElem?_eq_some_iff.mp
      (wf.recorded block front j v (pruned_live.mp live).1 there defines')).1
  thinned block reaches := by
    rw [rebuild_insnsOf, (mapLive_block _).1, (cut_block block).1,
      if_pos ((mapLive_block _).2.symm.trans
        (pruned_live.mpr ⟨wf.live block reaches, reaches_reached wf.entry_inside wf.inside reaches⟩))]
    exact .of_forall₂ (List.forall₂_map_right_iff.mpr (List.forall₂_same.mpr fun _ _ => rfl))
  shape _ _ alike := alike ▸ pruneInputs_shape
  plain _ := nofun
  unkept _ _ := nofun
  uses block pre i i' reaches here alike plain v use := by
    rw [alike, pruneInputs_plain plain] at use
    have available := wf.uses block pre i reaches here plain v use
    obtain ⟨post, split⟩ := here
    obtain ⟨d, _, defined⟩ := SsaProgram.Available.defined (split.symm ▸ available.later) reaches
    exact ⟨available, kept_of_same pruned_dsts ⟨d, defined⟩⟩
  phis block pre dst inputs i' reaches here alike := by
    have same : ∀ pred, (pruned prog).rebuildDefSites.predLive pred = (cut prog).predLive pred := by
      intro pred
      cases pred with
      | none => rfl
      | some p => exact (mapLive_block _).2
    refine ⟨_, alike, ?_, fun p v listed before => ?_, fun v listed => ?_⟩
    · rw [List.filter_map, List.filter_filter, List.filter_filter]
      congr 1
      refine List.filter_congr fun input _ => ?_
      simp only [Function.comp_apply, same]
      cases counts : (cut prog).predLive input.1 with
      | false => rfl
      | true =>
        have before : prog.predLive input.1 = true := by
          cases pred : input.1 with
          | none => rfl
          | some p =>
            rw [pred] at counts
            exact (pruned_live.mp ((mapLive_block _).2.trans counts)).1
        simp [before]
    · have listed := (List.mem_filter.mp listed).1
      have available := wf.inputUses block pre dst inputs reaches here p v listed before
      obtain ⟨d, _, defined⟩ := available.defined before
      exact ⟨available, kept_of_same pruned_dsts ⟨d, defined⟩⟩
    · have listed := (List.mem_filter.mp listed).1
      obtain ⟨i, earlier, value, defines⟩ := wf.startUses block pre dst inputs reaches here v listed
      obtain ⟨post, split⟩ := here
      obtain ⟨front, there⟩ := at_earlier split earlier
      exact ⟨⟨i, earlier, value, defines⟩, kept_of_same pruned_dsts ⟨block, there.dst_mem defines⟩⟩

theorem cut_sound (wf : prog.WellFormed) : Sound m prog (Pruned prog) fun _ => False where
  exec block pre i i' env world reaches here alike plain knows := by
    rw [alike, pruneInputs_plain plain]
  phi block pre dst inputs inputs' pred env here alike arrives := by
    obtain rfl := (SsaInsn.phi.inj alike).2
    have counts : (cut prog).predLive pred := by
      cases pred with
      | none => rfl
      | some p =>
        have before := arrives.1.1
        exact (mapLive_block _).2.symm.trans
          (pruned_live.mpr ⟨wf.live p before, reaches_reached wf.entry_inside wf.inside before⟩)
    rw [phiInput_filter counts]
  drop _ _ _ _ _ _ _ gone := gone.elim

/-! ### What the pass returns -/

/-- Nothing is cut when every live block is reached. -/
theorem cut_eq (kept : ∀ block, prog.isLive block → block ∈ reached prog) : cut prog = prog := by
  have same : (prog.blocks.zipIdx.map fun (b, block) => cutBlock (reached prog) b block) = prog.blocks := by
    refine (List.map_congr_left fun entry listed => ?_).trans (List.zipIdx_map_fst 0 prog.blocks)
    obtain ⟨b, block⟩ := entry
    have found := List.mem_zipIdx_iff_getElem?.mp listed
    have stays : b.live = true → block ∈ reached prog := fun live =>
      kept block (by rw [SsaProgram.isLive, found]; exact live)
    unfold cutBlock
    cases live : b.live with
    | false =>
      cases b
      cases live
      rfl
    | true =>
      have seen := stays live
      cases b
      cases live
      simpa using seen
  exact congrArg (fun blocks => { prog with blocks }) same

theorem mapLive_eq {f : SsaInsn → SsaInsn}
    (same : ∀ site insn, (site, insn) ∈ prog.liveSites → f insn = insn) : prog.mapLive f = prog := by
  have blocks : (prog.blocks.map fun b => if b.live then { b with insns := b.insns.map f } else b) =
      prog.blocks := by
    refine (List.map_congr_left fun b listed => ?_).trans (List.map_id' _)
    split
    · rename_i live
      obtain ⟨block, found⟩ := List.mem_iff_getElem?.mp listed
      have insns : b.insns.map f = b.insns := by
        refine (List.map_congr_left fun insn inside => ?_).trans (List.map_id' _)
        obtain ⟨n, here⟩ := List.mem_iff_getElem?.mp inside
        refine same (block, n) insn (mem_liveSites.mpr ⟨?_, ?_⟩)
        · rw [SsaProgram.isLive, found]
          exact live
        · rwa [SsaProgram.insnsOf_eq found]
      rw [insns]
    · rfl
  exact congrArg (fun blocks => { prog with blocks }) blocks

/-- Unreachable-block elimination changes nothing where every live block is reached, or it kills a
block or drops a phi input. -/
theorem unreachableBlockEliminate_cases (prog : SsaProgram) :
    (unreachableBlockEliminate prog = (prog, false) ∧
        ∀ block, prog.isLive block → block ∈ reached prog) ∨
      unreachableBlockEliminate prog = ((pruned prog).rebuildDefSites, true) ∧
        ((∃ block, prog.isLive block ∧ block ∉ reached prog) ∨
          ∃ site insn, (site, insn) ∈ (cut prog).liveSites ∧ pruneInputs (cut prog) insn ≠ insn) := by
  have killed : (prog.blocks.zipIdx.any fun entry =>
        entry.1.live && !(reached prog).contains entry.2) = true ↔
      ∃ block, prog.isLive block ∧ block ∉ reached prog := by
    rw [List.any_eq_true]
    constructor
    · rintro ⟨⟨b, block⟩, listed, gone⟩
      have found := List.mem_zipIdx_iff_getElem?.mp listed
      obtain ⟨live, unseen⟩ := Bool.and_eq_true_iff.mp gone
      exact ⟨block, by rw [SsaProgram.isLive, found]; exact live, by simpa using unseen⟩
    · rintro ⟨block, live, unseen⟩
      cases found : prog.blocks[block]? with
      | none =>
        rw [SsaProgram.isLive, found] at live
        cases live
      | some b =>
        rw [SsaProgram.isLive, found] at live
        refine ⟨(b, block), List.mem_zipIdx_iff_getElem?.mpr found, ?_⟩
        exact Bool.and_eq_true_iff.mpr ⟨live, by simpa using unseen⟩
  have dropped : ((cut prog).liveSites.any fun entry =>
        pruneInputs (cut prog) entry.2 != entry.2) = true ↔
      ∃ site insn, (site, insn) ∈ (cut prog).liveSites ∧ pruneInputs (cut prog) insn ≠ insn := by
    rw [List.any_eq_true]
    constructor
    · rintro ⟨⟨site, insn⟩, listed, changed⟩
      exact ⟨site, insn, listed, by simpa using changed⟩
    · rintro ⟨site, insn, listed, changed⟩
      exact ⟨(site, insn), listed, by simpa using changed⟩
  unfold unreachableBlockEliminate
  dsimp only
  split
  · rename_i changed
    exact Or.inr ⟨rfl, (Bool.or_eq_true_iff.mp changed).imp killed.mp dropped.mp⟩
  · rename_i quiet
    obtain ⟨unkilled, undropped⟩ := not_or.mp (mt Bool.or_eq_true_iff.mpr quiet)
    have seen : ∀ block, prog.isLive block → block ∈ reached prog := by
      intro block live
      by_contra unseen
      exact unkilled (killed.mpr ⟨block, live, unseen⟩)
    refine Or.inl ⟨congrArg (·, false) ?_, seen⟩
    refine (mapLive_eq fun site insn listed => ?_).trans (cut_eq seen)
    by_contra changed
    exact undropped (dropped.mpr ⟨site, insn, listed, changed⟩)

end EbpfLab.Ssa
