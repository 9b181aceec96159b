import EbpfLab.Ssa.Cut
import EbpfLab.Ssa.Fold

/-!
# Weights

What a program weighs, so that the passes lower the weight whenever they report a change.
-/

namespace EbpfLab.Ssa
open Isa FlowGraph Library Interp

variable {prog : SsaProgram} (consts : ConstTable) {insn : SsaInsn} {insns insns' : List SsaInsn}
  {blocks : List SsaBlock} (rank : SsaValue → Nat) {f : SsaInsn → SsaInsn} {xs ys : List SsaBlock}

/-! ### Weights -/

def SsaInsn.bulk : SsaInsn → Nat
  | .const .. => 1
  | _ => 2

/-- A constant weighs less than any other instruction; a use weighs more the later its version. -/
def SsaInsn.weight (rank : SsaValue → Nat) (insn : SsaInsn) : Nat :=
  insn.bulk + (insn.uses.map fun u => rank u + 1).sum

def insnsWeight (rank : SsaValue → Nat) (insns : List SsaInsn) : Nat :=
  (insns.map (SsaInsn.weight rank)).sum

def blocksWeight (rank : SsaValue → Nat) (blocks : List SsaBlock) : Nat :=
  (blocks.map fun b => insnsWeight rank b.insns).sum

theorem weight_pos : 1 ≤ insn.weight rank := by
  unfold SsaInsn.weight SsaInsn.bulk
  split <;> omega

theorem weight_binOp {dst : SsaValue} {width : Width} {op : AluOp} {lhs rhs : SsaOperand} :
    2 ≤ (SsaInsn.binOp dst width op lhs rhs).weight rank := by
  unfold SsaInsn.weight SsaInsn.bulk
  exact Nat.le_add_right _ _

/-- Folding lowers the weight, strictly when it reports a change. -/
theorem foldInsns_weight : insnsWeight rank (foldInsns consts insns).1 ≤ insnsWeight rank insns ∧
    ((foldInsns consts insns).2.2 = true →
      insnsWeight rank (foldInsns consts insns).1 < insnsWeight rank insns) := by
  induction insns generalizing consts with
  | nil => exact ⟨Nat.le_refl _, nofun⟩
  | cons i rest ih =>
    unfold insnsWeight at ih ⊢
    cases folds : foldValue consts i with
    | none =>
      obtain ⟨le, lt⟩ := ih consts
      rw [foldInsns_none folds]
      simp only [List.map_cons, List.sum_cons]
      exact ⟨by omega, fun changed => by have := lt changed; omega⟩
    | some folded =>
      obtain ⟨v, c⟩ := folded
      obtain ⟨width, op, lhs, rhs, rfl⟩ := foldValue_binOp folds
      obtain ⟨le, _⟩ := ih (consts.record v c)
      have heavy : 2 ≤ (SsaInsn.binOp v width op lhs rhs).weight rank := weight_binOp rank
       
      have light : (SsaInsn.const v c).weight rank = 1 := rfl
      rw [foldInsns_some folds]
      simp only [List.map_cons, List.sum_cons]
      exact ⟨by omega, fun _ => by omega⟩

theorem foldBlocks_weight : blocksWeight rank (foldBlocks consts blocks).1 ≤ blocksWeight rank blocks ∧
    ((foldBlocks consts blocks).2.2 = true →
      blocksWeight rank (foldBlocks consts blocks).1 < blocksWeight rank blocks) := by
  induction blocks generalizing consts with
  | nil => exact ⟨Nat.le_refl _, nofun⟩
  | cons b blocks ih =>
    unfold blocksWeight at ih ⊢
    rw [foldBlocks_cons]
    have step : ∀ here, here = (if b.live then foldInsns consts b.insns else (b.insns, consts, false)) →
        insnsWeight rank here.1 ≤ insnsWeight rank b.insns ∧
          (here.2.2 = true → insnsWeight rank here.1 < insnsWeight rank b.insns) := by
      rintro here rfl
      split
      · exact foldInsns_weight consts rank
      · exact ⟨Nat.le_refl _, nofun⟩
    generalize made : (if b.live then foldInsns consts b.insns else (b.insns, consts, false)) = here
    obtain ⟨le, lt⟩ := step here made.symm
    obtain ⟨le', lt'⟩ := ih here.2.1
    simp only [List.map_cons, List.sum_cons]
    refine ⟨by omega, fun changed => ?_⟩
    rcases Bool.or_eq_true_iff.mp changed with now | later
    · have := lt now
      omega
    · have := lt' later
      omega

/-- Weights add up along two lists of blocks. -/
theorem blocksWeight_le (long : xs.length = ys.length)
    (each : ∀ (k : Nat) x y, xs[k]? = some x → ys[k]? = some y →
      insnsWeight rank y.insns ≤ insnsWeight rank x.insns) :
    blocksWeight rank ys ≤ blocksWeight rank xs ∧
      ((∃ (k : Nat) (x : SsaBlock) (y : SsaBlock), xs[k]? = some x ∧ ys[k]? = some y ∧
        insnsWeight rank y.insns < insnsWeight rank x.insns) →
          blocksWeight rank ys < blocksWeight rank xs) := by
  induction xs generalizing ys with
  | nil =>
    obtain rfl := List.length_eq_zero_iff.mp long.symm
    exact ⟨Nat.le_refl _, nofun⟩
  | cons x xs ih =>
    cases ys with
    | nil => cases long
    | cons y ys =>
      have head := each 0 x y rfl rfl
      obtain ⟨le, lt⟩ := ih (Nat.succ.inj long) fun k x y => each (k + 1) x y
      unfold blocksWeight at le lt ⊢
      simp only [List.map_cons, List.sum_cons]
      refine ⟨by omega, ?_⟩
      rintro ⟨k, x', y', first, second, lower⟩
      cases k with
      | zero =>
        cases first
        cases second
        omega
      | succ k =>
        have := lt ⟨k, x', y', first, second, lower⟩
        omega

theorem insnsWeight_map (lowers : ∀ insn, (f insn).weight rank ≤ insn.weight rank) :
    insnsWeight rank (insns.map f) ≤ insnsWeight rank insns ∧
      ((∃ insn ∈ insns, (f insn).weight rank < insn.weight rank) →
        insnsWeight rank (insns.map f) < insnsWeight rank insns) := by
  unfold insnsWeight
  induction insns with
  | nil => exact ⟨Nat.le_refl _, by rintro ⟨_, present, _⟩; cases present⟩
  | cons i rest ih =>
    have head := lowers i
    obtain ⟨le, lt⟩ := ih
    simp only [List.map_cons, List.sum_cons]
    refine ⟨by omega, ?_⟩
    rintro ⟨j, present, lower⟩
    rcases List.mem_cons.mp present with rfl | later
    · omega
    · have := lt ⟨j, later, lower⟩
      omega

/-- Replacing the instructions of live blocks by lighter ones lowers the weight. -/
theorem mapLive_weight (lowers : ∀ insn, (f insn).weight rank ≤ insn.weight rank) :
    blocksWeight rank (prog.mapLive f).blocks ≤ blocksWeight rank prog.blocks ∧
      ((∃ site insn, (site, insn) ∈ prog.liveSites ∧ (f insn).weight rank < insn.weight rank) →
        blocksWeight rank (prog.mapLive f).blocks < blocksWeight rank prog.blocks) := by
  have long : prog.blocks.length = (prog.mapLive f).blocks.length := (List.length_map _).symm
  have made : ∀ {k : Nat} {x y : SsaBlock}, prog.blocks[k]? = some x → (prog.mapLive f).blocks[k]? = some y →
      y = if x.live then { x with insns := x.insns.map f } else x := by
    intro k x y first second
    unfold SsaProgram.mapLive at second
    rw [List.getElem?_map, first] at second
    exact (Option.some.inj second).symm
  obtain ⟨le, lt⟩ := blocksWeight_le rank long fun k x y first second => by
    rw [made first second]
    split
    · exact (insnsWeight_map rank lowers).1
    · exact Nat.le_refl _
  refine ⟨le, ?_⟩
  rintro ⟨⟨k, n⟩, insn, listed, lower⟩
  obtain ⟨live, found⟩ := mem_liveSites.mp listed
  cases first : prog.blocks[k]? with
  | none =>
    rw [SsaProgram.isLive, first] at live
    cases live
  | some x =>
    rw [SsaProgram.isLive, first] at live
    rw [SsaProgram.insnsOf_eq first] at found
    obtain ⟨y, second⟩ : ∃ y, (prog.mapLive f).blocks[k]? = some y :=
      ⟨_, by unfold SsaProgram.mapLive; rw [List.getElem?_map, first]; rfl⟩
    refine lt ⟨k, x, y, first, second, ?_⟩
    rw [made first second, if_pos (show x.live = true from live)]
    exact (insnsWeight_map rank lowers).2 ⟨insn, List.mem_of_getElem? found, lower⟩

theorem copyPropagate_weight (lowers : ∀ pair ∈ rewrites prog, rank pair.2 < rank pair.1) :
    blocksWeight rank (propagated prog).blocks ≤ blocksWeight rank prog.blocks ∧
      ((copyPropagate prog).2 = true →
        blocksWeight rank (propagated prog).blocks < blocksWeight rank prog.blocks) := by
  have each : ∀ insn : SsaInsn, (insn.mapUses (rename (rewrites prog))).weight rank ≤ insn.weight rank ∧
      ((rewriteInsn (rewrites prog) insn).2 = true →
        (insn.mapUses (rename (rewrites prog))).weight rank < insn.weight rank) := by
    intro insn
    obtain ⟨le, lt⟩ := rewriteInsn_lowers (fun u => rank u + 1) insn
      fun pair listed => Nat.succ_lt_succ (lowers pair listed)
    rw [rewriteInsn_eq] at le lt
    have kind : (insn.mapUses (rename (rewrites prog))).bulk = insn.bulk := by
      cases insn <;> rfl
    unfold SsaInsn.weight
    rw [kind]
    exact ⟨by omega, fun changed => by have := lt changed; omega⟩
  obtain ⟨le, lt⟩ := mapLive_weight rank fun insn => (each insn).1
  refine ⟨le, fun changed => lt ?_⟩
  unfold copyPropagate at changed
  dsimp only at changed
  split at changed
  · cases changed
  · obtain ⟨⟨site, insn⟩, listed, here⟩ := List.any_eq_true.mp changed
    exact ⟨site, insn, listed, (each insn).2 here⟩

theorem insnsWeight_sublist (sub : insns'.Sublist insns) :
    insnsWeight rank insns' + insns.length ≤ insnsWeight rank insns + insns'.length := by
  unfold insnsWeight
  induction sub with
  | slnil => exact Nat.le_refl _
  | @cons _ _ insn _ ih =>
    have : 1 ≤ insn.weight rank := weight_pos rank
    simp only [List.map_cons, List.sum_cons, List.length_cons]
    omega
  | cons_cons insn _ ih =>
    simp only [List.map_cons, List.sum_cons, List.length_cons]
    omega

/-- Each swept instruction takes at least one off the weight. -/
theorem swept_weight : blocksWeight rank (swept prog).blocks + prog.size ≤
    blocksWeight rank prog.blocks + (swept prog).size := by
  have each : ∀ (xs ys : List SsaBlock), xs.length = ys.length →
      (∀ (k : Nat) x y, xs[k]? = some x → ys[k]? = some y → y.insns.Sublist x.insns) →
      blocksWeight rank ys + (xs.map fun b => b.insns.length).sum ≤
        blocksWeight rank xs + (ys.map fun b => b.insns.length).sum := by
    intro xs
    induction xs with
    | nil =>
      intro ys long _
      obtain rfl := List.length_eq_zero_iff.mp long.symm
      exact Nat.le_refl _
    | cons x xs ih =>
      intro ys long subs
      cases ys with
      | nil => cases long
      | cons y ys =>
        have head := insnsWeight_sublist rank (subs 0 x y rfl rfl)
        have tail := ih ys (Nat.succ.inj long) fun k x y => subs (k + 1) x y
        unfold blocksWeight at tail ⊢
        simp only [List.map_cons, List.sum_cons]
        omega
  exact each _ _ (by simp) fun k b b' present present' => by
    have sub := @swept_sublist prog k
    rwa [SsaProgram.insnsOf_eq present, SsaProgram.insnsOf_eq present'] at sub

theorem pruned_weight (kept : ∀ block, prog.isLive block → block ∈ reached prog) :
    blocksWeight rank (pruned prog).blocks ≤ blocksWeight rank prog.blocks ∧
      ((∃ site insn, (site, insn) ∈ (cut prog).liveSites ∧ pruneInputs (cut prog) insn ≠ insn) →
        blocksWeight rank (pruned prog).blocks < blocksWeight rank prog.blocks) := by
  have each : ∀ insn : SsaInsn, (pruneInputs (cut prog) insn).weight rank ≤ insn.weight rank ∧
      (pruneInputs (cut prog) insn ≠ insn →
        (pruneInputs (cut prog) insn).weight rank < insn.weight rank) := by
    intro insn
    cases insn with
    | phi dst inputs =>
      have sums : ∀ inputs : List (Pred × SsaValue), ∀ keep : Pred × SsaValue → Bool,
          (((inputs.filter keep).map Prod.snd).map fun u => rank u + 1).sum ≤
              ((inputs.map Prod.snd).map fun u => rank u + 1).sum ∧
            (inputs.filter keep ≠ inputs →
              (((inputs.filter keep).map Prod.snd).map fun u => rank u + 1).sum <
                ((inputs.map Prod.snd).map fun u => rank u + 1).sum) := by
        intro inputs keep
        induction inputs with
        | nil => exact ⟨Nat.le_refl _, fun changed => absurd rfl changed⟩
        | cons input inputs ih =>
          obtain ⟨le, lt⟩ := ih
          rw [List.filter_cons]
          split
          · simp only [List.map_cons, List.sum_cons]
            refine ⟨by omega, fun changed => ?_⟩
            have := lt fun same => changed (by rw [same])
            omega
          · simp only [List.map_cons, List.sum_cons]
            exact ⟨by omega, fun _ => by omega⟩
      obtain ⟨le, lt⟩ := sums inputs fun input => (cut prog).predLive input.1
      exact ⟨Nat.add_le_add_left le 2, fun changed =>
        Nat.add_lt_add_left (lt fun same => changed (congrArg (SsaInsn.phi dst) same)) 2⟩
    | _ => exact ⟨Nat.le_refl _, fun changed => absurd rfl changed⟩
  have before : (cut prog).blocks = prog.blocks := congrArg SsaProgram.blocks (cut_eq kept)
  obtain ⟨le, lt⟩ := @mapLive_weight (cut prog) rank _ fun insn => (each insn).1
  rw [before] at le lt
  refine ⟨le, ?_⟩
  rintro ⟨site, insn, listed, changed⟩
  exact lt ⟨site, insn, listed, (each insn).2 changed⟩

/-- The passes that remove: a reported change lowers the weight. -/
theorem sweep_weight : blocksWeight rank (deadCodeEliminate prog).1.blocks ≤ blocksWeight rank prog.blocks ∧
    ((deadCodeEliminate prog).2 = true →
      blocksWeight rank (deadCodeEliminate prog).1.blocks < blocksWeight rank prog.blocks) := by
  rcases deadCodeEliminate_cases prog with quiet | ⟨done, smaller⟩
  · rw [quiet]
    exact ⟨Nat.le_refl _, nofun⟩
  · have lower := @swept_weight prog rank
    have lt : blocksWeight rank (swept prog).blocks < blocksWeight rank prog.blocks := by omega
    rw [done]
    exact ⟨Nat.le_of_lt lt, fun _ => lt⟩

theorem cut_weight (wf : prog.WellFormed) (alive : ∀ block, prog.isLive block → prog.Reaches block) :
    blocksWeight rank (unreachableBlockEliminate prog).1.blocks ≤ blocksWeight rank prog.blocks ∧
      ((unreachableBlockEliminate prog).2 = true →
        blocksWeight rank (unreachableBlockEliminate prog).1.blocks < blocksWeight rank prog.blocks) := by
  have seen : ∀ block, prog.isLive block → block ∈ reached prog := fun block live =>
    reaches_reached wf.entry_inside wf.inside (alive block live)
  rcases unreachableBlockEliminate_cases prog with ⟨quiet, _⟩ | ⟨done, killed | dropped⟩
  · rw [quiet]
    exact ⟨Nat.le_refl _, nofun⟩
  · obtain ⟨block, live, unseen⟩ := killed
    exact absurd (seen block live) unseen
  · have lt := (pruned_weight rank seen).2 dropped
    rw [done]
    exact ⟨Nat.le_of_lt lt, fun _ => lt⟩

end EbpfLab.Ssa
