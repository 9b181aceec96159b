import EbpfLab.Cfg.Order
import EbpfLab.Cfg.Searching
import EbpfLab.Library.Outcome
import EbpfLab.Library.Worklist
import EbpfLab.Verifier.Lattice
import EbpfLab.Verifier.Verify

/-!
# The drained worklist is a post-fixpoint

A block is pending while its processed generation differs from its current one. Merging only raises
states and bumps the generation of every block it changes, so a block that is not pending has exit
states its successors already absorb.
-/

namespace EbpfLab.Verifier
open Isa FlowGraph Library

variable {petgraph : Petgraph} {insns : List Insn} {cfg : Cfg} {config : VerifyConfig} {threshold : Nat}

namespace Worklist

variable {w w' w'' : Worklist} {block target : Nat}

/-- The block's state changed since it was last processed. -/
def Pending (w : Worklist) (block : Nat) : Prop :=
  w.processedGen[block]?.join ≠ some (w.genAt block)

theorem upToDate_iff : w.upToDate block = true ↔ ¬ w.Pending block := by
  simp [upToDate, Pending]

/-- The tables have one entry a block, and no block is processed ahead of its generation. -/
structure Tables (n : Nat) (w : Worklist) : Prop where
  states : w.states.length = n
  gens : w.statesGen.length = n
  processed : w.processedGen.length = n
  ordered : ∀ b g, w.processedGen[b]?.join = some g → g ≤ w.genAt b

/-- What merging does to the worklist. -/
structure Progress (w w' : Worklist) : Prop where
  states : w'.states.length = w.states.length
  gens : w'.statesGen.length = w.statesGen.length
  processed : w'.processedGen = w.processedGen
  queue : ∀ b ∈ w.queue, b ∈ w'.queue
  rises : ∀ b, w.genAt b ≤ w'.genAt b
  grows : Grows w.stateAt w'.stateAt
  changed : ∀ b, w'.stateAt b ≠ w.stateAt b → w.genAt b < w'.genAt b
  queued : ∀ b, w.genAt b < w'.genAt b → b ∈ w'.queue

theorem Progress.refl (w : Worklist) : Progress w w where
  states := rfl
  gens := rfl
  processed := rfl
  queue _ present := present
  rises _ := Nat.le_refl _
  grows := Grows.refl _
  changed _ different := absurd rfl different
  queued _ less := absurd less (Nat.lt_irrefl _)

theorem Progress.trans (first : Progress w w') (second : Progress w' w'') : Progress w w'' where
  states := second.states.trans first.states
  gens := second.gens.trans first.gens
  processed := second.processed.trans first.processed
  queue b present := second.queue b (first.queue b present)
  rises b := Nat.le_trans (first.rises b) (second.rises b)
  grows := first.grows.trans second.grows
  changed b different := by
    have low := first.rises b
    have high := second.rises b
    by_cases same : w'.stateAt b = w.stateAt b
    · have := second.changed b (same ▸ different)
      omega
    · have := first.changed b same
      omega
  queued b less := by
    by_cases early : w.genAt b < w'.genAt b
    · exact second.queue b (first.queued b early)
    · have low := first.rises b
      exact second.queued b (by omega)

theorem Tables.progress {n : Nat} (tables : Tables n w) (progress : Progress w w') :
    Tables n w' where
  states := progress.states.trans tables.states
  gens := progress.gens.trans tables.gens
  processed := progress.processed ▸ tables.processed
  ordered b g held :=
    Nat.le_trans (tables.ordered b g (progress.processed ▸ held)) (progress.rises b)

theorem Pending.progress {n : Nat} (tables : Tables n w) (progress : Progress w w')
    (pending : w.Pending block) : w'.Pending block := by
  intro current
  rw [progress.processed] at current
  have low := tables.ordered _ _ current
  have high := progress.rises block
  exact pending (current.trans (by rw [Nat.le_antisymm low high]))

theorem pending_of_risen {n : Nat} (tables : Tables n w) (progress : Progress w w')
    (risen : w.genAt block < w'.genAt block) : w'.Pending block := by
  intro current
  rw [progress.processed] at current
  have low := tables.ordered _ _ current
  omega

/-! ### Merging -/

theorem mem_push (w : Worklist) (block b : Nat) :
    b ∈ (w.push block).queue ↔ b ∈ w.queue ∨ b = block := by
  unfold push
  split
  · rename_i already
    constructor
    · exact Or.inl
    · rintro (present | rfl) <;> assumption
  · simp

theorem genAt_set {gens : List Nat} {g b : Nat} (inside : target < gens.length) :
    (gens.set target g).getD b 0 = if b = target then g else gens.getD b 0 := by
  by_cases same : b = target
  · subst same
    simp [List.getD, inside]
  · simp [List.getD, same, Ne.symm same]

theorem stateAt_set {states : List (Option VerifierState)} {s : VerifierState} {b : Nat}
    (inside : target < states.length) :
    ((states.set target (some s))[b]?).join = if b = target then some s else states[b]?.join := by
  by_cases same : b = target
  · subst same
    simp [inside]
  · simp [same, Ne.symm same]

/-- Storing a state above the old one and bumping the generation is progress. -/
theorem progress_bump (w w' : Worklist) (target : Nat) (s : VerifierState)
    (insideStates : target < w.states.length) (insideGens : target < w.statesGen.length)
    (states : w'.states = w.states.set target (some s)) (gens : w'.statesGen = w.statesGen)
    (processed : w'.processedGen = w.processedGen) (queue : w'.queue = w.queue)
    (above : ∀ old, w.stateAt target = some old → old ≤ s) :
    Progress w (w'.bump target) ∧ (w'.bump target).stateAt target = some s := by
  have stateAt : ∀ b, (w'.bump target).stateAt b = if b = target then some s else w.stateAt b := by
    intro b
    have same : (w'.bump target).states = w'.states := by
      simp only [bump, push]
      split <;> rfl
    simp only [Worklist.stateAt, same, states, stateAt_set insideStates]
  have genAt : ∀ b, (w'.bump target).genAt b = if b = target then w.genAt b + 1 else w.genAt b := by
    intro b
    have same : (w'.bump target).statesGen =
        w.statesGen.set target (w.genAt target + 1) := by
      have start : w'.genAt target = w.genAt target := by simp only [Worklist.genAt, gens]
      simp only [bump, push, start, gens]
      split <;> rfl
    simp only [Worklist.genAt, same, genAt_set insideGens]
    split
    · rename_i here
      rw [here]
    · rfl
  have queued : ∀ b, b ∈ (w'.bump target).queue ↔ b ∈ w.queue ∨ b = target := by
    intro b
    simp only [bump, mem_push, queue]
  refine ⟨⟨?_, ?_, ?_, ?_, ?_, ?_, ?_, ?_⟩, by simp [stateAt]⟩
  · simp only [bump, push]
    split <;> simp [states]
  · simp only [bump, push]
    split <;> simp [gens]
  · simp only [bump, push]
    split <;> simp [processed]
  · exact fun b present => (queued b).mpr (Or.inl present)
  · intro b
    rw [genAt]
    split <;> omega
  · intro b old held
    by_cases here : b = target
    · subst here
      exact ⟨s, by simp [stateAt], above old held⟩
    · exact ⟨old, by simp [stateAt, here, held], le_refl _⟩
  · intro b different
    by_cases here : b = target
    · simp [genAt, here]
    · simp [stateAt, here] at different
  · intro b less
    by_cases here : b = target
    · exact (queued b).mpr (Or.inr here)
    · simp [genAt, here] at less

/-- One merge is progress and leaves the incoming state covered. -/
theorem mergeSuccessor_progress (threshold : Nat) (w : Worklist) (incoming : VerifierState)
    (insideStates : target < w.states.length) (insideGens : target < w.statesGen.length) :
    Progress w (w.mergeSuccessor threshold target incoming) ∧
      ∃ s, (w.mergeSuccessor threshold target incoming).stateAt target = some s ∧ incoming ≤ s := by
  unfold mergeSuccessor
  cases known : w.stateAt target with
  | none =>
    obtain ⟨progress, held⟩ := progress_bump w
      { w with
        snapshots := w.snapshots.set target (some incoming.regs)
        states := w.states.set target (some incoming) }
      target incoming insideStates insideGens rfl rfl rfl rfl (by simp [known])
    exact ⟨progress, incoming, held, le_refl _⟩
  | some existing =>
    simp only
    generalize iterates : w.blockIterations.getD target 0 + 1 = iterations
    -- either merge is an upper bound with an accurate flag
    obtain ⟨merge, left, right, chosen⟩ :
        ∃ merge : RegType → RegType → RegType, (∀ x y, x ≤ merge x y) ∧ (∀ x y, y ≤ merge x y) ∧
          (if iterations > threshold then existing.widenAssign incoming
            else existing.joinAssign incoming) = VerifierState.mergeAssign merge existing incoming := by
      by_cases wide : iterations > threshold
      · exact ⟨RegType.widen, RegType.left_le_widen, RegType.right_le_widen, by
          simp [wide, VerifierState.widenAssign]⟩
      · exact ⟨RegType.join, RegType.left_le_join, RegType.right_le_join, by
          simp [wide, VerifierState.joinAssign]⟩
    simp only [chosen]
    cases flag : (VerifierState.mergeAssign merge existing incoming).2 with
    | true =>
      simp only [if_true]
      obtain ⟨progress, held⟩ := progress_bump w
        { w with
          blockIterations := w.blockIterations.set target iterations
          states := w.states.set target
            (some (VerifierState.mergeAssign merge existing incoming).1) }
        target (VerifierState.mergeAssign merge existing incoming).1 insideStates insideGens rfl rfl rfl rfl (by
          intro old same
          rw [known, Option.some.injEq] at same
          exact same ▸ VerifierState.left_le_mergeAssign left)
      exact ⟨progress, _, held, VerifierState.right_le_mergeAssign right⟩
    | false =>
      have unmoved : (VerifierState.mergeAssign merge existing incoming).1 = existing := by
        by_contra moved
        rw [VerifierState.mergeAssign_changed.mpr moved] at flag
        cases flag
      have below : incoming ≤ existing := VerifierState.le_of_unchanged right flag
      simp only [unmoved, Bool.false_eq_true, if_false]
      have stateAt : ∀ b, ({ w with
          blockIterations := w.blockIterations.set target iterations
          states := w.states.set target (some existing) } : Worklist).stateAt b = w.stateAt b := by
        intro b
        have read := stateAt_set (s := existing) (b := b) insideStates
        simp only [Worklist.stateAt] at known ⊢
        rw [read]
        split
        · rename_i here
          rw [here, known]
        · rfl
      refine ⟨⟨by simp, rfl, rfl, fun _ => id, fun _ => Nat.le_refl _, ?_, ?_, ?_⟩, existing, ?_,
        below⟩
      · intro b old held
        exact ⟨old, by rw [stateAt, held], le_refl _⟩
      · exact fun b different => absurd (stateAt b) different
      · exact fun b less => absurd less (Nat.lt_irrefl _)
      · rw [stateAt, known]

/-- Marking a block renews its processed generation and nothing else. -/
theorem processed_markProcessed (w : Worklist) (block b : Nat) :
    (w.markProcessed block).processedGen[b]?.join =
      if b = block ∧ b < w.processedGen.length then some (w.genAt block)
      else w.processedGen[b]?.join := by
  by_cases here : b = block
  · subst here
    by_cases inside : b < w.processedGen.length <;> simp [markProcessed, inside]
  · simp [markProcessed, here, Ne.symm here]

theorem pending_markProcessed {b : Nat} (other : b ≠ block) :
    (w.markProcessed block).Pending b ↔ w.Pending b := by
  simp only [Pending, processed_markProcessed, other, false_and, if_false]
  exact Iff.rfl

theorem not_pending_markProcessed {n : Nat} (tables : Tables n w) (inside : block < n) :
    ¬ (w.markProcessed block).Pending block := by
  rw [← tables.processed] at inside
  simp only [Pending, processed_markProcessed, inside, and_self, if_true, not_not]
  rfl

theorem Tables.markProcessed {n : Nat} (tables : Tables n w) (block : Nat) :
    Tables n (w.markProcessed block) := by
  refine ⟨tables.states, tables.gens, ?_, ?_⟩
  · simpa [Worklist.markProcessed] using tables.processed
  · intro b g held
    rw [processed_markProcessed] at held
    split at held
    · rename_i here
      cases held
      exact here.1 ▸ Nat.le_refl _
    · exact tables.ordered b g held

/-- Propagating outputs is progress and leaves every output covered. -/
theorem propagate_progress {n : Nat} {outs : List (Nat × VerifierState)} (threshold : Nat)
    (w : Worklist) (tables : Tables n w) (inside : ∀ t o, (t, o) ∈ outs → t < n) :
    Progress w (w.propagate threshold outs) ∧ Covers (w.propagate threshold outs).stateAt outs := by
  induction outs generalizing w with
  | nil => exact ⟨Progress.refl w, fun _ _ present => by cases present⟩
  | cons out outs ih =>
    obtain ⟨t, o⟩ := out
    have below := inside t o (by simp)
    obtain ⟨first, s, held, covered⟩ := mergeSuccessor_progress threshold w o
      (tables.states ▸ below) (tables.gens ▸ below)
    obtain ⟨rest, covers⟩ := ih (w.mergeSuccessor threshold t o) (tables.progress first)
      fun t o present => inside t o (by simp [present])
    refine ⟨first.trans rest, ?_⟩
    intro t' o' present
    rcases List.mem_cons.mp present with same | later
    · cases same
      obtain ⟨s', held', below'⟩ := rest.grows t s held
      exact ⟨s', held', covered.trans below'⟩
    · exact covers t' o' later

end Worklist

/-! ### The loop -/

/-- The outputs of a block, when its transfer raises no error. -/
def outputs (insns : List Insn) (cfg : Cfg) (block : Nat) (s : VerifierState) :
    Option (List (Nat × VerifierState)) :=
  (blockOutputs insns cfg block s).toOption

/-- The invariant between two pops. -/
structure Sound (insns : List Insn) (cfg : Cfg) (config : VerifyConfig) (w : Worklist) : Prop where
  tables : w.Tables cfg.blocks.length
  queued : ∀ b s, w.stateAt b = some s → w.Pending b → b ∈ w.queue
  iterating : Iterating (outputs insns cfg) cfg.entry (entryState config) w.stateAt w.Pending

theorem mem_foldl_push (nodes : List Nat) (w : Worklist) (b : Nat) :
    b ∈ (nodes.foldl Worklist.push w).queue ↔ b ∈ w.queue ∨ b ∈ nodes := by
  induction nodes generalizing w with
  | nil => simp
  | cons node nodes ih =>
    rw [List.foldl_cons, ih, Worklist.mem_push, List.mem_cons]
    tauto

theorem foldl_push_tables (nodes : List Nat) (w : Worklist) :
    (nodes.foldl Worklist.push w).states = w.states ∧
      (nodes.foldl Worklist.push w).statesGen = w.statesGen ∧
      (nodes.foldl Worklist.push w).processedGen = w.processedGen ∧
      (nodes.foldl Worklist.push w).blockIterations = w.blockIterations := by
  induction nodes generalizing w with
  | nil => exact ⟨rfl, rfl, rfl, rfl⟩
  | cons node nodes ih =>
    obtain ⟨states, gens, processed, iterations⟩ := ih (w.push node)
    rw [List.foldl_cons, states, gens, processed, iterations]
    unfold Worklist.push
    split <;> exact ⟨rfl, rfl, rfl, rfl⟩

/-- Before the first pop only the entry block has a state. -/
theorem stateAt_seed {targets : List (Option Nat)} (built : Built insns cfg targets)
    (config : VerifyConfig) (b : Nat) : (seed petgraph insns cfg config).stateAt b =
      if b = cfg.entry then some (entryState config) else none := by
  have entryInside : cfg.entry < (List.replicate cfg.blocks.length
      (none : Option VerifierState)).length := by
    simpa [built.entry_eq] using built.blocks_pos
  simp only [Worklist.stateAt, seed, (foldl_push_tables _ _).1, Worklist.stateAt_set entryInside]
  split
  · rfl
  · simp only [List.getElem?_replicate]
    split <;> rfl

theorem sound_seed {targets : List (Option Nat)} (built : Ordered insns cfg targets)
    (config : VerifyConfig) : Sound insns cfg config (seed petgraph insns cfg config) := by
  have unprocessed : ∀ b : Nat, (seed petgraph insns cfg config).processedGen[b]?.join = none := by
    intro b
    simp only [seed, (foldl_push_tables _ _).2.2.1, List.getElem?_replicate]
    split <;> rfl
  refine ⟨⟨?_, ?_, ?_, ?_⟩, ?_, ?_, ?_⟩
  · simp only [seed, (foldl_push_tables _ _).1, List.length_set, List.length_replicate]
  · simp only [seed, (foldl_push_tables _ _).2.1, List.length_set, List.length_replicate]
  · simp only [seed, (foldl_push_tables _ _).2.2.1, List.length_replicate]
  · intro b g held
    rw [unprocessed] at held
    cases held
  · intro b s held _
    rw [stateAt_seed built.toBuilt] at held
    split at held
    · rename_i here
      exact (mem_foldl_push _ _ _).mpr (Or.inr (here ▸ built.entry_mem_rpo))
    · cases held
  · exact ⟨entryState config, by simp [stateAt_seed built.toBuilt], le_refl _⟩
  · intro b clean
    exact absurd (by rw [Worklist.Pending, unprocessed]; simp) clean

theorem blockOutputs_eq_ok {block : Nat} {b : BasicBlock} {s : VerifierState}
    {outs : List (Nat × VerifierState)} (found : cfg.blocks[block]? = some b) :
    blockOutputs insns cfg block s = .ok outs ↔
      ∃ current, transferFrom b.start (blockInsns insns b) s = .ok current ∧
        outs = (cfg.outEdges block).map fun e =>
          (e.target, refineEdge current e.kind insns[b.stop - 1]?) := by
  simp only [blockOutputs, found, bind_eq_ok, Except.ok.injEq, eq_comm (b := outs)]

theorem outputs_inside {targets : List (Option Nat)} (built : Built insns cfg targets)
    {block : Nat} {s : VerifierState} {outs : List (Nat × VerifierState)}
    (inside : block < cfg.blocks.length) (ran : blockOutputs insns cfg block s = .ok outs) (t : Nat)
    (o : VerifierState) (present : (t, o) ∈ outs) : t < cfg.blocks.length := by
  obtain ⟨current, _, rfl⟩ := (blockOutputs_eq_ok (List.getElem?_eq_getElem inside)).mp ran
  obtain ⟨e, leaves, same⟩ := List.mem_map.mp present
  cases same
  exact (built.edge_inside (Cfg.mem_outEdges.mp leaves).1).2

/-- The invariant with `block` popped and not yet processed. -/
structure Popped (insns : List Insn) (cfg : Cfg) (config : VerifyConfig) (w : Worklist)
    (block : Nat) : Prop where
  tables : w.Tables cfg.blocks.length
  queued : ∀ b s, w.stateAt b = some s → w.Pending b → b ≠ block → b ∈ w.queue
  iterating : Iterating (outputs insns cfg) cfg.entry (entryState config) w.stateAt w.Pending

theorem Sound.pop {w : Worklist} {block : Nat} {queue : List Nat}
    (sound : Sound insns cfg config w) (popped : w.queue = block :: queue) :
    Popped insns cfg config { w with queue } block := by
  refine ⟨⟨sound.tables.states, sound.tables.gens, sound.tables.processed, sound.tables.ordered⟩,
    ?_, ⟨sound.iterating.entry_above, sound.iterating.settled⟩⟩
  intro b s held pending other
  have present := sound.queued b s held pending
  rw [popped] at present
  exact (List.mem_cons.mp present).resolve_left other

theorem Popped.upToDate {w : Worklist} {block : Nat} (popped : Popped insns cfg config w block)
    (current : ¬ w.Pending block) : Sound insns cfg config w := by
  refine ⟨popped.tables, ?_, popped.iterating⟩
  intro b s held pending
  refine popped.queued b s held pending ?_
  rintro rfl
  exact current pending

theorem Popped.empty {w : Worklist} {block : Nat} (popped : Popped insns cfg config w block)
    (empty : w.stateAt block = none) : Sound insns cfg config (w.markProcessed block) := by
  refine ⟨popped.tables.markProcessed block, ?_, popped.iterating.skip empty fun m other pending =>
    (Worklist.pending_markProcessed other).mpr pending⟩
  intro b s held pending
  have filled : w.stateAt b = some s := held
  have other : b ≠ block := by
    rintro rfl
    rw [empty] at filled
    cases filled
  exact popped.queued b s filled ((Worklist.pending_markProcessed other).mp pending) other

theorem Popped.processed {targets : List (Option Nat)} (built : Built insns cfg targets)
    {w : Worklist} {block : Nat} {s : VerifierState} {outs : List (Nat × VerifierState)}
    (popped : Popped insns cfg config w block) (held : w.stateAt block = some s)
    (ran : blockOutputs insns cfg block s = .ok outs) (inside : block < cfg.blocks.length)
    (b : BasicBlock) :
    Sound insns cfg config (((w.markProcessed block).visit b).propagate threshold outs) := by
  have marked := popped.tables.markProcessed block
  have tables : Worklist.Tables cfg.blocks.length ((w.markProcessed block).visit b) :=
    ⟨marked.states, marked.gens, marked.processed, marked.ordered⟩
  obtain ⟨progress, covers⟩ := Worklist.propagate_progress threshold _ tables
    (outputs_inside built inside ran)
  refine ⟨tables.progress progress, ?_, ?_⟩
  · intro m s' held' pending
    generalize ((w.markProcessed block).visit b).propagate threshold outs = w' at *
    by_cases risen : w.genAt m < w'.genAt m
    · exact progress.queued m risen
    · have sameState : w'.stateAt m = w.stateAt m := by
        by_contra different
        exact risen (progress.changed m different)
      have sameGen : w'.genAt m = w.genAt m :=
        Nat.le_antisymm (Nat.not_lt.mp risen) (progress.rises m)
      have stillPending : (w.markProcessed block).Pending m := by
        rw [Worklist.Pending, progress.processed, sameGen] at pending
        exact pending
      have other : m ≠ block := by
        rintro rfl
        exact Worklist.not_pending_markProcessed popped.tables inside stillPending
      exact progress.queue m (popped.queued m s' (sameState ▸ held')
        ((Worklist.pending_markProcessed other).mp stillPending) other)
  · have produced : outputs insns cfg block s = some outs := by
      simp [outputs, ran, Except.toOption]
    apply popped.iterating.process held produced
    · exact progress.grows
    · exact covers
    · exact fun m different => Worklist.pending_of_risen tables progress (progress.changed m different)
    · exact fun m other pending => Worklist.Pending.progress tables progress
        ((Worklist.pending_markProcessed other).mpr pending)

/-- One pop keeps the invariant. -/
theorem Sound.step {targets : List (Option Nat)} (built : Built insns cfg targets)
    {w w' : Worklist} {block : Nat} {queue : List Nat} (sound : Sound insns cfg config w)
    (front : w.queue = block :: queue)
    (stepped : processBlock insns cfg threshold { w with queue } block = .ok w') :
    Sound insns cfg config w' := by
  have popped := sound.pop front
  generalize { w with queue } = w at *
  unfold processBlock at stepped
  split at stepped
  · rename_i current
    cases stepped
    exact popped.upToDate (Worklist.upToDate_iff.mp current)
  · simp only at stepped
    split at stepped
    · rename_i s b held found
      obtain ⟨outs, ran, stepped⟩ := bind_eq_ok.mp stepped
      cases stepped
      exact popped.processed built held ran (List.getElem?_eq_some_iff.mp found).1 b
    · rename_i stuck
      cases stepped
      apply popped.empty
      by_contra filled
      obtain ⟨s, held⟩ := Option.ne_none_iff_exists'.mp filled
      have inside : block < cfg.blocks.length := by
        rw [← popped.tables.states]
        by_contra outside
        simp [Worklist.stateAt, List.getElem?_eq_none (Nat.not_lt.mp outside)] at held
      exact stuck s _ held (List.getElem?_eq_getElem inside)

/-- The invariant holds when the queue drains. -/
theorem Sound.drained {targets : List (Option Nat)} (built : Built insns cfg targets) (fuel : Nat)
    {w w' : Worklist} (sound : Sound insns cfg config w)
    (ended : drain insns cfg threshold fuel w = some (.ok w')) :
    Sound insns cfg config w' ∧ w'.queue = [] := by
  induction fuel generalizing w with
  | zero => cases ended
  | succ fuel ih =>
    unfold drain at ended
    split at ended
    · rename_i empty
      cases ended
      exact ⟨sound, empty⟩
    · rename_i block queue popped
      split at ended
      · cases ended
      · rename_i next stepped
        exact ih (sound.step built popped stepped) ended

/-- The recorded states absorb everything the transfer functions produce from them. -/
structure PostFixpoint (insns : List Insn) (cfg : Cfg) (config : VerifyConfig)
    (states : Nat → Option VerifierState) : Prop where
  reachable : ∀ block, cfg.Reachable block → ∃ s, states block = some s
  entry : ∃ s, states cfg.entry = some s ∧ s.joinAssign (entryState config) = (s, false)
  closed : ∀ block b s, cfg.Reachable block → cfg.blocks[block]? = some b →
    states block = some s → ∃ current, transferFrom b.start (blockInsns insns b) s = .ok current ∧
      ∀ e ∈ cfg.outEdges block, ∃ s', states e.target = some s' ∧
        s'.joinAssign (refineEdge current e.kind insns[b.stop - 1]?) = (s', false)

theorem Sound.postFixpoint {targets : List (Option Nat)} (built : Built insns cfg targets)
    {w : Worklist} (sound : Sound insns cfg config w) (empty : w.queue = []) :
    PostFixpoint insns cfg config w.stateAt := by
  have settled : ∀ block s, w.stateAt block = some s →
      ∃ outs, blockOutputs insns cfg block s = .ok outs ∧ Covers w.stateAt outs := by
    intro block s held
    have clean : ¬ w.Pending block := by
      intro pending
      have queued := sound.queued block s held pending
      rw [empty] at queued
      cases queued
    obtain ⟨outs, ran, covers⟩ := sound.iterating.settled block clean s held
    refine ⟨outs, ?_, covers⟩
    unfold outputs at ran
    cases result : blockOutputs insns cfg block s with
    | error e => simp [result, Except.toOption] at ran
    | ok outs' =>
      simp only [result, Except.toOption, Option.some.injEq] at ran
      rw [ran]
  have closed : ∀ block b s, cfg.blocks[block]? = some b → w.stateAt block = some s →
      ∃ current, transferFrom b.start (blockInsns insns b) s = .ok current ∧
        ∀ e ∈ cfg.outEdges block, ∃ s', w.stateAt e.target = some s' ∧
          s'.joinAssign (refineEdge current e.kind insns[b.stop - 1]?) = (s', false) := by
    intro block b s found held
    obtain ⟨outs, ran, covers⟩ := settled block s held
    obtain ⟨current, moved, rfl⟩ := (blockOutputs_eq_ok found).mp ran
    refine ⟨current, moved, ?_⟩
    intro e leaves
    obtain ⟨s', held', below⟩ := covers e.target _ (List.mem_map.mpr ⟨e, leaves, rfl⟩)
    exact ⟨s', held', VerifierState.joinAssign_eq_left below⟩
  refine ⟨?_, ?_, fun block b s _ => closed block b s⟩
  · intro block path
    induction path with
    | refl =>
      obtain ⟨s, held, _⟩ := sound.iterating.entry_above
      exact ⟨s, held⟩
    | tail _ step ih =>
      obtain ⟨s, held⟩ := ih
      obtain ⟨e, present, rfl, rfl⟩ := step
      obtain ⟨_, _, covers⟩ := closed e.source _ s
        (List.getElem?_eq_getElem (built.edge_inside present).1) held
      obtain ⟨s', held', _⟩ := covers e (Cfg.mem_outEdges.mpr ⟨present, rfl⟩)
      exact ⟨s', held'⟩
  · obtain ⟨s, held, below⟩ := sound.iterating.entry_above
    exact ⟨s, held, VerifierState.joinAssign_eq_left below⟩

/-- When the worklist converges without error, the recorded block states are a post-fixpoint. -/
theorem worklist_postFixpoint {fuel : Nat} {w : Worklist} (documented : petgraph.Documented)
    (accepted : buildCfg petgraph insns = .ok cfg)
    (converged : drain insns cfg config.wideningThreshold fuel (seed petgraph insns cfg config) =
      some (.ok w)) : PostFixpoint insns cfg config w.stateAt := by
  obtain ⟨targets, ordered⟩ := buildCfg_ordered documented accepted
  obtain ⟨sound, empty⟩ := (sound_seed ordered config).drained ordered.toBuilt fuel converged
  exact sound.postFixpoint ordered.toBuilt empty

/-- A counting loop: `r0 = 0; do r0 += 1 while r0 < 10; exit`. -/
def counter : List Insn :=
  [.alu .b64 .mov 0 (.imm 0), .alu .b64 .add 0 (.imm 1), .jump .b64 .lt 0 (.imm 10) (-2), .exit]

def counterCfg : Cfg :=
  { blocks := [⟨0, 1⟩, ⟨1, 3⟩, ⟨3, 4⟩]
    edges := [⟨0, 1, .fallthrough⟩, ⟨1, 1, .branchTrue⟩, ⟨1, 2, .branchFalse⟩]
    entry := 0, blockOfPc := [0, 1, 1, 2], slotOf := [0, 1, 2, 3], rpo := [0, 1, 2] }

theorem worklist_postFixpoint_counter :
    ∃ w, drain counter counterCfg 16 100 (seed searching counter counterCfg .default) = some (.ok w) ∧
      PostFixpoint counter counterCfg .default w.stateAt := by
  have accepted : buildCfg searching counter = .ok counterCfg := by decide +kernel
  have converges : (drain counter counterCfg 16 100 (seed searching counter counterCfg .default)).map
      Except.isOk = some true := by decide +kernel
  obtain ⟨result, converged, isOk⟩ := Option.map_eq_some_iff.mp converges
  cases result with
  | ok w => exact ⟨w, converged, worklist_postFixpoint searching_documented accepted converged⟩
  | error e => cases isOk

end EbpfLab.Verifier
