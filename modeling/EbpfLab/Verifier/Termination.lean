import EbpfLab.Verifier.PostFixpoint
import EbpfLab.Verifier.Rank

/-!
# The worklist drains

Below the widening threshold a merge spends one of the block's iterations; past it the merge widens
and sinks the block's state in rank. So a merge that queues its block lowers a potential, and every
other turn shortens the queue, whichever block is popped and in whichever order its outputs merge.
-/

namespace EbpfLab.Verifier
open Isa FlowGraph Library

variable {petgraph : Petgraph} {insns : List Insn} {cfg : Cfg} {config : VerifyConfig} {threshold n : Nat}

namespace Worklist

variable {w w' w'' : Worklist} {block target b : Nat}

@[simp] theorem states_bump (w : Worklist) (b : Nat) : (w.bump b).states = w.states := by
  simp only [bump, push]
  split <;> rfl

@[simp] theorem blockIterations_bump (w : Worklist) (b : Nat) :
    (w.bump b).blockIterations = w.blockIterations := by
  simp only [bump, push]
  split <;> rfl

def iterationsAt (w : Worklist) (b : Nat) : Nat := w.blockIterations.getD b 0

/-- A block without a state outranks one with a state, whatever iterations it has left. -/
def blockRank (threshold : Nat) (w : Worklist) (b : Nat) : Nat :=
  match w.stateAt b with
  | none => (threshold + 1) * (VerifierState.maxRank + 1)
  | some s => (threshold - w.iterationsAt b) * (VerifierState.maxRank + 1) + s.rank

def potential (threshold n : Nat) (w : Worklist) : Nat :=
  ∑ b ∈ Finset.range n, w.blockRank threshold b

/-- The potential drops, or it does not rise and nothing was queued. -/
def Lowers (threshold n : Nat) (w w' : Worklist) : Prop :=
  w'.potential threshold n < w.potential threshold n ∨
    w'.potential threshold n ≤ w.potential threshold n ∧ w'.queue = w.queue

theorem Lowers.trans (first : Lowers threshold n w w') (second : Lowers threshold n w' w'') :
    Lowers threshold n w w'' := by
  rcases first with less | ⟨kept, queue⟩
  · rcases second with less' | ⟨kept', _⟩
    · exact Or.inl (less'.trans less)
    · exact Or.inl (kept'.trans_lt less)
  · rcases second with less' | ⟨kept', queue'⟩
    · exact Or.inl (less'.trans_le kept)
    · exact Or.inr ⟨kept'.trans kept, queue'.trans queue⟩

/-- The tables have one entry a block and every state carries the entry's configuration. -/
structure Configured (config : VerifyConfig) (n : Nat) (w : Worklist) : Prop where
  states : w.states.length = n
  iterations : w.blockIterations.length = n
  same : ∀ b s, w.stateAt b = some s → s.config = (entryState config).config

/-- Replacing one block's state, and its iterations only. -/
structure Replaces (w w' : Worklist) (target : Nat) (s : VerifierState) : Prop where
  states : w'.states = w.states.set target (some s)
  iterations : ∃ i, w'.blockIterations = w.blockIterations.set target i

theorem Replaces.stateAt {s : VerifierState} (replaces : Replaces w w' target s)
    (inside : target < w.states.length) (b : Nat) :
    w'.stateAt b = if b = target then some s else w.stateAt b := by
  simp only [Worklist.stateAt, replaces.states]
  exact stateAt_set inside

theorem Replaces.configured {s : VerifierState} (replaces : Replaces w w' target s)
    (configured : Configured config n w) (inside : target < n)
    (same : s.config = (entryState config).config) : Configured config n w' := by
  obtain ⟨i, iterations⟩ := replaces.iterations
  refine ⟨?_, ?_, ?_⟩
  · rw [replaces.states, List.length_set, configured.states]
  · rw [iterations, List.length_set, configured.iterations]
  · intro b s' held
    rw [replaces.stateAt (configured.states ▸ inside)] at held
    split at held
    · cases held
      exact same
    · exact configured.same b s' held

/-- Only the replaced block's rank can move. -/
theorem Replaces.blockRank {s : VerifierState} (replaces : Replaces w w' target s)
    (inside : target < w.states.length) (other : b ≠ target) :
    w'.blockRank threshold b = w.blockRank threshold b := by
  obtain ⟨i, iterations⟩ := replaces.iterations
  simp only [Worklist.blockRank, replaces.stateAt inside, other, if_false, iterationsAt, iterations,
    List.getD, List.getElem?_set, Ne.symm other]

theorem Replaces.potential_le {s : VerifierState} (replaces : Replaces w w' target s)
    (configured : Configured config n w) (inside : target < n)
    (here : w'.blockRank threshold target ≤ w.blockRank threshold target) :
    w'.potential threshold n ≤ w.potential threshold n := by
  apply Finset.sum_le_sum
  intro b _
  by_cases same : b = target
  · exact same ▸ here
  · exact (replaces.blockRank (configured.states ▸ inside) same).le

theorem Replaces.potential_lt {s : VerifierState} (replaces : Replaces w w' target s)
    (configured : Configured config n w) (inside : target < n)
    (here : w'.blockRank threshold target < w.blockRank threshold target) :
    w'.potential threshold n < w.potential threshold n := by
  apply Finset.sum_lt_sum
  · intro b _
    by_cases same : b = target
    · exact same ▸ here.le
    · exact (replaces.blockRank (configured.states ▸ inside) same).le
  · exact ⟨target, Finset.mem_range.mpr inside, here⟩

/-- What merging into a known block does, whether or not the state changed. -/
theorem replaces_merged {merged : VerifierState} {changed : Bool} {iterations : Nat}
    (inside : target < w.blockIterations.length)
    (after : w' =
      let u := { w with
        blockIterations := w.blockIterations.set target iterations
        states := w.states.set target (some merged) }
      if changed then u.bump target else u) :
    Replaces w w' target merged ∧ w'.iterationsAt target = iterations ∧
      (changed = false → w'.queue = w.queue) := by
  subst after
  cases changed with
  | true => exact ⟨⟨by simp, iterations, by simp⟩, by simp [iterationsAt, inside], by simp⟩
  | false => exact ⟨⟨rfl, iterations, rfl⟩, by simp [iterationsAt, inside], fun _ => rfl⟩

/-- A merge lowers the potential, or keeps it and queues nothing. -/
theorem mergeSuccessor_lowers (threshold : Nat) {incoming : VerifierState} (configured : Configured config n w)
    (inside : target < n) (same : incoming.config = (entryState config).config) :
    Configured config n (w.mergeSuccessor threshold target incoming) ∧
      Lowers threshold n w (w.mergeSuccessor threshold target incoming) := by
  have insideStates : target < w.states.length := configured.states ▸ inside
  have insideIterations : target < w.blockIterations.length := configured.iterations ▸ inside
  cases known : w.stateAt target with
  | none =>
    simp only [mergeSuccessor, known]
    generalize after : bump _ target = w'
    have replaces : Replaces w w' target incoming := by
      subst after
      refine ⟨by simp, w.iterationsAt target, ?_⟩
      simp [iterationsAt, insideIterations]
    refine ⟨replaces.configured configured inside same, Or.inl ?_⟩
    apply replaces.potential_lt configured inside
    have low := incoming.rank_le
    have spent : (threshold - w'.iterationsAt target) * (VerifierState.maxRank + 1) ≤
        threshold * (VerifierState.maxRank + 1) :=
      Nat.mul_le_mul_right _ (Nat.sub_le _ _)
    simp only [blockRank, known, replaces.stateAt insideStates, if_true]
    rw [Nat.add_mul]
    omega
  | some existing =>
    have level : incoming.config = existing.config := same.trans (configured.same _ _ known).symm
    have kept : ∀ merge, (VerifierState.mergeAssign merge existing incoming).1.config =
        (entryState config).config := fun merge =>
      (VerifierState.config_mergeAssign level).trans (configured.same _ _ known)
    simp only [mergeSuccessor, known]
    have iterates : w.blockIterations.getD target 0 = w.iterationsAt target := rfl
    simp only [iterates]
    by_cases wide : w.iterationsAt target + 1 > threshold
    · -- no iterations are left, so the rank alone counts
      simp only [wide, if_true]
      have sinks := VerifierState.sinks_widenAssign level
      have accurate : (existing.widenAssign incoming).2 = true ↔
          (existing.widenAssign incoming).1 ≠ existing := VerifierState.mergeAssign_changed
      have config := kept RegType.widen
      generalize after : (if (existing.widenAssign incoming).2 = true then _ else _) = w'
      obtain ⟨replaces, spent, quiet⟩ := replaces_merged insideIterations after.symm
      refine ⟨replaces.configured configured inside config, ?_⟩
      have rank : ∀ u : Worklist, w.iterationsAt target ≤ u.iterationsAt target → ∀ s,
          u.stateAt target = some s → u.blockRank threshold target = s.rank := by
        intro u more s held
        simp only [blockRank, held, show threshold - u.iterationsAt target = 0 by omega, Nat.zero_mul,
          Nat.zero_add]
      have before := rank w (Nat.le_refl _) existing known
      have later := rank w' (by omega) (existing.widenAssign incoming).1
        (by simp [replaces.stateAt insideStates])
      rcases sinks with unmoved | less
      · right
        refine ⟨replaces.potential_le configured inside ?_, quiet ?_⟩
        · rw [before, later, unmoved]
        · simpa [unmoved] using accurate
      · exact Or.inl (replaces.potential_lt configured inside (by rw [before, later]; exact less))
    · -- one iteration is spent, which outweighs any rank
      simp only [wide, if_false]
      have config := kept RegType.join
      generalize after : (if (existing.joinAssign incoming).2 = true then _ else _) = w'
      obtain ⟨replaces, spent, _⟩ := replaces_merged insideIterations after.symm
      refine ⟨replaces.configured configured inside config, Or.inl ?_⟩
      apply replaces.potential_lt configured inside
      have low := (existing.joinAssign incoming).1.rank_le
      simp only [blockRank, known, replaces.stateAt insideStates, if_true, spent]
      obtain ⟨left, spare⟩ : ∃ left, threshold - w.iterationsAt target = left + 1 :=
        ⟨threshold - w.iterationsAt target - 1, by omega⟩
      rw [spare, show threshold - (w.iterationsAt target + 1) = left by omega, Nat.add_mul]
      omega

/-- Merging outputs, in any order, lowers the potential or queues nothing. -/
theorem propagate_lowers (threshold : Nat) (outs : List (Nat × VerifierState))
    (configured : Configured config n w)
    (inside : ∀ t o, (t, o) ∈ outs → t < n)
    (same : ∀ t o, (t, o) ∈ outs → o.config = (entryState config).config) :
    Configured config n (w.propagate threshold outs) ∧
      Lowers threshold n w (w.propagate threshold outs) := by
  induction outs generalizing w with
  | nil => exact ⟨configured, Or.inr ⟨Nat.le_refl _, rfl⟩⟩
  | cons out outs ih =>
    obtain ⟨t, o⟩ := out
    obtain ⟨configured', first⟩ := mergeSuccessor_lowers threshold configured
      (inside t o (by simp)) (same t o (by simp))
    obtain ⟨configured'', rest⟩ := ih configured' (fun t o present => inside t o (by simp [present]))
      fun t o present => same t o (by simp [present])
    exact ⟨configured'', first.trans rest⟩

end Worklist

/-! ### Turns -/

/-- Take a queued block out of the queue. -/
def Worklist.pop (w : Worklist) (block : Nat) : Worklist :=
  { w with queue := w.queue.erase block }

/-- One turn of the worklist that may pop any queued block and merge its outputs in any order. -/
inductive Turn (insns : List Insn) (cfg : Cfg) (threshold : Nat) : Worklist → Worklist → Prop where
  | current {w : Worklist} {block : Nat} (queued : block ∈ w.queue)
      (upToDate : w.upToDate block = true) :
      Turn insns cfg threshold w (w.pop block)
  | empty {w : Worklist} {block : Nat} (queued : block ∈ w.queue)
      (stateless : w.stateAt block = none ∨ cfg.blocks[block]? = none) :
      Turn insns cfg threshold w ((w.pop block).markProcessed block)
  | process {w : Worklist} {block : Nat} {s : VerifierState} {b : BasicBlock}
      {outs order : List (Nat × VerifierState)} (queued : block ∈ w.queue)
      (held : w.stateAt block = some s) (found : cfg.blocks[block]? = some b)
      (ran : blockOutputs insns cfg block s = .ok outs) (merged : order.Perm outs) :
      Turn insns cfg threshold w
        ((((w.pop block).markProcessed block).visit b).propagate threshold order)

/-- The turn of the source pops the front block and merges its outputs in edge order. -/
theorem turn_of_processBlock {w w' : Worklist} {block : Nat} {queue : List Nat}
    (front : w.queue = block :: queue)
    (stepped : processBlock insns cfg threshold { w with queue } block = .ok w') :
    Turn insns cfg threshold w w' := by
  have queued : block ∈ w.queue := by simp [front]
  have rest : { w with queue } = w.pop block := by simp [Worklist.pop, front]
  unfold processBlock at stepped
  rw [rest] at stepped
  split at stepped
  · rename_i upToDate
    cases stepped
    exact .current queued upToDate
  · simp only at stepped
    split at stepped
    · rename_i s b held found
      obtain ⟨outs, ran, stepped⟩ := bind_eq_ok.mp stepped
      cases stepped
      exact .process queued held found ran (List.Perm.refl _)
    · rename_i stuck
      cases stepped
      refine .empty queued ?_
      by_contra both
      obtain ⟨⟨s, held⟩, b, found⟩ := (not_or.mp both).imp Option.ne_none_iff_exists'.mp
        Option.ne_none_iff_exists'.mp
      exact stuck s b held found

open Worklist in
theorem Turn.lowers {targets : List (Option Nat)} (built : Built insns cfg targets)
    {w w' : Worklist} (configured : Configured config cfg.blocks.length w)
    (turned : Turn insns cfg threshold w w') :
    Configured config cfg.blocks.length w' ∧
      (w'.potential threshold cfg.blocks.length < w.potential threshold cfg.blocks.length ∨
        w'.potential threshold cfg.blocks.length ≤ w.potential threshold cfg.blocks.length ∧
          w'.queue.length < w.queue.length) := by
  have shorter : ∀ {block}, block ∈ w.queue → (w.queue.erase block).length < w.queue.length := by
    intro block queued
    have positive := List.length_pos_of_mem queued
    rw [List.length_erase_of_mem queued]
    omega
  cases turned with
  | current queued _ | empty queued _ =>
    exact ⟨⟨configured.states, configured.iterations, configured.same⟩,
      Or.inr ⟨Nat.le_refl _, shorter queued⟩⟩
  | process queued held found ran merged =>
    rename_i block s b outs order
    have popped : Configured config cfg.blocks.length
        (((w.pop block).markProcessed block).visit b) :=
      ⟨configured.states, configured.iterations, configured.same⟩
    obtain ⟨configured', lowers⟩ := propagate_lowers threshold order popped
      (fun t o present => outputs_inside built (List.getElem?_eq_some_iff.mp found).1 ran t o
        (merged.subset present))
      (fun t o present => (config_blockOutputs ran t o (merged.subset present)).trans
        (configured.same _ _ held))
    refine ⟨configured', ?_⟩
    rcases lowers with less | ⟨kept, queue⟩
    · exact Or.inl less
    · exact Or.inr ⟨kept, queue ▸ shorter queued⟩

theorem configured_seed {targets : List (Option Nat)} (built : Built insns cfg targets)
    (config : VerifyConfig) :
    (seed petgraph insns cfg config).Configured config cfg.blocks.length := by
  refine ⟨?_, ?_, ?_⟩
  · simp only [seed, (foldl_push_tables _ _).1, List.length_set, List.length_replicate]
  · simp only [seed, (foldl_push_tables _ _).2.2.2, List.length_replicate]
  · intro b s held
    rw [stateAt_seed built] at held
    split at held
    · cases held
      rfl
    · cases held

/-- Every sequence of turns from the seed is finite. -/
theorem acc_seed {targets : List (Option Nat)} (built : Built insns cfg targets)
    (config : VerifyConfig) (threshold : Nat) :
    Acc (fun w' w => Turn insns cfg threshold w w') (seed petgraph insns cfg config) :=
  acc_of_lowers (fun w => w.Configured config cfg.blocks.length)
    (fun w => w.potential threshold cfg.blocks.length) (fun w => w.queue.length)
    (fun _ _ configured turned => (turned.lowers built configured).1)
    (fun _ _ configured turned => (turned.lowers built configured).2)
    (configured_seed built config)

/-- The loop of the source takes turns, so it needs only finitely many pops. -/
theorem drain_ends {w : Worklist} (ends : Acc (fun w' w => Turn insns cfg threshold w w') w) :
    ∃ fuel, (drain insns cfg threshold fuel w).isSome := by
  induction ends with
  | intro w _ ih =>
    cases front : w.queue with
    | nil => exact ⟨1, by simp [drain, front]⟩
    | cons block queue =>
      cases stepped : processBlock insns cfg threshold { w with queue } block with
      | error e => exact ⟨1, by simp [drain, front, stepped]⟩
      | ok w' =>
        obtain ⟨fuel, drained⟩ := ih w' (turn_of_processBlock front stepped)
        exact ⟨fuel + 1, by simpa [drain, front, stepped] using drained⟩

/-- No order of pops and merges runs forever, and `verify_core` returns. -/
theorem verification_ends (accepted : buildCfg petgraph insns = .ok cfg) :
    (¬ ∃ run : Nat → Worklist, run 0 = seed petgraph insns cfg config ∧
      ∀ k, Turn insns cfg config.wideningThreshold (run k) (run (k + 1))) ∧
    ∃ fuel, (verifyCore petgraph insns cfg config fuel).isSome := by
  obtain ⟨targets, built⟩ := buildCfg_built accepted
  have ends : Acc (fun w' w => Turn insns cfg config.wideningThreshold w w') (seed petgraph insns cfg config) :=
    acc_seed built config config.wideningThreshold
  refine ⟨?_, ?_⟩
  · rintro ⟨run, start, turns⟩
    exact (acc_iff_isEmpty_descending_chain.mp ends).false ⟨run, start, turns⟩
  · obtain ⟨fuel, drained⟩ := drain_ends ends
    exact ⟨fuel, by simpa [verifyCore] using drained⟩

theorem verification_ends_counter :
    (¬ ∃ run : Nat → Worklist, run 0 = seed searching counter counterCfg .default ∧
      ∀ k, Turn counter counterCfg 16 (run k) (run (k + 1))) ∧
    ∃ fuel, (verifyCore searching counter counterCfg .default fuel).isSome := by
  have accepted : buildCfg searching counter = .ok counterCfg := by decide +kernel
  exact verification_ends accepted

end EbpfLab.Verifier
