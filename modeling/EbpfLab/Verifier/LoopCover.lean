import EbpfLab.Cfg.Loops
import EbpfLab.Verifier.PostFixpoint

/-!
# Cycles and loop bounds

The bounds of an accepted program are those of its back edges by dominance, so they account for every
cycle exactly when the graph is reducible.
-/

namespace EbpfLab.Verifier
open Isa FlowGraph Library

variable {petgraph : Petgraph} {cfg : Cfg} {insns : List Insn} {snapshots : List (Option Snapshot)}

theorem mem_naturalLoops {header latch : Nat} :
    (∃ l ∈ naturalLoops petgraph cfg, l.header = header ∧ l.latch = latch) ↔
      cfg.Joins latch header ∧ (latch = header ∨ dominates petgraph cfg header latch = true) := by
  simp only [naturalLoops, List.mem_map, List.mem_dedup, List.mem_insertionSort, List.mem_filter,
    Bool.or_eq_true, beq_iff_eq, Cfg.Joins]
  constructor
  · rintro ⟨l, ⟨pair, ⟨e, ⟨present, back⟩, rfl⟩, rfl⟩, rfl, rfl⟩
    exact ⟨⟨e, present, rfl, rfl⟩, back⟩
  · rintro ⟨⟨e, present, rfl, rfl⟩, back⟩
    exact ⟨_, ⟨_, ⟨e, ⟨present, back⟩, rfl⟩, rfl⟩, rfl, rfl⟩

theorem loopTotal_ok {loops : List NaturalLoop} {totals : List (Option Nat)} {index : Nat}
    {desc : NaturalLoop} {total : LoopBound}
    (bounded : loopTotal petgraph cfg insns snapshots loops totals index desc = .ok total) :
    total.header = desc.header ∧ total.latch = desc.latch := by
  unfold loopTotal at bounded
  obtain ⟨⟨condPc, traversals⟩, _, bounded⟩ := bind_eq_ok.mp bounded
  dsimp only at bounded
  split at bounded
  · cases bounded
    exact ⟨rfl, rfl⟩
  · cases bounded

/-- One turn of the bounding loop bounds its loop. -/
theorem enforceFrom_step {loops : List NaturalLoop} {maxSteps : Option Nat} {i : Nat}
    {order : List Nat} {totals : List (Option Nat)} {out result : List LoopBound} {desc : NaturalLoop}
    (here : loops[i]? = some desc)
    (bounded : enforceFrom petgraph cfg insns snapshots loops maxSteps (i :: order) totals out = .ok result) :
    ∃ total totals', total.header = desc.header ∧ total.latch = desc.latch ∧
      enforceFrom petgraph cfg insns snapshots loops maxSteps order totals' (out ++ [total]) = .ok result := by
  rw [enforceFrom, here] at bounded
  dsimp only at bounded
  obtain ⟨total, one, bounded⟩ := bind_eq_ok.mp bounded
  obtain ⟨header, latch⟩ := loopTotal_ok one
  refine ⟨total, totals.set i (some total.steps), header, latch, ?_⟩
  cases maxSteps with
  | none => exact bounded
  | some limit =>
    dsimp only at bounded
    split at bounded
    · cases bounded
    · exact bounded

/-- A successful bounding loop returns what it was given and a bound for each loop it visits. -/
theorem enforceFrom_ok {loops : List NaturalLoop} {maxSteps : Option Nat} {order : List Nat}
    {totals : List (Option Nat)} {out result : List LoopBound}
    (bounded : enforceFrom petgraph cfg insns snapshots loops maxSteps order totals out = .ok result)
    (header latch : Nat) :
    (∃ b ∈ result, b.header = header ∧ b.latch = latch) ↔
      (∃ b ∈ out, b.header = header ∧ b.latch = latch) ∨
        ∃ i ∈ order, ∃ l, loops[i]? = some l ∧ l.header = header ∧ l.latch = latch := by
  induction order generalizing totals out with
  | nil =>
    cases bounded
    simp
  | cons i order ih =>
    cases here : loops[i]? with
    | none =>
      rw [enforceFrom, here] at bounded
      rw [ih bounded]
      simp [here]
    | some desc =>
      obtain ⟨total, totals', sameHeader, sameLatch, bounded⟩ := enforceFrom_step here bounded
      rw [ih bounded]
      simp [here, sameHeader, sameLatch, or_and_right, exists_or, or_assoc]

/-- The bounds returned are those of the natural loops. -/
theorem enforceLoopBounds_ok {maxSteps : Option Nat} {out : List LoopBound}
    (cyclic : hasBackEdge petgraph cfg = true)
    (accepted : enforceLoopBounds petgraph cfg insns snapshots maxSteps = .ok out) (header latch : Nat) :
    (∃ b ∈ out, b.header = header ∧ b.latch = latch) ↔
      ∃ l ∈ naturalLoops petgraph cfg, l.header = header ∧ l.latch = latch := by
  simp only [enforceLoopBounds, cyclic, Bool.not_true, Bool.false_eq_true, if_false] at accepted
  obtain ⟨bounds, bounded, accepted⟩ := bind_eq_ok.mp accepted
  cases accepted
  have visited := enforceFrom_ok bounded header latch
  simp only [List.mem_insertionSort, List.mem_range] at visited ⊢
  rw [visited]
  constructor
  · rintro (⟨b, present, _⟩ | ⟨i, _, l, found, same⟩)
    · cases present
    · exact ⟨l, List.mem_of_getElem? found, same⟩
  · rintro ⟨l, present, same⟩
    obtain ⟨i, inside, found⟩ := List.getElem_of_mem present
    exact .inr ⟨i, inside, l, List.getElem?_eq_some_iff.mpr ⟨inside, found⟩, same⟩

/-- The edge from `latch` to `header` carries one of the bounds. -/
def Bounded (out : List LoopBound) (latch header : Nat) : Prop :=
  ∃ b ∈ out, b.header = header ∧ b.latch = latch

/-- The bounds of an accepted program account for every cycle reached from the entry exactly when the
graph is reducible. -/
theorem bounds_cover_iff {maxSteps : Option Nat} {out : List LoopBound} (documented : petgraph.Documented)
    (inside : ∀ e ∈ cfg.edges, e.source < cfg.blocks.length)
    (accepted : enforceLoopBounds petgraph cfg insns snapshots maxSteps = .ok out) :
    CyclesMeet cfg.Joins cfg.entry (Bounded out) ↔ Reducible cfg.Joins cfg.entry := by
  cases cyclic : hasBackEdge petgraph cfg with
  | false =>
    have none := acyclic_of_hasBackEdge documented inside cyclic
    have forward : ∀ (marked : Nat → Nat → Prop) v,
        ¬ Relation.TransGen (fun a b => cfg.Joins a b ∧ ¬ marked a b) v v := fun marked v cycle =>
      none v (Relation.TransGen.mono (fun _ _ edge => edge.1) _ _ cycle)
    exact ⟨fun _ v _ => forward _ v, fun _ => cyclesMeet_iff.mpr fun v _ => forward _ v⟩
  | true =>
    rw [reducible_iff_cyclesMeet]
    apply CyclesMeet.congr
    intro latch header reached edge
    rw [Bounded, enforceLoopBounds_ok cyclic accepted, mem_naturalLoops, dominates_iff documented]
    constructor
    · rintro ⟨_, rfl | ⟨_, dominated⟩⟩
      · exact fun path => path.ne rfl
      · exact dominated
    · exact fun dominated => ⟨edge, .inr ⟨reached, dominated⟩⟩

/-- The counter loop at its verified snapshot: its self-loop carries the one bound. -/
theorem bounds_cover_iff_counter :
    CyclesMeet counterCfg.Joins counterCfg.entry (Bounded [⟨1, 1, 2, 10, 20⟩]) ↔
      Reducible counterCfg.Joins counterCfg.entry :=
  bounds_cover_iff searching_documented (show ∀ e ∈ counterCfg.edges, e.source < counterCfg.blocks.length by decide)
    (show enforceLoopBounds searching counterCfg counter
      [none, some (Vector.replicate 11 (.scalar (.interval 1 1))), none] (some 20) =
        .ok [⟨1, 1, 2, 10, 20⟩] by decide +kernel)

/-- A loop entered at two points: `mov r0, 1; jeq r0, 0, +1; ja +0; jne r0, 0, -2; exit`. -/
def twoEntries : List Insn :=
  [.alu .b64 .mov 0 (.imm 1), .jump .b64 .eq 0 (.imm 0) 1, .jump .b64 .always 0 (.imm 0) 0,
    .jump .b64 .ne 0 (.imm 0) (-2), .exit]

def twoEntriesCfg : Cfg :=
  { blocks := [⟨0, 2⟩, ⟨2, 3⟩, ⟨3, 4⟩, ⟨4, 5⟩]
    edges := [⟨0, 2, .branchTrue⟩, ⟨0, 1, .branchFalse⟩, ⟨1, 2, .unconditional⟩, ⟨2, 1, .branchTrue⟩,
      ⟨2, 3, .branchFalse⟩]
    entry := 0, blockOfPc := [0, 0, 1, 2, 3], slotOf := [0, 1, 2, 3, 4], rpo := [0, 2, 3, 1] }

/-- The verifier accepts the loop under a budget of one step and bounds nothing. -/
theorem twoEntries_unbounded :
    buildCfg searching twoEntries = .ok twoEntriesCfg ∧
      Accepts searching twoEntries twoEntriesCfg { VerifyConfig.default with maxLoopSteps := some 1 } ∧
      enforceLoopBounds searching twoEntriesCfg twoEntries (List.replicate 4 none) (some 1) = .ok [] ∧
      ¬ CyclesMeet twoEntriesCfg.Joins twoEntriesCfg.entry (Bounded []) := by
  refine ⟨by decide +kernel, ⟨20, ⟨5⟩, by decide +kernel⟩, by decide +kernel, fun meets => ?_⟩
  have first : twoEntriesCfg.Joins 0 1 := ⟨⟨0, 1, .branchFalse⟩, by decide, rfl, rfl⟩
  have enter : twoEntriesCfg.Joins 1 2 := ⟨⟨1, 2, .unconditional⟩, by decide, rfl, rfl⟩
  have back : twoEntriesCfg.Joins 2 1 := ⟨⟨2, 1, .branchTrue⟩, by decide, rfl, rfl⟩
  obtain ⟨_, _, _, missing, _⟩ :=
    meets 1 _ (Reached.root.step first) (.cons enter (.cons back .nil)) nofun
  cases missing

end EbpfLab.Verifier
