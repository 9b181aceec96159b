import EbpfLab.Cfg.Build
import EbpfLab.Library.Outcome

/-!
# Blocks of a built graph

What `build_cfg` guarantees about its blocks and edges, read off a successful build: the ranges
tile the program, a block is cut after every jump and exit, and each edge comes from the last
instruction of its source block.
-/

namespace EbpfLab.FlowGraph
open Isa Library

variable {petgraph : Petgraph} {insns : List Insn} {cfg : Cfg} {targets : List (Option Nat)}

/-! ### Resolved targets -/

theorem resolveTarget_eq_ok_iff {i j : Nat} {offset : Int16} (inside : i < insns.length) :
    resolveTarget (slotsFrom 0 insns) (slotTable 0 (· + 1) insns) i offset = .ok j ↔
      JumpsTo insns i offset j := by
  obtain ⟨s, source⟩ : ∃ s, (slotsFrom 0 insns)[i]? = some s :=
    ⟨_, List.getElem?_eq_getElem (by simpa using inside)⟩
  have slotOf : (slotsFrom 0 insns).getD i 0 = s := by simp [List.getD, source]
  have inverse : ∀ t, (slotTable 0 (· + 1) insns)[t]? = some (j + 1) ↔
      (slotsFrom 0 insns)[j]? = some t := by
    intro t
    exact slotTable_eq_some_iff 0 (· + 1) (by simp) (by simp)
  simp only [resolveTarget, slotOf]
  constructor
  · intro resolved
    split at resolved
    · cases resolved
    · rename_i positive
      split at resolved
      · cases resolved
      · cases resolved
      · rename_i decoded read
        cases resolved
        exact ⟨s, _, source, (inverse _).mp read, by omega⟩
  · rintro ⟨s', t, source', target, same⟩
    have sources : s = s' := by simpa [source] using source'
    subst sources
    have positive : ¬ (s : Int) + 1 + offset.toInt < 0 := by omega
    have place : ((s : Int) + 1 + offset.toInt).toNat = t := by omega
    simp only [positive, if_false, place, (inverse t).mpr target]

/-- `targets` lists where each jump of the program lands. -/
structure Resolved (insns : List Insn) (targets : List (Option Nat)) : Prop where
  length_eq : targets.length = insns.length
  jump {i : Nat} {width : Width} {op : JumpOp} {dst : Reg} {src : Operand} {offset : Int16} :
    insns[i]? = some (.jump width op dst src offset) →
      ∃ j, targets[i]? = some (some j) ∧ JumpsTo insns i offset j
  other {i : Nat} {insn : Insn} : insns[i]? = some insn →
    (∀ width op dst src offset, insn ≠ .jump width op dst src offset) → targets[i]? = some none

theorem jumpTargets_resolved
    (resolved : jumpTargets insns (slotsFrom 0 insns) (slotTable 0 (· + 1) insns) = .ok targets) :
    Resolved insns targets := by
  obtain ⟨len, every⟩ := mapM_eq_ok resolved
  have at_index : ∀ {i : Nat} {insn : Insn}, insns[i]? = some insn → insns.zipIdx[i]? = some (insn, i) := by
    intro i insn fetched
    simp [List.getElem?_zipIdx, fetched]
  refine ⟨by simpa using len, ?_, ?_⟩
  · intro i width op dst src offset fetched
    obtain ⟨target, resolves, read⟩ := every i _ (at_index fetched)
    have inside := (List.getElem?_eq_some_iff.mp fetched).1
    cases landed : resolveTarget (slotsFrom 0 insns) (slotTable 0 (· + 1) insns) i offset with
    | error e => simp [landed, Except.map] at resolves
    | ok j =>
      simp only [landed, Except.map, Except.ok.injEq] at resolves
      subst resolves
      exact ⟨j, read, (resolveTarget_eq_ok_iff inside).mp landed⟩
  · intro i insn fetched notJump
    obtain ⟨target, resolves, read⟩ := every i _ (at_index fetched)
    cases insn with
    | jump width op dst src offset => exact absurd rfl (notJump width op dst src offset)
    | _ =>
      cases resolves
      exact read

/-! ### Tilings -/

/-- The blocks tile `lo .. hi` in order, none of them empty. -/
def Tiles : Nat → List BasicBlock → Nat → Prop
  | lo, [], hi => lo = hi
  | lo, b :: rest, hi => b.start = lo ∧ b.start < b.stop ∧ Tiles b.stop rest hi

theorem Tiles.le {lo hi : Nat} {blocks : List BasicBlock} (tiles : Tiles lo blocks hi) :
    lo ≤ hi := by
  induction blocks generalizing lo with
  | nil => exact Nat.le_of_eq tiles
  | cons b rest ih =>
    obtain ⟨start, positive, later⟩ := tiles
    have := ih later
    omega

theorem Tiles.mem {lo hi : Nat} {blocks : List BasicBlock} {b : BasicBlock}
    (tiles : Tiles lo blocks hi) (present : b ∈ blocks) :
    lo ≤ b.start ∧ b.start < b.stop ∧ b.stop ≤ hi := by
  induction blocks generalizing lo with
  | nil => cases present
  | cons c rest ih =>
    obtain ⟨start, positive, later⟩ := tiles
    rcases List.mem_cons.mp present with rfl | present
    · exact ⟨by omega, positive, later.le⟩
    · obtain ⟨lower, nonempty, upper⟩ := ih later present
      exact ⟨by omega, nonempty, upper⟩

/-- `blockIndex` finds the one block whose range holds an index. -/
theorem Tiles.blockIndex_iff {lo hi pc idx : Nat} {blocks : List BasicBlock}
    (tiles : Tiles lo blocks hi) (lower : lo ≤ pc) (upper : pc < hi) :
    blockIndex blocks pc = idx ↔
      ∃ b, blocks[idx]? = some b ∧ b.start ≤ pc ∧ pc < b.stop := by
  induction blocks generalizing lo idx with
  | nil =>
    simp only [Tiles] at tiles
    omega
  | cons b rest ih =>
    obtain ⟨start, positive, later⟩ := tiles
    by_cases here : pc < b.stop
    · have found : blockIndex (b :: rest) pc = 0 := by
        simp [blockIndex, List.findIdx_cons, show b.start ≤ pc by omega, here]
      rw [found]
      constructor
      · rintro rfl
        exact ⟨b, rfl, by omega, here⟩
      · rintro ⟨c, present, from_start, _⟩
        cases idx with
        | zero => rfl
        | succ idx =>
          have bound := (later.mem (List.mem_of_getElem? (by simpa using present))).1
          omega
    · have found : blockIndex (b :: rest) pc = blockIndex rest pc + 1 := by
        simp [blockIndex, List.findIdx_cons, here]
      rw [found]
      cases idx with
      | zero =>
        simp only [Nat.add_eq_zero_iff, Nat.succ_ne_self, and_false, List.getElem?_cons_zero,
          Option.some.injEq, exists_eq_left', false_iff]
        omega
      | succ idx =>
        rw [Nat.add_right_cancel_iff, ih later (by omega)]
        simp

theorem Tiles.block_unique {lo hi pc i j : Nat} {blocks : List BasicBlock} {b c : BasicBlock}
    (tiles : Tiles lo blocks hi) (first : blocks[i]? = some b) (second : blocks[j]? = some c)
    (inB : b.start ≤ pc ∧ pc < b.stop) (inC : c.start ≤ pc ∧ pc < c.stop) : i = j := by
  obtain ⟨lower, _, upper⟩ := tiles.mem (List.mem_of_getElem? first)
  have atI : blockIndex blocks pc = i :=
    (tiles.blockIndex_iff (by omega) (by omega)).mpr ⟨b, first, inB⟩
  have atJ : blockIndex blocks pc = j :=
    (tiles.blockIndex_iff (by omega) (by omega)).mpr ⟨c, second, inC⟩
  omega

/-- Blocks stand in the order of their starts. -/
theorem Tiles.index_lt {lo hi i j : Nat} {blocks : List BasicBlock} {b c : BasicBlock}
    (tiles : Tiles lo blocks hi) (first : blocks[i]? = some b) (second : blocks[j]? = some c)
    (before : b.start < c.start) : i < j := by
  induction blocks generalizing lo i j with
  | nil => cases first
  | cons d rest ih =>
    obtain ⟨start, positive, later⟩ := tiles
    cases j with
    | zero =>
      cases second
      cases i with
      | zero =>
        cases first
        omega
      | succ i =>
        have low := (later.mem (List.mem_of_getElem? first)).1
        omega
    | succ j =>
      cases i with
      | zero => exact Nat.succ_pos j
      | succ i => exact Nat.succ_lt_succ (ih later first second)

/-! ### Leaders -/

theorem mem_collectLeaders {pc : Nat} :
    pc ∈ collectLeaders insns targets ↔ pc = 0 ∨ ∃ i insn target,
      insns[i]? = some insn ∧ targets[i]? = some target ∧
        pc ∈ leadersAt insns.length insn target i := by
  simp only [collectLeaders, List.mem_dedup, List.mem_insertionSort, List.mem_cons,
    List.mem_flatMap, Prod.exists, List.mem_zipIdx_iff_getElem?, List.getElem?_zip_eq_some]
  constructor
  · rintro (rfl | ⟨insn, target, i, ⟨fetched, read⟩, leads⟩)
    · exact Or.inl rfl
    · exact Or.inr ⟨i, insn, target, fetched, read, leads⟩
  · rintro (rfl | ⟨i, insn, target, fetched, read, leads⟩)
    · exact Or.inl rfl
    · exact Or.inr ⟨insn, target, i, ⟨fetched, read⟩, leads⟩

theorem collectLeaders_sorted : (collectLeaders insns targets).Pairwise (· < ·) := by
  have sorted : (collectLeaders insns targets).Pairwise (· ≤ ·) :=
    List.Pairwise.sublist (List.dedup_sublist _) (List.pairwise_insertionSort _ _)
  have distinct : (collectLeaders insns targets).Pairwise (· ≠ ·) := List.nodup_dedup _
  exact (sorted.and distinct).imp fun both => Nat.lt_of_le_of_ne both.1 both.2

theorem leader_lt (resolved : Resolved insns targets) (nonempty : insns ≠ []) {pc : Nat}
    (leader : pc ∈ collectLeaders insns targets) : pc < insns.length := by
  rcases mem_collectLeaders.mp leader with rfl | ⟨i, insn, target, fetched, read, leads⟩
  · exact List.length_pos_of_ne_nil nonempty
  · simp only [leadersAt, List.mem_append, Option.mem_toList] at leads
    rcases leads with landed | next
    · subst landed
      cases insn with
      | jump width op dst src offset =>
        obtain ⟨j, read', jump⟩ := resolved.jump fetched
        have same : pc = j := by simpa [read] using read'
        subst same
        exact jump.target_lt
      | _ =>
        have none := resolved.other fetched (by simp)
        simp [read] at none
    · split at next
      · simp only [List.mem_singleton] at next
        omega
      · cases next

/-- Consecutive leaders tile the program. -/
theorem blockRanges_tiles {leaders : List Nat} {first n : Nat}
    (sorted : (first :: leaders).Pairwise (· < ·)) (bounded : ∀ l ∈ first :: leaders, l < n) :
    Tiles first (blockRanges (first :: leaders) n) n := by
  induction leaders generalizing first with
  | nil => simpa [blockRanges, Tiles] using bounded
  | cons second rest ih =>
    have ascending : first < second := (List.pairwise_cons.mp sorted).1 second (by simp)
    have later := ih (List.pairwise_cons.mp sorted).2 fun l present => bounded l (by simp [present])
    simpa [blockRanges, Tiles, ascending] using later

theorem start_mem_leaders {leaders : List Nat} {n : Nat} {b : BasicBlock}
    (present : b ∈ blockRanges leaders n) : b.start ∈ leaders := by
  simp only [blockRanges, List.mem_map, Prod.exists] at present
  obtain ⟨start, stop, paired, rfl⟩ := present
  exact (List.of_mem_zip paired).1

/-- A leader inside a block is its start. -/
theorem leader_eq_start {leaders : List Nat} {first n l : Nat} {b : BasicBlock}
    (sorted : (first :: leaders).Pairwise (· < ·)) (leader : l ∈ first :: leaders)
    (present : b ∈ blockRanges (first :: leaders) n) (lower : b.start ≤ l) (upper : l < b.stop) :
    l = b.start := by
  induction leaders generalizing first with
  | nil =>
    simp only [blockRanges, List.drop_succ_cons, List.drop_zero, List.nil_append,
      List.zip_cons_cons, List.zip_nil_right, List.map_cons, List.map_nil,
      List.mem_singleton] at present leader
    subst present leader
    rfl
  | cons second rest ih =>
    have ascending := (List.pairwise_cons.mp sorted).1
    have unfolded : blockRanges (first :: second :: rest) n =
        ⟨first, second⟩ :: blockRanges (second :: rest) n := by simp [blockRanges]
    rw [unfolded] at present
    rcases List.mem_cons.mp present with rfl | later
    · rcases List.mem_cons.mp leader with rfl | leader
      · rfl
      · rcases List.mem_cons.mp leader with rfl | leader
        · simp at upper
        · have := (List.pairwise_cons.mp (List.pairwise_cons.mp sorted).2).1 l leader
          simp only at upper
          omega
    · rcases List.mem_cons.mp leader with rfl | leader
      · have := ascending _ (start_mem_leaders later)
        omega
      · exact ih (List.pairwise_cons.mp sorted).2 leader later

/-! ### Successors -/

/-- `j` is a syntactic successor of instruction `i`, and how control gets there. -/
inductive Succession (insns : List Insn) (i : Nat) : EdgeKind → Nat → Prop where
  | fallthrough {insn} : insns[i]? = some insn → endsBlock insn = false → i + 1 < insns.length →
      Succession insns i .fallthrough (i + 1)
  | unconditional {width dst src offset j} :
      insns[i]? = some (.jump width .always dst src offset) → JumpsTo insns i offset j →
      Succession insns i .unconditional j
  | branchTrue {width op dst src offset j} : insns[i]? = some (.jump width op dst src offset) →
      op ≠ .always → JumpsTo insns i offset j → Succession insns i .branchTrue j
  | branchFalse {width op dst src offset} : insns[i]? = some (.jump width op dst src offset) →
      op ≠ .always → i + 1 < insns.length → Succession insns i .branchFalse (i + 1)

theorem Succession.target_lt {i j : Nat} {kind : EdgeKind} (next : Succession insns i kind j) :
    j < insns.length := by
  cases next with
  | fallthrough _ _ inside => exact inside
  | unconditional _ jump => exact jump.target_lt
  | branchTrue _ _ jump => exact jump.target_lt
  | branchFalse _ _ inside => exact inside

theorem succession_always {i j : Nat} {kind : EdgeKind} {width : Width} {dst : Reg} {src : Operand}
    {offset : Int16} (fetched : insns[i]? = some (.jump width .always dst src offset)) :
    Succession insns i kind j ↔ kind = .unconditional ∧ JumpsTo insns i offset j := by
  constructor
  · intro next
    cases next <;> simp_all [endsBlock]
  · rintro ⟨rfl, jump⟩
    exact .unconditional fetched jump

theorem succession_jump {i j : Nat} {kind : EdgeKind} {width : Width} {op : JumpOp} {dst : Reg}
    {src : Operand} {offset : Int16} (fetched : insns[i]? = some (.jump width op dst src offset))
    (conditional : op ≠ .always) :
    Succession insns i kind j ↔ (kind = .branchTrue ∧ JumpsTo insns i offset j) ∨
      (kind = .branchFalse ∧ j = i + 1 ∧ i + 1 < insns.length) := by
  constructor
  · intro next
    cases next <;> simp_all [endsBlock]
  · rintro (⟨rfl, jump⟩ | ⟨rfl, rfl, inside⟩)
    · exact .branchTrue fetched conditional jump
    · exact .branchFalse fetched conditional inside

theorem succession_plain {i j : Nat} {kind : EdgeKind} {insn : Insn}
    (fetched : insns[i]? = some insn) (plain : endsBlock insn = false) :
    Succession insns i kind j ↔ kind = .fallthrough ∧ j = i + 1 ∧ i + 1 < insns.length := by
  constructor
  · intro next
    cases next with
    | fallthrough _ _ inside => exact ⟨rfl, rfl, inside⟩
    | unconditional fetched' _ | branchTrue fetched' _ _ | branchFalse fetched' _ _ =>
      rw [fetched, Option.some.injEq] at fetched'
      subst fetched'
      cases plain
  · rintro ⟨rfl, rfl, inside⟩
    exact .fallthrough fetched plain inside

theorem not_succession_exit {i j : Nat} {kind : EdgeKind} (fetched : insns[i]? = some .exit) :
    ¬ Succession insns i kind j := by
  intro next
  cases next <;> simp_all [endsBlock]

/-- A successful build, opened up. -/
structure Built (insns : List Insn) (cfg : Cfg) (targets : List (Option Nat)) : Prop where
  nonempty : insns ≠ []
  small : slotCount insns < 2 ^ 32
  resolved : Resolved insns targets
  blocks_eq : cfg.blocks = blockRanges (collectLeaders insns targets) insns.length
  edges_eq : cfg.edges =
    cfg.blocks.zipIdx.flatMap fun (b, idx) => blockEdges insns targets cfg.blocks idx b
  entry_eq : cfg.entry = 0
  blockOfPc_eq : cfg.blockOfPc = (List.range insns.length).map (blockIndex cfg.blocks)

theorem buildCfg_built (built : buildCfg petgraph insns = .ok cfg) : ∃ targets, Built insns cfg targets := by
  unfold buildCfg at built
  split at built
  · cases built
  · split at built
    · cases built
    · rename_i nonempty small
      simp only [slotMaps] at built
      split at built
      · cases built
      · rename_i targets resolved
        simp only [Except.ok.injEq] at built
        subst built
        refine ⟨targets,
          { nonempty, small := by omega, resolved := jumpTargets_resolved resolved
            blocks_eq := rfl, edges_eq := rfl, entry_eq := rfl, blockOfPc_eq := rfl }⟩

namespace Built

variable (built : Built insns cfg targets)
include built

omit built in
theorem leaders_cons : ∃ rest, collectLeaders insns targets = 0 :: rest := by
  have sorted : (collectLeaders insns targets).Pairwise (· < ·) := collectLeaders_sorted
  have zero : 0 ∈ collectLeaders insns targets := mem_collectLeaders.mpr (Or.inl rfl)
  cases leaders : collectLeaders insns targets with
  | nil => simp [leaders] at zero
  | cons first rest =>
    rw [leaders] at sorted zero
    rcases List.mem_cons.mp zero with rfl | later
    · exact ⟨rest, rfl⟩
    · have := (List.pairwise_cons.mp sorted).1 0 later
      omega

theorem tiles : Tiles 0 cfg.blocks insns.length := by
  obtain ⟨rest, leaders⟩ : ∃ rest, collectLeaders insns targets = 0 :: rest := leaders_cons
  rw [built.blocks_eq, leaders]
  apply blockRanges_tiles
  · exact leaders ▸ collectLeaders_sorted
  · intro l present
    exact leader_lt built.resolved built.nonempty (leaders ▸ present)

theorem leader_start {l : Nat} {b : BasicBlock} (leader : l ∈ collectLeaders insns targets)
    (present : b ∈ cfg.blocks) (lower : b.start ≤ l) (upper : l < b.stop) : l = b.start := by
  obtain ⟨rest, leaders⟩ : ∃ rest, collectLeaders insns targets = 0 :: rest := leaders_cons
  rw [built.blocks_eq, leaders] at present
  exact leader_eq_start (leaders ▸ collectLeaders_sorted) (leaders ▸ leader) present lower upper

/-- Every instruction lies in a block. -/
theorem block_at {pc : Nat} (inside : pc < insns.length) :
    ∃ b, cfg.blocks[blockIndex cfg.blocks pc]? = some b ∧ b.start ≤ pc ∧ pc < b.stop :=
  (built.tiles.blockIndex_iff (Nat.zero_le _) inside).mp rfl

/-- A jump or an exit is the last instruction of its block. -/
theorem ends_last {b : BasicBlock} {pc : Nat} {insn : Insn} (present : b ∈ cfg.blocks)
    (lower : b.start ≤ pc) (upper : pc < b.stop) (fetched : insns[pc]? = some insn)
    (ends : endsBlock insn = true) : pc + 1 = b.stop := by
  by_contra notLast
  have bound := (built.tiles.mem present).2.2
  have inside := (List.getElem?_eq_some_iff.mp fetched).1
  obtain ⟨target, read⟩ : ∃ target, targets[pc]? = some target :=
    ⟨_, List.getElem?_eq_getElem (by simpa [built.resolved.length_eq] using inside)⟩
  have leader : pc + 1 ∈ collectLeaders insns targets :=
    mem_collectLeaders.mpr (Or.inr ⟨pc, insn, target, fetched, read,
      by simp [leadersAt, ends, show pc + 1 < insns.length by omega]⟩)
  have := built.leader_start leader present (by omega) (by omega)
  omega

/-- A successor of a block's last instruction starts a block. -/
theorem successor_start {b : BasicBlock} {kind : EdgeKind} {j : Nat} (present : b ∈ cfg.blocks)
    (next : Succession insns (b.stop - 1) kind j) :
    ∃ c, cfg.blocks[blockIndex cfg.blocks j]? = some c ∧ c.start = j := by
  obtain ⟨_, nonempty, _⟩ := built.tiles.mem present
  obtain ⟨c, found, lower, upper⟩ := built.block_at next.target_lt
  refine ⟨c, found, ?_⟩
  have landed : ∀ {width op dst src offset},
      insns[b.stop - 1]? = some (.jump width op dst src offset) →
      JumpsTo insns (b.stop - 1) offset j → c.start = j := by
    intro width op dst src offset fetched jump
    obtain ⟨j', read, jump'⟩ := built.resolved.jump fetched
    rw [JumpsTo.unique jump' jump] at read
    have leader : j ∈ collectLeaders insns targets :=
      mem_collectLeaders.mpr (Or.inr ⟨_, _, _, fetched, read, by simp [leadersAt]⟩)
    exact (built.leader_start leader (List.mem_of_getElem? found) lower upper).symm
  -- the block after `b` cannot reach back over the cut, or `b` would hold its start
  have following : j = b.stop → c.start = j := by
    rintro rfl
    by_contra different
    obtain ⟨i, at_b⟩ := List.getElem?_of_mem present
    have last : b.start ≤ b.stop - 1 ∧ b.stop - 1 < b.stop := by omega
    have same := built.tiles.block_unique at_b found last ⟨by omega, by omega⟩
    subst same
    rw [at_b] at found
    cases found
    omega
  cases next with
  | fallthrough _ _ _ => exact following (by omega)
  | unconditional fetched jump => exact landed fetched jump
  | branchTrue fetched _ jump => exact landed fetched jump
  | branchFalse _ _ _ => exact following (by omega)

theorem mem_blockEdges {idx : Nat} {b : BasicBlock} {e : Edge} (present : b ∈ cfg.blocks) :
    e ∈ blockEdges insns targets cfg.blocks idx b ↔ e.source = idx ∧
      ∃ j, Succession insns (b.stop - 1) e.kind j ∧ e.target = blockIndex cfg.blocks j := by
  obtain ⟨_, nonempty, bound⟩ := built.tiles.mem present
  obtain ⟨source, target, kind⟩ := e
  obtain ⟨insn, fetched⟩ : ∃ insn, insns[b.stop - 1]? = some insn :=
    ⟨_, List.getElem?_eq_getElem (by omega)⟩
  have stop : b.stop - 1 + 1 = b.stop := by omega
  have next : ∀ k, (⟨source, target, kind⟩ : Edge) ∈
      (if b.stop < insns.length then [(⟨idx, blockIndex cfg.blocks b.stop, k⟩ : Edge)] else []) ↔
      source = idx ∧ kind = k ∧ b.stop < insns.length ∧ target = blockIndex cfg.blocks b.stop := by
    intro k
    by_cases more : b.stop < insns.length <;> simp [more, and_comm]
  cases insn with
  | jump width op dst src offset =>
    obtain ⟨j, read, jump⟩ := built.resolved.jump fetched
    have only : ∀ j', JumpsTo insns (b.stop - 1) offset j' ↔ j' = j :=
      fun j' => ⟨fun other => other.unique jump, fun same => same ▸ jump⟩
    by_cases always : op = .always
    · subst always
      simp only [blockEdges, fetched, read, Option.join_some, List.mem_singleton, Edge.mk.injEq,
        succession_always fetched, only]
      grind
    · simp only [blockEdges, fetched, read, Option.join_some, List.mem_cons, Edge.mk.injEq,
        succession_jump fetched always, only, next, stop]
      grind
  | exit => simp [blockEdges, fetched, not_succession_exit fetched]
  | _ =>
    simp only [blockEdges, fetched, next, succession_plain fetched rfl, stop]
    grind

/-- The edges are exactly the syntactic successors of the blocks' last instructions. -/
theorem edge_iff {e : Edge} :
    e ∈ cfg.edges ↔ ∃ b c, cfg.blocks[e.source]? = some b ∧ cfg.blocks[e.target]? = some c ∧
      Succession insns (b.stop - 1) e.kind c.start := by
  rw [built.edges_eq]
  simp only [List.mem_flatMap, Prod.exists, List.mem_zipIdx_iff_getElem?]
  constructor
  · rintro ⟨b, idx, at_idx, leaves⟩
    have present := List.mem_of_getElem? at_idx
    obtain ⟨rfl, j, next, lands⟩ := (built.mem_blockEdges present).mp leaves
    obtain ⟨c, found, rfl⟩ := built.successor_start present next
    exact ⟨b, c, at_idx, lands ▸ found, next⟩
  · rintro ⟨b, c, at_source, at_target, next⟩
    have present := List.mem_of_getElem? at_source
    refine ⟨b, e.source, at_source, (built.mem_blockEdges present).mpr ⟨rfl, c.start, next, ?_⟩⟩
    obtain ⟨_, nonempty, bound⟩ := built.tiles.mem (List.mem_of_getElem? at_target)
    exact ((built.tiles.blockIndex_iff (Nat.zero_le _) (by omega)).mpr
      ⟨c, at_target, Nat.le_refl _, nonempty⟩).symm

end Built

end EbpfLab.FlowGraph
