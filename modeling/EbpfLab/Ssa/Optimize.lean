import EbpfLab.Ssa.Weight

/-!
# The optimizer

Every pass keeps a program well-formed and its runs as they are. Once unreachable blocks are cut, a
pass that reports a change lowers the weight of the program, so the rounds end.
-/

namespace EbpfLab.Ssa
open Isa FlowGraph Library Interp

variable {m : Machine} {prog prog' prog'' out : SsaProgram} {consts : ConstTable}
  {u v : SsaValue} {fuel n : Nat} {rank : SsaValue → Nat}

/-- What a pass keeps. -/
structure Keeps (prog prog' : SsaProgram) : Prop where
  wellFormed : prog'.WellFormed
  runs : ∀ m world fuel, run m prog' world fuel = run m prog world fuel
  precedes : ∀ u v, prog'.Precedes u v → prog.Precedes u v
  alive : (∀ block, prog.isLive block → prog.Reaches block) →
    ∀ block, prog'.isLive block → prog'.Reaches block

theorem Keeps.refl (wf : prog.WellFormed) : Keeps prog prog :=
  ⟨wf, fun _ _ _ => rfl, fun _ _ => id, id⟩

theorem Keeps.trans (first : Keeps prog prog') (second : Keeps prog' prog'') : Keeps prog prog'' where
  wellFormed := second.wellFormed
  runs m world fuel := (second.runs m world fuel).trans (first.runs m world fuel)
  precedes u v before := first.precedes u v (second.precedes u v before)
  alive every := second.alive (first.alive every)

theorem Pass.keeps_all {same : SsaInsn → SsaInsn → Prop} {drop : SsaInsn → Prop}
    (wf : prog.WellFormed) (pass : Pass prog prog' same drop) (sound : ∀ m, Sound m prog same drop) :
    Keeps prog prog' where
  wellFormed := pass.wellFormed wf
  runs m world fuel := run_thinned wf pass (sound m) world fuel
  precedes _ _ before := pass.precedes_before before
  alive every block live := pass.reaches_iff.mp (every block (pass.dies block live))

theorem fold_keeps (wf : prog.WellFormed) (table : Table prog consts) :
    Keeps prog (folded prog consts) :=
  (fold_pass wf table).keeps_all wf fun _ => fold_sound wf

theorem copy_keeps (wf : prog.WellFormed) : Keeps prog (propagated prog) :=
  (copy_pass wf).keeps_all wf fun _ => copy_sound wf

theorem sweep_keeps (wf : prog.WellFormed) : Keeps prog (deadCodeEliminate prog).1 := by
  rcases deadCodeEliminate_cases prog with quiet | ⟨swept, _⟩
  · rw [quiet]
    exact .refl wf
  · rw [swept]
    exact (sweep_pass wf).keeps_all wf fun _ => sweep_sound wf

theorem cut_keeps (wf : prog.WellFormed) : Keeps prog (unreachableBlockEliminate prog).1 := by
  rcases unreachableBlockEliminate_cases prog with ⟨quiet, _⟩ | ⟨cut, _⟩
  · rw [quiet]
    exact .refl wf
  · rw [cut]
    exact (cut_pass wf).keeps_all wf fun _ => cut_sound wf

/-! ### The constant table -/

/-- The table still agrees with a program that defines no version anew. -/
theorem Table.of_before (table : Table prog consts)
    (before : ∀ block, ∀ i' ∈ prog'.insnsOf block, ∃ i ∈ prog.insnsOf block,
      i'.defDst = i.defDst ∧ i'.constant = i.constant) : Table prog' consts := by
  intro b' present v k held i' inside defines
  obtain ⟨block, found⟩ := List.mem_iff_getElem?.mp present
  obtain ⟨i, before, dst, value⟩ := before block i' (by rwa [SsaProgram.insnsOf_eq found])
  rw [value]
  unfold SsaProgram.insnsOf at before
  cases was : prog.blocks[block]? with
  | none =>
    rw [was] at before
    cases before
  | some b =>
    rw [was] at before
    exact table b (List.mem_of_getElem? was) v k held i before (dst ▸ defines)

theorem copy_table (table : Table prog consts) : Table (propagated prog) consts := by
  refine table.of_before fun block i' present => ?_
  rw [(mapLive_block _).1] at present
  split at present
  · obtain ⟨i, before, rfl⟩ := List.mem_map.mp present
    refine ⟨i, before, mapUses_shape.defDst, ?_⟩
    cases i <;> rfl
  · exact ⟨i', present, rfl, rfl⟩

theorem sweep_table (table : Table prog consts) : Table (deadCodeEliminate prog).1 consts := by
  rcases deadCodeEliminate_cases prog with quiet | ⟨swept, _⟩
  · rwa [quiet]
  · rw [swept]
    exact table.of_before fun block i' present =>
      ⟨i', (swept_sublist block).subset present, rfl, rfl⟩

theorem cut_table (table : Table prog consts) : Table (unreachableBlockEliminate prog).1 consts := by
  rcases unreachableBlockEliminate_cases prog with ⟨quiet, _⟩ | ⟨removed, _⟩
  · rwa [quiet]
  · rw [removed]
    refine table.of_before fun block i' present => ?_
    rw [rebuild_insnsOf, (mapLive_block _).1, (cut_block block).1] at present
    split at present
    · obtain ⟨i, before, rfl⟩ := List.mem_map.mp present
      refine ⟨i, before, pruneInputs_shape.defDst, ?_⟩
      cases i <;> rfl
    · exact ⟨i', present, rfl, rfl⟩

/-- A table of what a list of instructions defines, where nothing is defined twice. -/
theorem recordInsn_records (before : List SsaInsn) {insns : List SsaInsn}
    (distinct : (defs (before ++ insns)).Nodup)
    (records : ∀ v k, consts.resolve (.value v) = some k → ∃ i ∈ before, i.defDst = some v ∧
      i.constant = some k) :
    ∀ v k, (insns.foldl ConstTable.recordInsn consts).resolve (.value v) = some k →
      ∃ i ∈ before ++ insns, i.defDst = some v ∧ i.constant = some k := by
  induction insns generalizing before consts with
  | nil => simpa using records
  | cons insn rest ih =>
    have split : before ++ insn :: rest = (before ++ [insn]) ++ rest := by simp
    rw [split] at distinct ⊢
    rw [List.foldl_cons]
    refine ih _ distinct fun v k held => ?_
    have earlier : consts.resolve (.value v) = some k →
        ∃ i ∈ before ++ [insn], i.defDst = some v ∧ i.constant = some k := by
      intro held
      obtain ⟨i, present, agrees⟩ := records v k held
      exact ⟨i, List.mem_append_left _ present, agrees⟩
    have newer : ∀ dst c, insn.defDst = some dst → insn.constant = some c →
        (consts.record dst c).resolve (.value v) = some k →
        ∃ i ∈ before ++ [insn], i.defDst = some v ∧ i.constant = some k := by
      intro dst c defines value held
      rcases resolve_record held with ⟨rfl, rfl⟩ | ⟨_, held⟩
      · exact ⟨insn, List.mem_append_right _ (List.mem_singleton.mpr rfl), defines, value⟩
      · exact earlier held
    cases insn with
    | const dst c => exact newer dst c rfl rfl held
    | loadImm64 dst c => exact newer dst c rfl rfl held
    | _ => exact earlier held

theorem table_build (wf : prog.WellFormed) : Table prog (.build prog) := by
  intro b present v k held i inside defines
  have every : defs (prog.blocks.flatMap SsaBlock.insns) = prog.blocks.flatMap fun b => defs b.insns :=
    List.filterMap_flatMap
  have distinct : (defs (prog.blocks.flatMap SsaBlock.insns)).Nodup := by
    rw [every]
    exact wf.single
  have empty : ∀ v k, ¬ ConstTable.resolve (List.replicate prog.defSites.length none) (.value v) =
      some k := by
    intro v k held
    unfold ConstTable.resolve at held
    dsimp only at held
    rw [List.getElem?_replicate] at held
    split at held <;> cases held
  obtain ⟨j, listed, defines', value⟩ := recordInsn_records [] distinct
    (fun v k held => absurd held (empty v k)) v k held
  -- both are the one definition of the version
  obtain ⟨b', present', inside'⟩ := List.mem_flatMap.mp listed
  obtain ⟨block, found⟩ := List.mem_iff_getElem?.mp present
  obtain ⟨block', found'⟩ := List.mem_iff_getElem?.mp present'
  obtain ⟨pre, here⟩ := SsaProgram.at_of_mem
    (by rwa [SsaProgram.insnsOf_eq found])
  obtain ⟨pre', there⟩ := SsaProgram.at_of_mem
    (by rwa [SsaProgram.insnsOf_eq found'])
  obtain ⟨_, _, rfl⟩ := wf.same_place here there defines defines'
  exact value

/-! ### Rounds -/

theorem round_keeps (wf : prog.WellFormed) (table : Table prog consts) :
    Keeps prog (optimizeRound prog consts).1 ∧
      Table (optimizeRound prog consts).1 (optimizeRound prog consts).2.1 := by
  unfold optimizeRound
  dsimp only
  rw [copyPropagate_eq]
  have folds := fold_keeps wf table
  have copies := copy_keeps folds.wellFormed
  have sweeps := sweep_keeps copies.wellFormed
  have cuts := cut_keeps sweeps.wellFormed
  exact ⟨((folds.trans copies).trans sweeps).trans cuts,
    cut_table (sweep_table (copy_table (fold_table wf table)))⟩

theorem cut_alive (wf : prog.WellFormed) : ∀ block, (unreachableBlockEliminate prog).1.isLive block →
    (unreachableBlockEliminate prog).1.Reaches block := by
  rcases unreachableBlockEliminate_cases prog with ⟨quiet, seen⟩ | ⟨removed, _⟩
  · rw [quiet]
    exact fun block live => reached_reaches (seen block live)
  · rw [removed]
    intro block live
    exact (cut_pass wf).reaches_iff.mp (reached_reaches (pruned_live.mp live).2)

/-- A round ends with every live block reached. -/
theorem round_alive (wf : prog.WellFormed) (table : Table prog consts) :
    ∀ block, (optimizeRound prog consts).1.isLive block → (optimizeRound prog consts).1.Reaches block := by
  unfold optimizeRound
  dsimp only
  rw [copyPropagate_eq]
  exact cut_alive (sweep_keeps (copy_keeps (fold_keeps wf table).wellFormed).wellFormed).wellFormed

/-- Where every live block is reached, a pass that reports a change lowers the weight. -/
theorem round_weight (wf : prog.WellFormed) (table : Table prog consts)
    (alive : ∀ block, prog.isLive block → prog.Reaches block)
    (mono : ∀ u v, prog.Precedes u v → rank u < rank v) :
    blocksWeight rank (optimizeRound prog consts).1.blocks ≤ blocksWeight rank prog.blocks ∧
      ((optimizeRound prog consts).2.2 = true →
        blocksWeight rank (optimizeRound prog consts).1.blocks < blocksWeight rank prog.blocks) := by
  have folds := fold_keeps wf table
  obtain ⟨le₁, lt₁⟩ : blocksWeight rank (folded prog consts).blocks ≤ blocksWeight rank prog.blocks ∧
      ((constantFold prog consts).2.2 = true →
        blocksWeight rank (folded prog consts).blocks < blocksWeight rank prog.blocks) :=
    foldBlocks_weight consts rank
  have alive₁ := folds.alive alive
  have copies := copy_keeps folds.wellFormed
  obtain ⟨le₂, lt₂⟩ := copyPropagate_weight rank fun pair listed => by
    obtain ⟨block, pre, insn, live, here, copy⟩ := copies_of_rewrite (v := pair.1) (u := pair.2) listed
    exact mono _ _ (folds.precedes _ _ (folds.wellFormed.precedes_of_copy (alive₁ block live) here copy))
  have sweeps := sweep_keeps copies.wellFormed
  obtain ⟨le₃, lt₃⟩ := @sweep_weight (propagated (folded prog consts)) rank
  have alive₃ := sweeps.alive (copies.alive alive₁)
  obtain ⟨le₄, lt₄⟩ := cut_weight rank sweeps.wellFormed alive₃
  unfold optimizeRound
  dsimp only
  rw [copyPropagate_eq, show (constantFold prog consts).1 = folded prog consts from rfl]
  refine ⟨by omega, fun changed => ?_⟩
  rcases Bool.or_eq_true_iff.mp changed with earlier | cut
  · rcases Bool.or_eq_true_iff.mp earlier with earlier | swept
    · rcases Bool.or_eq_true_iff.mp earlier with folded | copied
      · have := lt₁ folded
        omega
      · have := lt₂ copied
        omega
    · have := lt₃ swept
      omega
  · have := lt₄ cut
    omega

/-! ### The driver -/

open Classical in
/-- How many versions precede a version. -/
noncomputable def SsaProgram.depth (prog : SsaProgram) (v : SsaValue) : Nat :=
  ((prog.blocks.flatMap fun b => defs b.insns).filter fun u => prog.Precedes u v).length

theorem depth_lt (wf : prog.WellFormed) (before : prog.Precedes u v) : prog.depth u < prog.depth v := by
  classical
  have defined : u ∈ prog.blocks.flatMap fun b => defs b.insns := by
    obtain ⟨block, pre, insn, reached, ⟨post, split⟩, _, available⟩ := before
    obtain ⟨d, _, defined⟩ := SsaProgram.Available.defined (split.symm ▸ available.later) reached
    unfold SsaProgram.insnsOf at defined
    cases found : prog.blocks[d]? with
    | none =>
      rw [found] at defined
      cases defined
    | some b =>
      rw [found] at defined
      exact List.mem_flatMap.mpr ⟨b, List.mem_of_getElem? found, defined⟩
  unfold SsaProgram.depth
  have nested : (prog.blocks.flatMap fun b => defs b.insns).filter (fun w => prog.Precedes w u) =
      ((prog.blocks.flatMap fun b => defs b.insns).filter fun w => prog.Precedes w v).filter
        fun w => prog.Precedes w u := by
    rw [List.filter_filter]
    refine List.filter_congr fun w _ => ?_
    by_cases first : prog.Precedes w u
    · simp [first, wf.precedes_trans first before]
    · simp [first]
  rw [nested]
  exact List.length_filter_lt_length_iff_exists.mpr
    ⟨u, List.mem_filter.mpr ⟨defined, by simpa using before⟩,
      by simpa using fun self => wf.precedes_irrefl self⟩

theorem optimizeFrom_succ : optimizeFrom (fuel + 1) prog consts =
    if (optimizeRound prog consts).2.2 then
      optimizeFrom fuel (optimizeRound prog consts).1 (optimizeRound prog consts).2.1
    else some (optimizeRound prog consts).1 := by
  rw [optimizeFrom]

/-- Where every live block is reached, there are at most as many rounds as the weight. -/
theorem optimizeFrom_ends (wf : prog.WellFormed) (table : Table prog consts)
    (alive : ∀ block, prog.isLive block → prog.Reaches block)
    (mono : ∀ u v, prog.Precedes u v → rank u < rank v)
    (enough : blocksWeight rank prog.blocks < fuel) : ∃ out, optimizeFrom fuel prog consts = some out := by
  induction fuel generalizing prog consts with
  | zero => cases enough
  | succ fuel ih =>
    rw [optimizeFrom_succ]
    split
    · rename_i changed
      have lower := (round_weight wf table alive mono).2 changed
      obtain ⟨keeps, table'⟩ := round_keeps wf table
      exact ih keeps.wellFormed table' (keeps.alive alive)
        (fun u v before => mono u v (keeps.precedes u v before)) (by omega)
    · exact ⟨_, rfl⟩

theorem optimizeFrom_keeps (wf : prog.WellFormed) (table : Table prog consts)
    (ends : optimizeFrom fuel prog consts = some out) : Keeps prog out := by
  induction fuel generalizing prog consts with
  | zero => cases ends
  | succ fuel ih =>
    obtain ⟨keeps, table'⟩ := round_keeps wf table
    rw [optimizeFrom_succ] at ends
    split at ends
    · exact keeps.trans (ih keeps.wellFormed table' ends)
    · cases ends
      exact keeps

theorem optimizeFrom_more (ends : optimizeFrom fuel prog consts = some out) (le : fuel ≤ n) :
    optimizeFrom n prog consts = some out := by
  induction fuel generalizing prog consts n with
  | zero => cases ends
  | succ fuel ih =>
    obtain ⟨n, rfl⟩ : ∃ k, n = k + 1 := ⟨n - 1, by omega⟩
    rw [optimizeFrom_succ] at ends ⊢
    split at ends
    · rename_i changed
      rw [if_pos changed]
      exact ih ends (by omega)
    · rename_i quiet
      rwa [if_neg quiet]

theorem optimize_ends (wf : prog.WellFormed) :
    ∃ n out, (∀ fuel, n ≤ fuel → optimize fuel prog = some out) ∧ Keeps prog out := by
  have table := table_build wf
  obtain ⟨keeps, table'⟩ := round_keeps wf table
  obtain ⟨out, ends⟩ := optimizeFrom_ends keeps.wellFormed table' (round_alive wf table)
    (fun u v => depth_lt keeps.wellFormed) (Nat.lt_succ_self _)
  have first : ∃ n out, optimizeFrom n prog (.build prog) = some out := by
    by_cases changed : (optimizeRound prog (.build prog)).2.2 = true
    · exact ⟨_ + 1, out, by rw [optimizeFrom_succ, if_pos changed]; exact ends⟩
    · exact ⟨1, _, by rw [optimizeFrom_succ, if_neg changed]⟩
  obtain ⟨n, out, ends⟩ := first
  exact ⟨n, out, fun fuel le => optimizeFrom_more ends le, optimizeFrom_keeps wf table ends⟩

/-- The programs that passes make of a program, in any order. -/
inductive Meets (prog : SsaProgram) : SsaProgram → ConstTable → Prop
  | start : Meets prog prog (.build prog)
  | fold {prog' : SsaProgram} {consts : ConstTable} (before : Meets prog prog' consts) :
    Meets prog (constantFold prog' consts).1 (constantFold prog' consts).2.1
  | copy {prog' : SsaProgram} {consts : ConstTable} (before : Meets prog prog' consts) :
    Meets prog (copyPropagate prog').1 consts
  | sweep {prog' : SsaProgram} {consts : ConstTable} (before : Meets prog prog' consts) :
    Meets prog (deadCodeEliminate prog').1 consts
  | cut {prog' : SsaProgram} {consts : ConstTable} (before : Meets prog prog' consts) :
    Meets prog (unreachableBlockEliminate prog').1 consts

theorem Meets.keeps_all (meets : Meets prog prog' consts) (wf : prog.WellFormed) :
    Keeps prog prog' ∧ Table prog' consts := by
  induction meets with
  | start => exact ⟨.refl wf, table_build wf⟩
  | fold _ ih =>
    obtain ⟨keeps, table⟩ := ih
    exact ⟨keeps.trans (fold_keeps keeps.wellFormed table), fold_table keeps.wellFormed table⟩
  | copy _ ih =>
    obtain ⟨keeps, table⟩ := ih
    rw [copyPropagate_eq]
    exact ⟨keeps.trans (copy_keeps keeps.wellFormed), copy_table table⟩
  | sweep _ ih =>
    obtain ⟨keeps, table⟩ := ih
    exact ⟨keeps.trans (sweep_keeps keeps.wellFormed), sweep_table table⟩
  | cut _ ih =>
    obtain ⟨keeps, table⟩ := ih
    exact ⟨keeps.trans (cut_keeps keeps.wellFormed), cut_table table⟩

/-! ### A program that counts to ten -/

/-- A loop on the entry block, then a block that returns the count. -/
def counting : SsaProgram where
  blocks := [
    ⟨[.const 0 0, .phi 1 [(none, 0), (some 0, 2)], .binOp 2 .b64 .add (.value 1) (.imm 1),
      .br .b64 .lt (.value 2) (.imm 10) (some 0) (some 1)], true⟩,
    ⟨[.exit 2], true⟩]
  edges := [⟨0, 0, .branchTrue⟩, ⟨0, 1, .branchFalse⟩]
  entry := 0
  defSites := [some (0, 0), some (0, 1), some (0, 2)]

section

variable {block : Nat} {pre : List SsaInsn} {insn : SsaInsn}

theorem counting_at (here : counting.At block pre insn) :
    (block, pre, insn) ∈ ((counting.insnsOf 0).zipIdx.map fun (i, n) =>
      (0, (counting.insnsOf 0).take n, i)) ++ [(1, [], SsaInsn.exit 2)] := by
  obtain ⟨post, split⟩ := here
  match block with
  | 0 =>
    have found : (counting.insnsOf 0)[pre.length]? = some insn := by rw [split]; simp
    have front : pre = (counting.insnsOf 0).take pre.length := by rw [split]; simp
    refine List.mem_append_left _ (List.mem_map.mpr
      ⟨(insn, pre.length), List.mem_zipIdx_iff_getElem?.mpr found, ?_⟩)
    dsimp only
    rw [← front]
  | 1 =>
    cases pre with
    | nil =>
      cases split
      exact List.mem_append_right _ (List.mem_singleton.mpr rfl)
    | cons _ pre => cases pre <;> cases split
  | n + 2 => cases pre <;> cases split

theorem counting_cases (here : counting.At block pre insn) :
    (block = 0 ∧ pre = [] ∧ insn = .const 0 0) ∨
    (block = 0 ∧ pre = [.const 0 0] ∧ insn = .phi 1 [(none, 0), (some 0, 2)]) ∨
    (block = 0 ∧ pre = [.const 0 0, .phi 1 [(none, 0), (some 0, 2)]] ∧
      insn = .binOp 2 .b64 .add (.value 1) (.imm 1)) ∨
    (block = 0 ∧ defs pre = [0, 1, 2] ∧
      insn = .br .b64 .lt (.value 2) (.imm 10) (some 0) (some 1)) ∨
    (block = 1 ∧ pre = [] ∧ insn = .exit 2) := by
  have listed := counting_at here
  simp only [counting, SsaProgram.insnsOf, List.getElem?_cons_zero, Option.map_some, Option.getD_some,
    List.zipIdx_cons, List.zipIdx_nil, List.map_cons, List.map_nil, List.take_zero, List.take_succ_cons,
    List.cons_append, List.nil_append, List.mem_cons, Prod.mk.injEq, List.not_mem_nil, or_false] at listed
  rcases listed with h | h | h | ⟨rfl, rfl, rfl⟩ | h
  · exact Or.inl h
  · exact Or.inr (Or.inl h)
  · exact Or.inr (Or.inr (Or.inl h))
  · exact Or.inr (Or.inr (Or.inr (Or.inl ⟨rfl, rfl, rfl⟩)))
  · exact Or.inr (Or.inr (Or.inr (Or.inr h)))

theorem counting_flows {a b : Nat} (flows : counting.Flows a b) : b ≤ 1 := by
  obtain ⟨e, present, _, rfl, _⟩ := mem_liveSuccessors.mp flows
  simp only [counting, List.mem_cons, List.not_mem_nil, or_false] at present
  rcases present with rfl | rfl
  · exact Nat.zero_le 1
  · exact Nat.le_refl 1

theorem counting_reaches (reached : counting.Reaches block) : block = 0 ∨ block = 1 := by
  cases reached with
  | root => exact Or.inl rfl
  | step _ flows =>
    have := counting_flows flows
    omega

theorem counting_wellFormed : counting.WellFormed where
  inside := by decide
  live block reached := by
    rcases counting_reaches reached with rfl | rfl <;> rfl
  single := by decide
  recorded block pre insn v live here defines := by
    rcases counting_cases here with ⟨rfl, rfl, rfl⟩ | ⟨rfl, rfl, rfl⟩ | ⟨rfl, rfl, rfl⟩ |
      ⟨rfl, _, rfl⟩ | ⟨rfl, rfl, rfl⟩ <;> cases defines <;> rfl
  leads block reached := by
    rcases counting_reaches reached with rfl | rfl
    · exact ⟨[.const 0 0], [.phi 1 [(none, 0), (some 0, 2)]],
        [.binOp 2 .b64 .add (.value 1) (.imm 1),
          .br .b64 .lt (.value 2) (.imm 10) (some 0) (some 1)], rfl, by decide, fun _ => rfl, by decide,
        by decide⟩
    · exact ⟨[], [], [.exit 2], rfl, by decide, nofun, by decide, by decide⟩
  closed block pre insn post reached split control := by
    rcases counting_cases ⟨post, split⟩ with ⟨rfl, rfl, rfl⟩ | ⟨rfl, rfl, rfl⟩ | ⟨rfl, rfl, rfl⟩ |
      ⟨rfl, three, rfl⟩ | ⟨rfl, rfl, rfl⟩
    · cases control
    · cases control
    · cases control
    · have length := congrArg List.length split
      have long : (defs pre).length ≤ pre.length := List.length_filterMap_le _ _
      rw [three] at long
      simp only [counting, SsaProgram.insnsOf, List.getElem?_cons_zero, Option.map_some,
        Option.getD_some, List.length_append, List.length_cons, List.length_nil] at length long
      exact List.eq_nil_of_length_eq_zero (by omega)
    · exact (List.cons.inj split).2.symm
  targets block pre insn reached here := by
    rcases counting_cases here with ⟨rfl, rfl, rfl⟩ | ⟨rfl, rfl, rfl⟩ | ⟨rfl, rfl, rfl⟩ |
      ⟨rfl, _, rfl⟩ | ⟨rfl, rfl, rfl⟩ <;> decide
  uses block pre insn reached here plain v use := by
    rcases counting_cases here with ⟨rfl, rfl, rfl⟩ | ⟨rfl, rfl, rfl⟩ | ⟨rfl, rfl, rfl⟩ |
      ⟨rfl, three, rfl⟩ | ⟨rfl, rfl, rfl⟩
    · cases use
    · cases plain
    · obtain rfl := List.mem_singleton.mp use
      exact Or.inl (by decide)
    · obtain rfl := List.mem_singleton.mp use
      exact Or.inl (by rw [three]; decide)
    · obtain rfl := List.mem_singleton.mp use
      exact Or.inr ⟨0, SsaProgram.entry_dominates (by decide), by decide⟩
  inputs block pre dst inputs reached here := by
    rcases counting_cases here with ⟨_, _, other⟩ | ⟨rfl, _, same⟩ | ⟨_, _, other⟩ | ⟨_, _, other⟩ |
      ⟨_, _, other⟩
    · cases other
    · cases same
      exact List.Perm.swap _ _ _
    · cases other
    · cases other
    · cases other
  inputUses block pre dst inputs reached here p v listed before := by
    rcases counting_cases here with ⟨_, _, other⟩ | ⟨rfl, _, same⟩ | ⟨_, _, other⟩ | ⟨_, _, other⟩ |
      ⟨_, _, other⟩
    · cases other
    · cases same
      simp only [List.mem_cons, Prod.mk.injEq, reduceCtorEq, false_and, Option.some.injEq,
        List.not_mem_nil, or_false, false_or] at listed
      obtain ⟨rfl, rfl⟩ := listed
      exact Or.inl (by decide)
    · cases other
    · cases other
    · cases other
  startUses block pre dst inputs reached here v listed := by
    rcases counting_cases here with ⟨_, _, other⟩ | ⟨rfl, rfl, same⟩ | ⟨_, _, other⟩ | ⟨_, _, other⟩ |
      ⟨_, _, other⟩
    · cases other
    · cases same
      simp only [List.mem_cons, Prod.mk.injEq, reduceCtorEq, false_and, true_and, List.not_mem_nil,
        or_false] at listed
      exact ⟨_, List.mem_singleton.mpr rfl, rfl, congrArg some listed.symm⟩
    · cases other
    · cases other
    · cases other

end

/-! ### Main results -/

/-- The rounds of the optimizer end, and so do the worklists of its passes. -/
theorem optimize_terminates (wf : prog.WellFormed) :
    (∃ n out, ∀ fuel, n ≤ fuel → optimize fuel prog = some out) ∧
      ∀ prog' consts, Meets prog prog' consts →
        leftFrom (usedSites prog') prog'.size (roots prog').reverse (roots prog') = [] ∧
          leftFrom prog'.liveSuccessors prog'.blocks.length [prog'.entry] [prog'.entry] = [] := by
  obtain ⟨n, out, ends, _⟩ := optimize_ends wf
  refine ⟨⟨n, out, ends⟩, fun prog' consts meets => ⟨?_, ?_⟩⟩
  · exact leftFrom_empty roots_pending usedSites_inside
  · have wf' := (meets.keeps_all wf).1.wellFormed
    exact leftFrom_empty (entry_pending wf'.entry_inside) (liveSuccessors_inside wf'.inside)

theorem optimize_terminates_counting :
    (∃ n out, ∀ fuel, n ≤ fuel → optimize fuel counting = some out) ∧
      ∀ prog' consts, Meets counting prog' consts →
        leftFrom (usedSites prog') prog'.size (roots prog').reverse (roots prog') = [] ∧
          leftFrom prog'.liveSuccessors prog'.blocks.length [prog'.entry] [prog'.entry] = [] :=
  optimize_terminates counting_wellFormed

/-- Optimizing a well-formed program ends in a well-formed program with the same runs. -/
theorem optimize_preserves (wf : prog.WellFormed) :
    ∃ n out, (∀ fuel, n ≤ fuel → optimize fuel prog = some out) ∧ out.WellFormed ∧
      ∀ m world fuel, run m out world fuel = run m prog world fuel := by
  obtain ⟨n, out, ends, keeps⟩ := optimize_ends wf
  exact ⟨n, out, ends, keeps.wellFormed, keeps.runs⟩

theorem optimize_preserves_counting :
    ∃ n out, (∀ fuel, n ≤ fuel → optimize fuel counting = some out) ∧ out.WellFormed ∧
      ∀ m world fuel, run m out world fuel = run m counting world fuel :=
  optimize_preserves counting_wellFormed

end EbpfLab.Ssa
