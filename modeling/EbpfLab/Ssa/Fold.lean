import EbpfLab.Ssa.PassRun

/-!
# Constant folding

Folding replaces an operation by the constant it computes. The table it looks constants up in agrees
with the definitions of the program before and after.
-/

namespace EbpfLab.Ssa
open Isa FlowGraph Library Interp

/-- An instruction and what folding makes of it. -/
def Folded (settled : SsaValue → Int64 → Prop) (i i' : SsaInsn) : Prop :=
  i' = i ∨ ∃ v c width op lhs rhs, i = .binOp v width op lhs rhs ∧ i' = .const v c ∧ settled v c

/-- The table agrees with the definitions of some instructions. -/
def Records (consts : ConstTable) (insns : List SsaInsn) : Prop :=
  ∀ v k, consts.resolve (.value v) = some k → ∀ i ∈ insns, i.defDst = some v → i.constant = some k

/-- The table agrees with the versions that reached blocks define. -/
def TableGood (prog : SsaProgram) (consts : ConstTable) : Prop :=
  ∀ v k, consts.resolve (.value v) = some k → ∀ d, prog.Reaches d → v ∈ defs (prog.insnsOf d) →
    prog.Settled v k

variable {m : Machine} {prog : SsaProgram} {consts : ConstTable} {insn i i' : SsaInsn}
  {insns pre rest : List SsaInsn} {blocks done : List SsaBlock} {v u : SsaValue} {c k : Int64}
  {block : Nat} {env : Env} {world : World} {b : SsaBlock}

/-! ### The table -/

theorem resolve_record (held : (consts.record u c).resolve (.value v) = some k) :
    v = u ∧ k = c ∨ v ≠ u ∧ consts.resolve (.value v) = some k := by
  change (List.set consts u (some c))[v]?.join = some k at held
  change _ ∨ v ≠ u ∧ consts[v]?.join = some k
  rw [List.getElem?_set] at held
  split at held
  · rename_i same
    split at held
    · exact Or.inl ⟨same.symm, (Option.some.inj held).symm⟩
    · cases held
  · rename_i other
    exact Or.inr ⟨Ne.symm other, held⟩

theorem foldValue_binOp (folds : foldValue consts insn = some (v, c)) :
    ∃ width op lhs rhs, insn = .binOp v width op lhs rhs := by
  have dst := foldValue_dst folds
  cases insn with
  | binOp dst width op lhs rhs =>
    cases dst
    exact ⟨width, op, lhs, rhs, rfl⟩
  | _ => cases folds

theorem foldInsns_some (folds : foldValue consts insn = some (v, c)) :
    foldInsns consts (insn :: rest) =
      (.const v c :: (foldInsns (consts.record v c) rest).1, (foldInsns (consts.record v c) rest).2.1,
        true) := by
  rw [foldInsns, folds]

theorem foldInsns_none (folds : foldValue consts insn = none) :
    foldInsns consts (insn :: rest) =
      (insn :: (foldInsns consts rest).1, (foldInsns consts rest).2.1, (foldInsns consts rest).2.2) := by
  rw [foldInsns, folds]

/-- Folding a list keeps the definitions and the shape of its instructions. -/
theorem foldInsns_folded : List.Forall₂ (Folded fun _ _ => True) insns (foldInsns consts insns).1 := by
  induction insns generalizing consts with
  | nil => exact .nil
  | cons i rest ih =>
    cases folds : foldValue consts i with
    | none =>
      rw [foldInsns_none folds]
      exact .cons (Or.inl rfl) ih
    | some folded =>
      obtain ⟨v, c⟩ := folded
      obtain ⟨width, op, lhs, rhs, rfl⟩ := foldValue_binOp folds
      rw [foldInsns_some folds]
      exact .cons (Or.inr ⟨v, c, width, op, lhs, rhs, rfl, rfl, trivial⟩) ih

theorem folded_defs {settled : SsaValue → Int64 → Prop} (folded : Folded settled i i') :
    i'.defDst = i.defDst := by
  rcases folded with rfl | ⟨v, c, width, op, lhs, rhs, rfl, rfl, _⟩ <;> rfl

theorem folded_map {settled : SsaValue → Int64 → Prop} {insns' : List SsaInsn}
    (each : List.Forall₂ (Folded settled) insns insns') :
    insns'.map SsaInsn.defDst = insns.map SsaInsn.defDst := by
  induction each with
  | nil => rfl
  | cons alike _ ih => rw [List.map_cons, List.map_cons, folded_defs alike, ih]

/-- After a list is folded the table agrees with it, and is as before on other versions. -/
theorem foldInsns_records (distinct : (defs insns).Nodup) (records : Records consts insns) :
    Records (foldInsns consts insns).2.1 (foldInsns consts insns).1 ∧
      ∀ v k, v ∉ defs insns → (foldInsns consts insns).2.1.resolve (.value v) = some k →
        consts.resolve (.value v) = some k := by
  induction insns generalizing consts with
  | nil => exact ⟨nofun, fun _ _ _ => id⟩
  | cons i rest ih =>
    have tail : (defs rest).Nodup := by
      have split : defs (i :: rest) = defs [i] ++ defs rest := defs_append [i] rest
      rw [split] at distinct
      exact distinct.of_append_right
    have apart : ∀ {v}, i.defDst = some v → v ∉ defs rest := by
      intro v defines later
      have split : defs (i :: rest) = defs [i] ++ defs rest := defs_append [i] rest
      rw [split] at distinct
      exact List.disjoint_of_nodup_append distinct
        (mem_defs.mpr ⟨i, List.mem_singleton.mpr rfl, defines⟩) later
    have away : ∀ {v}, v ∉ defs (i :: rest) → i.defDst ≠ some v ∧ v ∉ defs rest := by
      intro v absent
      constructor
      · intro defines
        exact absent (mem_defs.mpr ⟨i, List.mem_cons_self, defines⟩)
      · intro later
        obtain ⟨j, present, defines⟩ := mem_defs.mp later
        exact absent (mem_defs.mpr ⟨j, List.mem_cons_of_mem _ present, defines⟩)
    cases folds : foldValue consts i with
    | none =>
      obtain ⟨agrees, before⟩ := ih tail fun v k held j later =>
        records v k held j (List.mem_cons_of_mem _ later)
      rw [foldInsns_none folds]
      refine ⟨fun v k held j present defines => ?_, fun v k absent => before v k (away absent).2⟩
      rcases List.mem_cons.mp present with rfl | later
      · exact records v k (before v k (apart defines) held) j List.mem_cons_self defines
      · exact agrees v k held j later defines
    | some folded =>
      obtain ⟨w, c⟩ := folded
      have dst := foldValue_dst folds
      obtain ⟨agrees, before⟩ := ih tail fun v k held j later defines => by
        rcases resolve_record held with ⟨rfl, _⟩ | ⟨_, held⟩
        · exact absurd (mem_defs.mpr ⟨j, later, defines⟩) (apart dst)
        · exact records v k held j (List.mem_cons_of_mem _ later) defines
      rw [foldInsns_some folds]
      refine ⟨fun v k held j present defines => ?_, fun v k absent held => ?_⟩
      · rcases List.mem_cons.mp present with rfl | later
        · cases defines
          rcases resolve_record (before w k (apart dst) held) with ⟨_, rfl⟩ | ⟨other, _⟩
          · rfl
          · exact absurd rfl other
        · exact agrees v k held j later defines
      · obtain ⟨other, later⟩ := away absent
        rcases resolve_record (before v k later held) with ⟨rfl, _⟩ | ⟨_, held⟩
        · exact absurd dst other
        · exact held

/-! ### Reached blocks -/

theorem Folded.weaken {settled : SsaValue → Int64 → Prop} (folded : Folded settled i i') :
    Folded (fun _ _ => True) i i' := by
  rcases folded with same | ⟨v, c, width, op, lhs, rhs, before, after, _⟩
  · exact Or.inl same
  · exact Or.inr ⟨v, c, width, op, lhs, rhs, before, after, trivial⟩

/-- In a reached block folding replaces operations by the constants they are settled to. -/
theorem foldInsns_settled (wf : prog.WellFormed) (reached : prog.Reaches block)
    (split : prog.insnsOf block = pre ++ insns) (plain : TableGood prog consts) :
    List.Forall₂ (Folded prog.Settled) insns (foldInsns consts insns).1 ∧
      TableGood prog (foldInsns consts insns).2.1 := by
  induction insns generalizing consts pre with
  | nil => exact ⟨.nil, plain⟩
  | cons i rest ih =>
    have next : prog.insnsOf block = (pre ++ [i]) ++ rest := by rw [split]; simp
    cases folds : foldValue consts i with
    | none =>
      obtain ⟨folded, good⟩ := ih next plain
      rw [foldInsns_none folds]
      exact ⟨.cons (Or.inl rfl) folded, good⟩
    | some folded =>
      obtain ⟨v, c⟩ := folded
      obtain ⟨width, op, lhs, rhs, rfl⟩ := foldValue_binOp folds
      have here : prog.At block pre (.binOp v width op lhs rhs) := ⟨rest, split⟩
      have settled : prog.Settled v c := by
        refine .folded here (fun u use k held => ?_) folds
        have available := wf.uses _ _ _ reached here rfl u use
        obtain ⟨d, reached', defined⟩ := SsaProgram.Available.defined
          (split.symm ▸ available.later) reached
        exact plain u k held d reached' defined
      obtain ⟨folded, good⟩ := ih next fun w k held d reached' defined => by
        rcases resolve_record held with ⟨rfl, rfl⟩ | ⟨_, held⟩
        · exact settled
        · exact plain w k held d reached' defined
      rw [foldInsns_some folds]
      exact ⟨.cons (Or.inr ⟨v, c, width, op, lhs, rhs, rfl, rfl, settled⟩) folded, good⟩

/-- In a block that is not reached folding records no version of a reached one. -/
theorem foldInsns_unreached (wf : prog.WellFormed) (unreached : ¬ prog.Reaches block)
    (split : prog.insnsOf block = pre ++ insns) (plain : TableGood prog consts) :
    TableGood prog (foldInsns consts insns).2.1 := by
  induction insns generalizing consts pre with
  | nil => exact plain
  | cons i rest ih =>
    have next : prog.insnsOf block = (pre ++ [i]) ++ rest := by rw [split]; simp
    cases folds : foldValue consts i with
    | none =>
      rw [foldInsns_none folds]
      exact ih next plain
    | some folded =>
      obtain ⟨v, c⟩ := folded
      have here : prog.At block pre i := ⟨rest, split⟩
      rw [foldInsns_some folds]
      refine ih next fun w k held d reached defined => ?_
      rcases resolve_record held with ⟨rfl, _⟩ | ⟨_, held⟩
      · exact absurd (wf.same_block (here.dst_mem (foldValue_dst folds)) defined ▸ reached) unreached
      · exact plain w k held d reached defined

theorem foldBlocks_cons : foldBlocks consts (b :: blocks) =
    let here := if b.live then foldInsns consts b.insns else (b.insns, consts, false)
    ({ b with insns := here.1 } :: (foldBlocks here.2.1 blocks).1, (foldBlocks here.2.1 blocks).2.1,
      here.2.2 || (foldBlocks here.2.1 blocks).2.2) := by
  rw [foldBlocks]

/-- What folding makes of each block. -/
theorem foldBlocks_spec (done : List SsaBlock) (wf : prog.WellFormed) (split : prog.blocks = done ++ blocks)
    (good : TableGood prog consts) :
    (foldBlocks consts blocks).1.length = blocks.length ∧
      ∀ (j : Nat) b, blocks[j]? = some b → ∃ b', (foldBlocks consts blocks).1[j]? = some b' ∧
        b'.live = b.live ∧ List.Forall₂ (Folded fun _ _ => True) b.insns b'.insns ∧
        (prog.Reaches (done.length + j) → List.Forall₂ (Folded prog.Settled) b.insns b'.insns) := by
  induction blocks generalizing done consts with
  | nil => exact ⟨rfl, nofun⟩
  | cons b blocks ih =>
    have present : prog.blocks[done.length]? = some b := by rw [split]; simp
    have whole : prog.insnsOf done.length = [] ++ b.insns := SsaProgram.insnsOf_eq present
    have same : List.Forall₂ (Folded prog.Settled) b.insns b.insns :=
      List.forall₂_same.mpr fun _ _ => Or.inl rfl
    -- what the block becomes, and the table behind it
    have step : ∀ here, here = (if b.live then foldInsns consts b.insns else (b.insns, consts, false)) →
        List.Forall₂ (Folded fun _ _ => True) b.insns here.1 ∧ TableGood prog here.2.1 ∧
          (prog.Reaches done.length → List.Forall₂ (Folded prog.Settled) b.insns here.1) := by
      rintro here rfl
      by_cases live : b.live
      · rw [if_pos live]
        refine ⟨foldInsns_folded, ?_, fun reached => (foldInsns_settled wf reached whole good).1⟩
        by_cases reached : prog.Reaches done.length
        · exact (foldInsns_settled wf reached whole good).2
        · exact foldInsns_unreached wf reached whole good
      · rw [if_neg live]
        exact ⟨same.imp fun _ _ => Folded.weaken, good, fun _ => same⟩
    rw [foldBlocks_cons]
    generalize made : (if b.live then foldInsns consts b.insns else (b.insns, consts, false)) = here
    obtain ⟨weak, good', strong⟩ := step here made.symm
    obtain ⟨long, each⟩ := ih (done ++ [b]) (by rw [split]; simp) good'
    refine ⟨by simp [long], fun j b₀ found => ?_⟩
    cases j with
    | zero =>
      cases found
      exact ⟨_, rfl, rfl, weak, strong⟩
    | succ j =>
      obtain ⟨b', found', live, weak, strong⟩ := each j b₀ found
      refine ⟨b', found', live, weak, fun reached => strong ?_⟩
      rwa [List.length_append, List.length_singleton, Nat.add_assoc, Nat.add_comm 1 j]

/-! ### The pass -/

/-- The table agrees with the whole program. -/
def Table (prog : SsaProgram) (consts : ConstTable) : Prop :=
  ∀ b ∈ prog.blocks, Records consts b.insns

theorem Table.good (table : Table prog consts) : TableGood prog consts := by
  intro v k held d _ defined
  obtain ⟨i, present, defines⟩ := mem_defs.mp defined
  obtain ⟨pre, here⟩ := SsaProgram.at_of_mem present
  unfold SsaProgram.insnsOf at present
  cases found : prog.blocks[d]? with
  | none =>
    rw [found] at present
    cases present
  | some b =>
    rw [found] at present
    exact .constant here defines (table b (List.mem_of_getElem? found) v k held i present defines)

/-- The program folding makes. -/
abbrev folded (prog : SsaProgram) (consts : ConstTable) : SsaProgram := (constantFold prog consts).1

theorem folded_block (wf : prog.WellFormed) (table : Table prog consts)
    (found : prog.blocks[block]? = some b) : ∃ b', (folded prog consts).blocks[block]? = some b' ∧
      b'.live = b.live ∧ List.Forall₂ (Folded fun _ _ => True) b.insns b'.insns ∧
      (prog.Reaches block → List.Forall₂ (Folded prog.Settled) b.insns b'.insns) := by
  have spec := (foldBlocks_spec [] wf rfl table.good).2 block b found
  rwa [List.length_nil, Nat.zero_add] at spec

theorem folded_length (wf : prog.WellFormed) (table : Table prog consts) :
    (folded prog consts).blocks.length = prog.blocks.length :=
  (foldBlocks_spec [] wf rfl table.good).1

theorem folded_insnsOf (wf : prog.WellFormed) (table : Table prog consts) (block : Nat) :
    List.Forall₂ (Folded fun _ _ => True) (prog.insnsOf block) ((folded prog consts).insnsOf block) ∧
      (folded prog consts).isLive block = prog.isLive block ∧
      (prog.Reaches block →
        List.Forall₂ (Folded prog.Settled) (prog.insnsOf block) ((folded prog consts).insnsOf block)) := by
  unfold SsaProgram.insnsOf SsaProgram.isLive
  cases found : prog.blocks[block]? with
  | none =>
    have absent : (folded prog consts).blocks[block]? = none := by
      rw [List.getElem?_eq_none_iff] at found ⊢
      rwa [folded_length wf table]
    rw [absent]
    exact ⟨.nil, rfl, fun _ => .nil⟩
  | some b =>
    obtain ⟨b', found', live, weak, strong⟩ := folded_block wf table found
    rw [found']
    exact ⟨weak, live, strong⟩

theorem folded_dsts (wf : prog.WellFormed) (table : Table prog consts) (block : Nat) :
    ((folded prog consts).insnsOf block).map SsaInsn.defDst =
      (prog.insnsOf block).map SsaInsn.defDst :=
  folded_map (folded_insnsOf wf table block).1

theorem folded_shape {settled : SsaValue → Int64 → Prop} (alike : Folded settled i i') :
    SameShape i i' := by
  rcases alike with rfl | ⟨v, c, width, op, lhs, rhs, rfl, rfl, _⟩
  · exact ⟨rfl, rfl, rfl, fun _ => rfl, rfl, id⟩
  · exact ⟨rfl, rfl, rfl, fun _ => rfl, rfl, nofun⟩

theorem fold_pass (wf : prog.WellFormed) (table : Table prog consts) :
    Pass prog (folded prog consts) (Folded prog.Settled) fun _ => False where
  length := folded_length wf table
  edges := rfl
  entry := rfl
  lives block reached := (folded_insnsOf wf table block).2.1.trans (wf.live block reached)
  dies block live := (folded_insnsOf wf table block).2.1.symm.trans live
  fewer block := by
    rw [defs_of_same (folded_dsts wf table block)]
  recorded block pre insn v live here defines :=
    recorded_of_same wf rfl (folded_dsts wf table)
      ((folded_insnsOf wf table block).2.1.symm.trans live) here defines
  thinned block reached := .of_forall₂ ((folded_insnsOf wf table block).2.2 reached)
  shape _ _ alike := folded_shape alike
  plain _ := nofun
  unkept _ _ := nofun
  uses block pre i i' reached here alike plain v use := by
    rcases alike with rfl | ⟨w, c, width, op, lhs, rhs, rfl, rfl, _⟩
    · have available := wf.uses block pre _ reached here plain v use
      obtain ⟨post, split⟩ := here
      obtain ⟨d, _, defined⟩ := SsaProgram.Available.defined (split.symm ▸ available.later) reached
      exact ⟨available, kept_of_same (folded_dsts wf table) ⟨d, defined⟩⟩
    · cases use
  phis block pre dst inputs i' reached here alike := by
    rcases alike with rfl | ⟨w, c, width, op, lhs, rhs, other, _⟩
    · refine ⟨inputs, rfl, filter_predLive fun block => (folded_insnsOf wf table block).2.1,
        fun p v listed before => ?_, fun v listed => ?_⟩
      · have available := wf.inputUses block pre dst inputs reached here p v listed before
        obtain ⟨d, _, defined⟩ := available.defined before
        exact ⟨available, kept_of_same (folded_dsts wf table) ⟨d, defined⟩⟩
      · obtain ⟨i, earlier, value, defines⟩ := wf.startUses block pre dst inputs reached here v listed
        obtain ⟨post, split⟩ := here
        refine ⟨⟨i, earlier, value, defines⟩, kept_of_same (folded_dsts wf table)
          ⟨block, mem_defs.mpr ⟨i, ?_, defines⟩⟩⟩
        rw [split]
        exact List.mem_append_left _ earlier
    · cases other

/-- An operation that is settled to a constant computes it. -/
theorem exec_settled {width : Width} {op : AluOp} {lhs rhs : SsaOperand} (wf : prog.WellFormed)
    (reached : prog.Reaches block) (here : prog.At block pre (.binOp v width op lhs rhs))
    (knows : Knows m prog block pre env) (settled : prog.Settled v c) :
    execInsn m (.binOp v width op lhs rhs) env world = .next (env.set v c) := by
  have known : ∀ u ∈ (SsaInsn.binOp v width op lhs rhs).uses, Known m prog env u := fun u use =>
    knows u (wf.uses _ _ _ reached here rfl u use)
  have left : ∀ u ∈ lhs.uses, Known m prog env u := fun u use => known u (List.mem_append_left _ use)
  have right : ∀ u ∈ rhs.uses, Known m prog env u := fun u use => known u (List.mem_append_right _ use)
  obtain ⟨l, readL⟩ := operand_assigned left
  obtain ⟨r, readR⟩ := operand_assigned right
  rcases wf.settled_cases here rfl settled with value | ⟨consts, sound, folds⟩
  · cases value
  · obtain ⟨_, valid, computed⟩ := foldValue_eq folds
      (operand_settled left (fun u use => sound u (List.mem_append_left _ use)) readL)
      (operand_settled right (fun u use => sound u (List.mem_append_right _ use)) readR)
    simp only [execInsn, reading, readL, readR, valid, computed]
    rfl

theorem fold_sound (wf : prog.WellFormed) : Sound m prog (Folded prog.Settled) fun _ => False where
  exec block pre i i' env world reached here alike plain knows := by
    rcases alike with rfl | ⟨v, c, width, op, lhs, rhs, rfl, rfl, settled⟩
    · rfl
    · rw [exec_settled wf reached here knows settled]
      rfl
  phi block pre dst inputs inputs' pred env here alike arrives := by
    rcases alike with same | ⟨v, c, width, op, lhs, rhs, other, _⟩
    · cases same
      rfl
    · cases other
  drop _ _ _ _ _ _ _ gone := gone.elim

/-! ### The table behind the pass -/

theorem foldBlocks_records (distinct : (blocks.flatMap fun b => defs b.insns).Nodup)
    (records : ∀ b ∈ blocks, Records consts b.insns) :
    (∀ b ∈ (foldBlocks consts blocks).1, Records (foldBlocks consts blocks).2.1 b.insns) ∧
      ∀ v k, (∀ b ∈ blocks, v ∉ defs b.insns) →
        (foldBlocks consts blocks).2.1.resolve (.value v) = some k →
          consts.resolve (.value v) = some k := by
  induction blocks generalizing consts with
  | nil => exact ⟨nofun, fun _ _ _ => id⟩
  | cons b blocks ih =>
    rw [List.flatMap_cons] at distinct
    have disjoint := List.disjoint_of_nodup_append distinct
    -- what the block becomes, and the table behind it
    have step : ∀ here, here = (if b.live then foldInsns consts b.insns else (b.insns, consts, false)) →
        defs here.1 = defs b.insns ∧ Records here.2.1 here.1 ∧ ∀ v k, v ∉ defs b.insns →
          here.2.1.resolve (.value v) = some k → consts.resolve (.value v) = some k := by
      rintro here rfl
      have head := records b List.mem_cons_self
      by_cases live : b.live
      · rw [if_pos live]
        exact ⟨defs_of_same (folded_map foldInsns_folded),
          foldInsns_records distinct.of_append_left head⟩
      · rw [if_neg live]
        exact ⟨rfl, head, fun _ _ _ => id⟩
    rw [foldBlocks_cons]
    generalize made : (if b.live then foldInsns consts b.insns else (b.insns, consts, false)) = here
    obtain ⟨dsts, agrees, before⟩ := step here made.symm
    have absent : ∀ {v}, v ∈ defs b.insns → ∀ b' ∈ blocks, v ∉ defs b'.insns := by
      intro v defined b' later defined'
      exact disjoint defined (List.mem_flatMap.mpr ⟨b', later, defined'⟩)
    obtain ⟨others, earlier⟩ := ih distinct.of_append_right
      fun b' later v k held i present defines => by
        have away : v ∉ defs b.insns := fun defined =>
          absent defined b' later (mem_defs.mpr ⟨i, present, defines⟩)
        exact records b' (List.mem_cons_of_mem _ later) v k (before v k away held) i present defines
    refine ⟨fun b' present => ?_, fun v k nowhere held => ?_⟩
    · rcases List.mem_cons.mp present with rfl | later
      · intro v k held i inside defines
        have defined : v ∈ defs b.insns := dsts ▸ mem_defs.mpr ⟨i, inside, defines⟩
        exact agrees v k (earlier v k (absent defined) held) i inside defines
      · exact others b' later
    · exact before v k (nowhere b List.mem_cons_self)
        (earlier v k (fun b' later => nowhere b' (List.mem_cons_of_mem _ later)) held)

theorem fold_table (wf : prog.WellFormed) (table : Table prog consts) :
    Table (folded prog consts) (constantFold prog consts).2.1 :=
  (foldBlocks_records wf.single table).1

end EbpfLab.Ssa
