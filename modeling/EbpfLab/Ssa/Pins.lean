import EbpfLab.Ssa.Known
import EbpfLab.Ssa.Prepare

/-!
# Homes that emission finds

The pseudos keep the registers they are pinned to, every version that reached code reads has a home, and so has the
result of every operation that may fail. A phi that is emitted takes a value on some edge.
-/

namespace EbpfLab.Ssa
open Isa FlowGraph Library

variable {petgraph : Petgraph}
  {prog : SsaProgram} {lower : Lower} {live : Liveness} {homes : Homes} {d : Demand} {insn : SsaInsn}
  {insns pre : List SsaInsn} {u v dst : SsaValue} {h : Reg} {block : Nat} {inputs : List (Pred × SsaValue)}

/-- A version has one definition. -/
theorem Distinct.same {i j : SsaInsn} (distinct : Distinct insns) (here : i ∈ insns) (there : j ∈ insns)
    (dst : i.defDst = some v) (dst' : j.defDst = some v) : i = j := by
  obtain ⟨front, back, split⟩ := List.append_of_mem here
  have single := distinct.single
  rw [split, defs_append] at single
  unfold defs at single
  rw [List.filterMap_cons_some dst] at single
  obtain ⟨_, tail, apart⟩ := List.nodup_append.mp single
  rw [split] at there
  rcases List.mem_append.mp there with early | late
  · exact absurd rfl (apart v (mem_defs.mpr ⟨j, early, dst'⟩) v List.mem_cons_self)
  · rcases List.mem_cons.mp late with same | late
    · exact same.symm
    · exact absurd (mem_defs.mpr ⟨j, late, dst'⟩) (List.nodup_cons.mp tail).1

/-! ### The scan of the code -/

namespace Demand

theorem scan_lengths : (d.scan prog live insn).used.length = d.used.length ∧
    (d.scan prog live insn).homes.length = d.homes.length := by
  have pins : ∀ dst h, (d.pin live dst h).used.length = d.used.length ∧
      (d.pin live dst h).homes.length = d.homes.length := by
    intro dst h
    unfold pin
    split <;> simp
  cases insn with
  | load dst size base offset => cases dst <;> simp [scan, use]
  | binOp dst width op lhs rhs =>
    cases op with
    | byteSwap endian =>
      simp only [scan]
      split <;> simp [use]
    | _ => exact ⟨rfl, rfl⟩
  | call dst func args =>
    obtain ⟨homes, _, used⟩ := prefer_same (d := d) args.toList
    exact ⟨congrArg List.length used, congrArg List.length homes⟩
  | framePtr dst => exact pins dst 10
  | entryCtx dst => exact pins dst 1
  | _ => exact ⟨rfl, rfl⟩

/-- An instruction marks and pins the version it defines alone. -/
theorem scan_other (other : insn.defDst ≠ some v) : (d.scan prog live insn).isUsed v = d.isUsed v ∧
    (d.scan prog live insn).homes.home v = d.homes.home v := by
  have uses : ∀ u, u ≠ v → (d.use u).isUsed v = d.isUsed v := by
    intro u ne
    simp [use, isUsed, List.getElem?_set_ne ne]
  have pins : ∀ u h, u ≠ v → (d.pin live u h).isUsed v = d.isUsed v ∧
      (d.pin live u h).homes.home v = d.homes.home v := by
    intro u h ne
    unfold pin
    split
    · exact ⟨rfl, Homes.home_set_ne ne.symm⟩
    · exact ⟨rfl, rfl⟩
  cases insn with
  | load dst size base offset =>
    cases dst with
    | none => exact ⟨rfl, rfl⟩
    | some u => exact ⟨uses u fun same => other (congrArg some same), rfl⟩
  | binOp u width op lhs rhs =>
    cases op with
    | byteSwap endian =>
      simp only [scan]
      split
      · exact ⟨rfl, rfl⟩
      · exact ⟨uses u fun same => other (congrArg some same), rfl⟩
    | _ => exact ⟨rfl, rfl⟩
  | call u func args =>
    obtain ⟨homes, _, used⟩ := prefer_same (d := d) args.toList
    exact ⟨by simp only [scan, isUsed, used], by simp only [scan, homes]⟩
  | framePtr u => exact pins u 10 fun same => other (congrArg some same)
  | entryCtx u => exact pins u 1 fun same => other (congrArg some same)
  | _ => exact ⟨rfl, rfl⟩

theorem foldl_scan_other (others : v ∉ defs insns) :
    (insns.foldl (scan prog live) d).isUsed v = d.isUsed v ∧
      (insns.foldl (scan prog live) d).homes.home v = d.homes.home v := by
  induction insns generalizing d with
  | nil => exact ⟨rfl, rfl⟩
  | cons insn insns ih =>
    have first : insn.defDst ≠ some v := fun same => others (mem_defs.mpr ⟨insn, List.mem_cons_self, same⟩)
    have rest : v ∉ defs insns := fun later => by
      obtain ⟨i, listed, same⟩ := mem_defs.mp later
      exact others (mem_defs.mpr ⟨i, List.mem_cons_of_mem _ listed, same⟩)
    obtain ⟨used, home⟩ := ih (d := d.scan prog live insn) rest
    obtain ⟨used', home'⟩ := @scan_other prog live d insn v first
    exact ⟨used.trans used', home.trans home'⟩

/-- What is collected of a definition is what its scan leaves. -/
theorem collect_at (distinct : Distinct prog.code) (there : insn ∈ prog.code) (dst : insn.defDst = some v) :
    ∃ d : Demand, d.used.length = prog.defSites.length ∧ d.homes.length = prog.defSites.length ∧
      (collect prog live).isUsed v = (d.scan prog live insn).isUsed v ∧
      (collect prog live).homes.home v = (d.scan prog live insn).homes.home v := by
  obtain ⟨front, back, split⟩ := List.append_of_mem there
  have lengths : ∀ (insns : List SsaInsn) (d : Demand), (insns.foldl (scan prog live) d).used.length = d.used.length ∧
      (insns.foldl (scan prog live) d).homes.length = d.homes.length := by
    intro insns
    induction insns with
    | nil => exact fun d => ⟨rfl, rfl⟩
    | cons insn insns ih =>
      intro d
      obtain ⟨used, homes⟩ := ih (d.scan prog live insn)
      obtain ⟨used', homes'⟩ := @scan_lengths prog live d insn
      exact ⟨used.trans used', homes.trans homes'⟩
  have marks : ∀ (uses : List (Nat × SsaValue)) (d : Demand),
      (uses.foldl (fun d use => d.use use.2) d).used.length = d.used.length ∧
        (uses.foldl (fun d use => d.use use.2) d).homes.length = d.homes.length := by
    intro uses
    induction uses with
    | nil => exact fun d => ⟨rfl, rfl⟩
    | cons use uses ih =>
      intro d
      obtain ⟨used, homes⟩ := ih (d.use use.2)
      exact ⟨used.trans (by simp [Demand.use]), homes⟩
  have single := distinct.single
  rw [split, defs_append] at single
  have unlisted : v ∉ defs back := fun again => by
    have tail := (List.nodup_append.mp single).2.1
    unfold defs at tail again
    rw [List.filterMap_cons_some dst] at tail
    exact (List.nodup_cons.mp tail).1 again
  unfold collect
  have code : prog.blocks.flatMap SsaBlock.insns = front ++ insn :: back := split
  simp only [code, List.foldl_append, List.foldl_cons]
  obtain ⟨used, home⟩ := @foldl_scan_other prog live _ _ _ unlisted
  refine ⟨_, ?_, ?_, used, home⟩
  · rw [(lengths _ _).1, (marks _ _).1, (marks _ _).1, List.length_replicate]
  · rw [(lengths _ _).2, (marks _ _).2, (marks _ _).2, List.length_replicate]

end Demand

section

variable (distinct : Distinct prog.code) (ok : allocate prog live = .ok homes)
include distinct ok

/-- A pseudo has no home but the register it is pinned to. -/
theorem allocate_pinned (pseudo : insn = .framePtr v ∧ h = 10 ∨ insn = .entryCtx v ∧ h = 1) (there : insn ∈ prog.code)
    {k : Reg} (homed : homes.home v = some k) : k = h := by
  have dst : insn.defDst = some v := by rcases pseudo with ⟨rfl, _⟩ | ⟨rfl, _⟩ <;> rfl
  have scanned := allocate_scanned ok
  rcases scanned.came v k homed with first | listed
  · rcases Demand.collect_pinned.pseudo v k first with ⟨rfl, other⟩ | ⟨rfl, other⟩
    all_goals
      have same := distinct.same there other dst rfl
      rcases pseudo with ⟨rfl, rfl⟩ | ⟨rfl, rfl⟩
    · rfl
    · cases same
    · cases same
    · rfl
  · -- a pseudo that is read was pinned when it was scanned
    obtain ⟨inside, marked, unhomed⟩ := mem_scanOrder.mp listed
    obtain ⟨d, _, rows, used, home⟩ := @Demand.collect_at prog live insn v distinct there dst
    have scan : d.scan prog live insn = d.pin live v h := by rcases pseudo with ⟨rfl, rfl⟩ | ⟨rfl, rfl⟩ <;> rfl
    rw [used, scan] at marked
    rw [home, scan] at unhomed
    unfold Demand.pin at marked unhomed
    split at unhomed
    · rw [Homes.home_set_self (rows ▸ inside)] at unhomed
      cases unhomed
    · rename_i unused
      rw [if_neg unused] at marked
      exact absurd marked unused

/-- A byte swap without a home has a width that is known to be fine. -/
theorem allocate_swaps {width : Width} {endian : Endian} {lhs rhs : SsaOperand}
    (there : .binOp v width (.byteSwap endian) lhs rhs ∈ prog.code) (inside : v < prog.defSites.length)
    (homeless : homes.home v = none) : (prog.constValue rhs).any validEndWidth = true := by
  by_contra unknown
  obtain ⟨d, length, _, used, _⟩ := @Demand.collect_at prog live _ v distinct there rfl
  have scan : d.scan prog live (.binOp v width (.byteSwap endian) lhs rhs) = d.use v := if_neg unknown
  rw [scan, Demand.isUsed_self (length ▸ inside)] at used
  have scanned := allocate_scanned ok
  cases pinned : (Demand.collect prog live).homes.home v with
  | some k =>
    rw [scanned.kept v k pinned] at homeless
    cases homeless
  | none =>
    obtain ⟨k, homed⟩ := scanned.homed v (mem_scanOrder.mpr ⟨inside, used, pinned⟩)
    rw [homed] at homeless
    cases homeless

end

/-! ### Reached code -/

theorem SsaProgram.mem_code (among : insn ∈ prog.insnsOf block) : insn ∈ prog.code := by
  rw [code_eq]
  by_cases inside : block < prog.blocks.length
  · exact List.mem_flatMap.mpr ⟨block, List.mem_range.mpr inside, among⟩
  · rw [SsaProgram.insnsOf, List.getElem?_eq_none (Nat.le_of_not_lt inside)] at among
    cases among

theorem SsaProgram.at_of_code (there : insn ∈ prog.code) : ∃ block pre, prog.At block pre insn := by
  rw [code_eq] at there
  obtain ⟨block, _, among⟩ := List.mem_flatMap.mp there
  exact ⟨block, SsaProgram.at_of_mem among⟩

theorem SsaProgram.At.liveSite (here : prog.At block pre insn) (live : prog.isLive block) :
    ((block, pre.length), insn) ∈ prog.liveSites := by
  obtain ⟨post, split⟩ := here
  exact mem_liveSites.mpr ⟨live, by rw [split, List.getElem?_append_right (Nat.le_refl _), Nat.sub_self]; rfl⟩

namespace SsaProgram.WellFormed

variable (wf : prog.WellFormed)
include wf

/-- A version that is available was recorded where it is defined. -/
theorem recorded_of_available (available : prog.Available block pre v) (reached : prog.Reaches block)
    (inside : pre <+: prog.insnsOf block) : ∃ i, prog.defOf v = some i ∧ i.defDst = some v ∧ i ∈ prog.code := by
  have somewhere : ∃ d, prog.Reaches d ∧ v ∈ defs (prog.insnsOf d) := by
    obtain ⟨rest, whole⟩ := inside
    exact SsaProgram.Available.defined (whole ▸ available.later) reached
  obtain ⟨d, reached, defined⟩ := somewhere
  obtain ⟨i, among, dst⟩ := mem_defs.mp defined
  obtain ⟨front, here⟩ := SsaProgram.at_of_mem among
  have site := wf.recorded d front i v (wf.live d reached) here dst
  obtain ⟨post, split⟩ := here
  refine ⟨i, ?_, dst, SsaProgram.mem_code among⟩
  rw [SsaProgram.defOf, site, Option.join_some, Option.bind_some, insnAt_eq, split,
    List.getElem?_append_right (Nat.le_refl _), Nat.sub_self]
  rfl

theorem inside_of_available (available : prog.Available block pre v) (reached : prog.Reaches block)
    (inside : pre <+: prog.insnsOf block) : v < prog.defSites.length := by
  obtain ⟨i, recorded, _⟩ := wf.recorded_of_available available reached inside
  by_contra beyond
  rw [SsaProgram.defOf, List.getElem?_eq_none (Nat.le_of_not_lt beyond)] at recorded
  cases recorded

end SsaProgram.WellFormed

/-- What reached code reads has a home. -/
theorem Prepared.read_home (prepared : Prepared petgraph prog lower) (wf : prog.WellFormed) (reached : prog.Reaches block)
    (here : prog.At block pre insn) (plain : insn.isPhi = false) (read : u ∈ insn.uses) :
    ∃ h, lower.homeOf u = some h := by
  have available := wf.uses _ _ _ reached here plain u read
  obtain ⟨post, split⟩ := here
  have inside := wf.inside_of_available available reached ⟨insn :: post, split.symm⟩
  have listed := mem_regUses (SsaProgram.At.liveSite ⟨post, split⟩ (wf.live block reached)) plain read
  exact allocate_read prepared.allocated inside ⟨_, List.mem_append_left _ listed, rfl⟩

/-- A reached block is emitted. -/
theorem Prepared.isLive (prepared : Prepared petgraph prog lower) (regular : Regular prog) (reached : prog.Reaches block) :
    lower.isLive block = true := by
  have inside : block < prog.blocks.length := by
    cases reached with
    | root => exact regular.entry
    | step _ flows =>
      obtain ⟨e, listed, _, rfl, _⟩ := mem_liveSuccessors.mp flows
      exact regular.inside e listed
  have listed := reaches_reached regular.entry regular.inside reached
  unfold Lower.isLive
  rw [prepared.live]
  simp [Lower.liveBlocks, inside, listed]

/-- An emitted phi has an input that brings it a value. -/
theorem Prepared.anchored (prepared : Prepared petgraph prog lower) (regular : Regular prog) (wf : prog.WellFormed)
    (reached : prog.Reaches block) (here : prog.At block pre (.phi dst inputs)) : lower.anchored dst inputs = true := by
  by_cases inner : block = prog.entry
  · subst inner
    obtain ⟨w, _, listed⟩ := wf.phi_start .root here
    exact List.any_eq_true.mpr ⟨(none, w), listed, rfl⟩
  · -- where the block is first come to, the phi was not assigned before
    obtain ⟨p, flows, path⟩ := reached.first_arrival inner
    obtain ⟨w, _, listed⟩ := wf.phi_input reached here path.reached flows
    refine List.any_eq_true.mpr ⟨(some p, w), listed, ?_⟩
    have alive : lower.live.getD p false = true := prepared.isLive regular path.reached
    have other : w ≠ dst := by
      rintro rfl
      have defined : w ∈ defs (prog.insnsOf block) := here.dst_mem rfl
      rcases wf.inputUses _ _ _ _ reached here p w listed path.reached with again | ⟨d, dominates, again⟩
      · exact path.ne (wf.same_block again defined)
      · obtain rfl := wf.same_block again defined
        exact dominates.passed path
    exact Bool.and_eq_true_iff.mpr ⟨alive, by simpa using other⟩

end EbpfLab.Ssa
