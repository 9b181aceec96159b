import EbpfLab.Ssa.Phis

/-!
# Answers to reads

Every read returns: it goes on only where `unread` decreases. What it returns is the block's version
from then on, and the phis stay well-formed on the way.
-/

namespace EbpfLab.Ssa
open Isa FlowGraph

variable {cfg : Cfg} {b b' b'' : Builder} {block p pos fuel bound : Nat} {reg r : Reg} {v dst : SsaValue}
  {opened opened' hole : Set Site} {inputs : List (Pred × SsaValue)} {done preds : List Nat}

namespace Builder

/-- What a read of a register that starts in `b` leaves. -/
structure Answered (cfg : Cfg) (hole opened : Set Site) (reg : Reg) (b b' : Builder) : Prop where
  kept : Kept hole reg b b'
  phis : Phis cfg opened b'

/-- A read that returns the block's version. -/
def Returns (cfg : Cfg) (opened : Set Site) (b : Builder) (block : Nat) (reg : Reg)
    (result : Option (SsaValue × Builder)) : Prop :=
  ∃ v b', result = some (v, b') ∧ Answered cfg ∅ opened reg b b' ∧ b'.current block reg = some v

namespace Answered

theorem refl (phis : Phis cfg opened b) : Answered cfg hole opened reg b b := ⟨.refl, phis⟩

theorem trans (first : Answered cfg hole opened reg b b') (second : Answered cfg hole opened' reg b' b'') :
    Answered cfg hole opened' reg b b'' :=
  ⟨first.kept.trans second.kept, second.phis⟩

theorem mono (answered : Answered cfg hole opened reg b b') {wider : Set Site} (sub : hole ⊆ wider) :
    Answered cfg wider opened reg b b' :=
  ⟨answered.kept.mono sub, answered.phis⟩

/-- A minted phi. -/
theorem of_mint (phis : Phis cfg opened b) (mints : Mints cfg b block reg b') (absent : b.current block reg = none) :
    Answered cfg ∅ (insert (block, (b.headOf block).length) opened) reg b b' :=
  ⟨mints.kept absent, phis.mint mints absent⟩

/-- The read comes back from the resolution it entered. -/
theorem leave (answered : Answered cfg hole opened reg { b with resolving := (block, reg) :: b.resolving } b') :
    Answered cfg hole opened reg b { b' with resolving := b'.resolving.tail } where
  kept :=
    { answered.kept with
      resolving := by
        change b'.resolving.tail = b.resolving
        rw [answered.kept.resolving]
        rfl }
  phis := answered.phis.same (fun _ _ => id)
    ⟨answered.phis.sized.cur, answered.phis.sized.heads, answered.phis.sized.incomplete,
      answered.phis.sized.filled, answered.phis.sized.sealed⟩
    rfl rfl rfl (Nat.le_refl _) answered.phis.bodies

/-- The block gets a version, in place of a phi it was named by on the way, if any. -/
theorem follow (answered : Answered cfg ∅ opened reg b b') (inside : block < cfg.blocks.length)
    (absent : b.current block reg = none) : Answered cfg ∅ opened reg b (b'.setCurrent block reg v) := by
  have row : block < b'.cur.length := answered.phis.sized.cur.symm ▸ inside
  have current : ∀ p r, (b'.setCurrent block reg v).current p r =
      if p = block ∧ r = reg then some v else b'.current p r := fun p r => current_setCurrent row
  refine ⟨{ answered.kept with current := fun p r w found => ?_ }, answered.phis.same (fun p r named => ?_)
    ⟨by simpa [setCurrent] using answered.phis.sized.cur, answered.phis.sized.heads,
      answered.phis.sized.incomplete, answered.phis.sized.filled, answered.phis.sized.sealed⟩
    rfl rfl rfl (Nat.le_refl _) answered.phis.bodies⟩
  · rw [current, if_neg, answered.kept.current p r w found]
    rintro ⟨rfl, rfl⟩
    rw [absent] at found
    cases found
  · rw [current]
    split
    · rfl
    · exact named

end Answered

/-! ### Phis -/

/-- Read the predecessors and take their versions as inputs. -/
def takeInputs (read : Read) (b : Builder) (block pos : Nat) (reg : Reg) (preds : List Nat) : Option Builder :=
  preds.foldlM (fun b pred => (read b pred reg).map fun (operand, b) => b.takeInput block pos pred reg operand) b

theorem completePhi_eq {read : Read} :
    completePhi cfg read b block pos reg = takeInputs read b block pos reg (cfg.preds block) := by
  unfold completePhi takeInputs
  congr 1
  funext b pred
  cases read b pred reg with
  | none => rfl
  | some result =>
    change (if _ then _ else _) = some (takeInput ..)
    unfold takeInput
    dsimp only
    split <;> rfl

section

variable {read : Read} (inner : ∀ {p q : Nat}, q ∈ cfg.preds p → q < cfg.blocks.length)
  (reads : ∀ {opened : Set Site} {b : Builder} {p : Nat},
    Phis cfg opened b → p < cfg.blocks.length → unread cfg b reg < bound → Returns cfg opened b p reg (read b p reg))
include reads

/-- An open phi gets an input for each predecessor read. -/
theorem takeInputs_answered (sources : ∀ q ∈ preds, q < cfg.blocks.length) (phis : Phis cfg opened b)
    (opens : (block, pos) ∈ opened) (inside : block < cfg.blocks.length) (few : unread cfg b reg < bound)
    (there : (b.headOf block)[pos]? = some (.phi dst inputs)) (merges : Merges cfg block done inputs) :
    ∃ b' inputs', takeInputs read b block pos reg preds = some b' ∧ Answered cfg {(block, pos)} opened reg b b' ∧
      (b'.headOf block)[pos]? = some (.phi dst inputs') ∧ Merges cfg block (done ++ preds) inputs' := by
  induction preds generalizing b inputs done with
  | nil => exact ⟨b, inputs, rfl, .refl phis, there, by rwa [List.append_nil]⟩
  | cons pred preds ih =>
    obtain ⟨operand, mid, found, first, _⟩ := reads phis (sources pred List.mem_cons_self) few
    obtain ⟨i', stands, _, same⟩ := first.kept.heads block pos _ there
    obtain rfl := same (Set.notMem_empty _)
    have place : block < mid.heads.length := first.phis.sized.heads.symm ▸ inside
    have second : Answered cfg {(block, pos)} opened reg mid (mid.takeInput block pos pred reg operand) :=
      ⟨takeInput_kept pred reg operand place stands, first.phis.takeInput pred reg operand opens inside stands⟩
    have both := (first.mono (Set.empty_subset _)).trans second
    obtain ⟨b', inputs', ran, rest, last, full⟩ :=
      ih (fun q later => sources q (List.mem_cons_of_mem _ later)) second.phis
        (both.kept.unread_le.trans_lt few) (takeInput_at pred reg operand place stands).1 merges.snoc
    refine ⟨b', inputs', ?_, both.trans rest, last, by simpa using full⟩
    rw [takeInputs, List.foldlM_cons, found]
    exact ran

include inner

/-- A merge is named by a phi with an input for each edge. -/
theorem merge_answered (phis : Phis cfg opened b) (inside : block < cfg.blocks.length)
    (absent : b.current block reg = none) (few : unread cfg b reg ≤ bound) :
    ∃ b', merge cfg read b block reg = some (b.next, b') ∧ Answered cfg ∅ opened reg b b' ∧
      b'.current block reg = some b.next := by
  have mints := mintPhi_mints reg phis.sized inside
  have minted := Answered.of_mint phis mints absent
  have head : ((b.mintPhi cfg block reg).2.2.headOf block)[(b.headOf block).length]? =
      some (.phi b.next (b.starts cfg block reg)) := by
    rw [mints.headOf, if_pos rfl, List.getElem?_concat_length]
  obtain ⟨b', inputs', ran, completed, stands, full⟩ := takeInputs_answered reads
    (fun q listed => inner listed) minted.phis (Set.mem_insert _ _) inside
    ((mints.unread_lt absent inside).trans_le few) head merges_start
  have whole := (minted.mono (Set.empty_subset _)).trans completed
  refine ⟨b', ?_, ⟨whole.kept.close ?_, whole.phis.close stands full⟩, ?_⟩
  · exact Option.bind_eq_some_iff.mpr ⟨b', completePhi_eq.trans ran, rfl⟩
  · rintro site rfl
    exact Nat.le_refl _
  · exact completed.kept.current block reg _ (by rw [mints.current, if_pos ⟨rfl, rfl⟩])

end

/-- A read in an unsealed block leaves a phi for the seal. -/
theorem Answered.of_wait (phis : Phis cfg opened b) (inside : block < cfg.blocks.length)
    (absent : b.current block reg = none) (unsealed : b.isSealed block = false) (mints : Mints cfg b block reg b') :
    Answered cfg ∅ opened reg b
      { b' with incomplete := b'.incomplete.modify block (· ++ [((b.headOf block).length, reg)]) } := by
  have minted := Answered.of_mint phis mints absent
  have head : (b'.headOf block)[(b.headOf block).length]? = some (.phi b.next (b.starts cfg block reg)) := by
    rw [mints.headOf, if_pos rfl, List.getElem?_concat_length]
  have pendOf : b'.pendOf = b.pendOf := by funext p; rw [Builder.pendOf, mints.incomplete]; rfl
  have waits := minted.phis.wait inside (fun opens => Nat.lt_irrefl _ (phis.within _ opens)) head merges_start
    (by rw [mints.current, if_pos ⟨rfl, rfl⟩]; rfl) ?_
  · refine ⟨{ minted.kept with settled := fun p known => ?_ }, waits⟩
    have other : p ≠ block := by
      rintro rfl
      rcases known with named | shut
      · rw [absent] at named
        cases named
      · rw [unsealed] at shut
        cases shut
    change (b'.incomplete.modify block _).getD p [] = _
    rw [getD_modify (by rw [mints.sized.incomplete]; exact inside), if_neg other]
    exact congrFun pendOf p
  · rw [pendOf]
    intro listed
    obtain ⟨⟨k, r⟩, queued, last⟩ := List.mem_map.mp listed
    obtain ⟨_, _, dst, inputs, there, _⟩ := phis.waiting block k r queued
    exact Nat.ne_of_lt (List.getElem?_eq_some_iff.mp there).1 last

/-- A resolution is entered. -/
theorem Phis.enter (phis : Phis cfg opened b) : Phis cfg opened { b with resolving := (block, reg) :: b.resolving } :=
  phis.same (fun _ _ => id)
    ⟨phis.sized.cur, phis.sized.heads, phis.sized.incomplete, phis.sized.filled, phis.sized.sealed⟩
    rfl rfl rfl (Nat.le_refl _) phis.bodies

/-- Uncached, in a block whose resolution is not in flight. -/
theorem resolveUncached_answered {read : Read} (inner : ∀ {p q : Nat}, q ∈ cfg.preds p → q < cfg.blocks.length)
    (reads : ∀ {opened : Set Site} {b : Builder} {p : Nat},
      Phis cfg opened b → p < cfg.blocks.length → unread cfg b reg < bound → Returns cfg opened b p reg (read b p reg))
    (phis : Phis cfg opened b) (inside : block < cfg.blocks.length) (absent : b.current block reg = none)
    (outside : (block, reg) ∉ b.resolving) (few : unread cfg b reg ≤ bound) :
    ∃ v b', resolveUncached cfg read { b with resolving := (block, reg) :: b.resolving } block reg = some (v, b') ∧
      Answered cfg ∅ opened reg b { b' with resolving := b'.resolving.tail } ∧ b'.current block reg = some v := by
  generalize pushed : ({ b with resolving := (block, reg) :: b.resolving } : Builder) = b₀
  have entered : Phis cfg opened b₀ := pushed ▸ phis.enter
  have fewer : unread cfg b₀ reg < bound := by
    rw [← pushed]
    exact (unread_enter outside inside).trans_le few
  have absent₀ : b₀.current block reg = none := by rwa [← pushed]
  have leave : ∀ {b'}, Answered cfg ∅ opened reg b₀ b' →
      Answered cfg ∅ opened reg b { b' with resolving := b'.resolving.tail } := by
    intro b' answered
    rw [← pushed] at answered
    exact answered.leave
  have merged : ∃ v b', merge cfg read b₀ block reg = some (v, b') ∧
      Answered cfg ∅ opened reg b { b' with resolving := b'.resolving.tail } ∧ b'.current block reg = some v := by
    obtain ⟨b', ran, answered, named⟩ := merge_answered inner reads entered inside absent₀ (Nat.le_of_lt fewer)
    exact ⟨_, b', ran, leave answered, named⟩
  unfold resolveUncached
  by_cases shut : b₀.isSealed block = true
  · rw [if_neg (by rw [shut]; decide)]
    split
    · rename_i pred single
      split
      · -- a block that only precedes itself
        refine ⟨_, _, rfl, leave ((Answered.refl entered).follow inside absent₀), ?_⟩
        rw [current_setCurrent (entered.sized.cur.symm ▸ inside), if_pos ⟨rfl, rfl⟩]
      split
      · have listed : pred ∈ cfg.preds block := by
          rw [single]
          exact List.mem_cons_self
        obtain ⟨v, b', ran, answered, named⟩ := reads entered (inner listed) fewer
        refine ⟨v, b'.setCurrent block reg v, ?_, leave (answered.follow inside absent₀), ?_⟩
        · unfold Builder.follow
          rw [ran]
          rfl
        · rw [current_setCurrent (answered.phis.sized.cur.symm ▸ inside), if_pos ⟨rfl, rfl⟩]
      · exact merged
    · exact merged
  · have mints := mintPhi_mints reg entered.sized inside
    rw [if_pos (by simpa using shut)]
    refine ⟨_, _, rfl, leave (Answered.of_wait entered inside absent₀ (by simpa using shut) mints), ?_⟩
    exact (mints.current block reg).trans (if_pos ⟨rfl, rfl⟩)

/-- Every read returns. -/
theorem read_returns (inner : ∀ {p q : Nat}, q ∈ cfg.preds p → q < cfg.blocks.length)
    (phis : Phis cfg opened b) (inside : block < cfg.blocks.length) (enough : unread cfg b reg < fuel) :
    Returns cfg opened b block reg (read cfg fuel b block reg) := by
  induction fuel generalizing opened b block with
  | zero => exact absurd enough (Nat.not_lt_zero _)
  | succ fuel ih =>
    unfold read
    cases found : b.current block reg with
    | some v => exact ⟨v, b, rfl, .refl phis, found⟩
    | none =>
      unfold readRecursive
      by_cases entered : b.resolving.contains (block, reg) = true
      · rw [if_pos entered]
        obtain ⟨b', merged, answered, named⟩ := merge_answered inner ih phis inside found (Nat.le_of_lt_succ enough)
        exact ⟨b.next, b', merged, answered, named⟩
      · rw [if_neg entered]
        obtain ⟨v, b', resolved, answered, named⟩ :=
          resolveUncached_answered inner ih phis inside found (by simpa using entered) (Nat.le_of_lt_succ enough)
        exact ⟨v, _, Option.bind_eq_some_iff.mpr ⟨(v, b'), resolved, rfl⟩, answered, named⟩

end Builder
end EbpfLab.Ssa
