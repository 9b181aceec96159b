import EbpfLab.Ssa.Built
import Mathlib.Data.Finset.Card

/-!
# Reads of the builder

What a read of a register leaves as it was: the versions blocks have, the phis they hold, the flags.
A read goes on only in a block without a version of the register, and either gives the block one or
enters the block's resolution, so reads end.
-/

namespace EbpfLab.Ssa
open Isa FlowGraph

variable {cfg : Cfg} {b b' b'' : Builder} {block p pos k : Nat} {reg r : Reg} {v : SsaValue} {insn : SsaInsn}

namespace Builder

/-- The head of a block. -/
def headOf (b : Builder) (block : Nat) : List SsaInsn := b.heads.getD block []

/-- The phis of a block that wait for their inputs. -/
def pendOf (b : Builder) (block : Nat) : List (Nat × Reg) := b.incomplete.getD block []

/-- The start input of a phi in an entry that is jumped back to. -/
def starts (cfg : Cfg) (b : Builder) (block : Nat) (reg : Reg) : List (Pred × SsaValue) :=
  if block = cfg.entry ∧ entryLoop cfg then [(none, b.entryEnv reg)] else []

/-- The tables of the builder have a row for each block. -/
structure Sized (cfg : Cfg) (b : Builder) : Prop where
  cur : b.cur.length = cfg.blocks.length
  heads : b.heads.length = cfg.blocks.length
  incomplete : b.incomplete.length = cfg.blocks.length
  filled : b.filled.length = cfg.blocks.length
  «sealed» : b.sealed.length = cfg.blocks.length

/-! ### Rows -/

theorem getD_modify {α : Type} {rows : List α} {d : α} {f : α → α} (inside : block < rows.length) :
    (rows.modify block f).getD p d = if p = block then f (rows.getD block d) else rows.getD p d := by
  rw [List.getD_eq_getElem?_getD, List.getElem?_modify]
  by_cases same : block = p
  · subst same
    simp [inside]
  · rw [if_neg (Ne.symm same), List.getD_eq_getElem?_getD]
    simp [same]

theorem getD_set {α : Type} {rows : List α} {d a : α} (inside : block < rows.length) :
    (rows.set block a).getD p d = if p = block then a else rows.getD p d := by
  rw [List.getD_eq_getElem?_getD, List.getElem?_set]
  by_cases same : block = p
  · subst same
    simp [inside]
  · rw [if_neg same, if_neg (Ne.symm same), List.getD_eq_getElem?_getD]

theorem current_setCurrent (inside : block < b.cur.length) :
    (b.setCurrent block reg v).current p r = if p = block ∧ r = reg then some v else b.current p r := by
  unfold current setCurrent
  dsimp only
  rw [List.getElem?_modify]
  by_cases same : block = p
  · subst same
    rw [List.getElem?_eq_getElem inside]
    have row : (b.cur[block].setIfInBounds reg (some v)).get r =
        if r = reg then some v else b.cur[block].get r := by
      change (b.cur[block].setIfInBounds reg (some v))[r.val] = _
      rw [Vector.getElem_setIfInBounds]
      simp only [Fin.ext_iff, eq_comm (a := reg.val)]
      rfl
    simpa using row
  · have other : ¬ (p = block ∧ r = reg) := fun both => same both.1.symm
    simp [same, other]

theorem headOf_addInput {input : Pred × SsaValue} (inside : block < b.heads.length) :
    (b.addInput block pos input).headOf p =
      if p = block then (b.headOf block).modify pos (pushInput input) else b.headOf p :=
  getD_modify inside

theorem headOf_emitHead (inside : block < b.heads.length) :
    (b.emitHead block insn).headOf p = if p = block then b.headOf block ++ [insn] else b.headOf p := by
  have rows : (b.emitHead block insn).heads = b.heads.modify block (· ++ [insn]) := by simp [emitHead]
  unfold headOf
  rw [rows]
  exact getD_modify inside

@[simp] theorem emitHead_cur : (b.emitHead block insn).cur = b.cur := by
  unfold emitHead record
  split <;> rfl

/-- What a minted phi changes. -/
structure Mints (cfg : Cfg) (b : Builder) (block : Nat) (reg : Reg) (b' : Builder) : Prop where
  current : ∀ p r, b'.current p r = if p = block ∧ r = reg then some b.next else b.current p r
  headOf : ∀ p, b'.headOf p =
    if p = block then b.headOf block ++ [.phi b.next (b.starts cfg block reg)] else b.headOf p
  next : b'.next = b.next + 1
  incomplete : b'.incomplete = b.incomplete
  stale : b'.stale = b.stale
  «sealed» : b'.sealed = b.sealed
  filled : b'.filled = b.filled
  bodies : b'.bodies = b.bodies
  entryEnv : b'.entryEnv = b.entryEnv
  resolving : b'.resolving = b.resolving
  sized : Sized cfg b'

theorem mintPhi_mints (reg : Reg) (sized : Sized cfg b) (inside : block < cfg.blocks.length) :
    Mints cfg b block reg (b.mintPhi cfg block reg).2.2 := by
  have row : block < b.cur.length := sized.cur.symm ▸ inside
  have place : block < b.heads.length := sized.heads.symm ▸ inside
  -- the builder once the phi stands in the head without an input
  generalize emitted : ((b.fresh.2).setCurrent block reg b.next).emitHead block (.phi b.next []) = e
  have minted : (b.mintPhi cfg block reg).2.2 =
      if block = cfg.entry ∧ entryLoop cfg then
        e.addInput block (b.headOf block).length (none, b.entryEnv reg) else e := by
    subst emitted
    rfl
  have current : ∀ p r, e.current p r = if p = block ∧ r = reg then some b.next else b.current p r := by
    intro p r
    subst emitted
    exact current_setCurrent row
  have headOf : ∀ p, e.headOf p =
      if p = block then b.headOf block ++ [.phi b.next []] else b.headOf p := by
    intro p
    subst emitted
    exact headOf_emitHead place
  have sized' : Sized cfg e := by
    subst emitted
    exact ⟨by simpa [setCurrent, fresh] using sized.cur,
      by simpa [emitHead, setCurrent, fresh] using sized.heads, sized.incomplete, sized.filled, sized.sealed⟩
  rw [minted]
  by_cases start : block = cfg.entry ∧ entryLoop cfg
  · have begun : b.starts cfg block reg = [(none, b.entryEnv reg)] := if_pos start
    have taken : ∀ p, (e.addInput block (b.headOf block).length (none, b.entryEnv reg)).headOf p =
        if p = block then b.headOf block ++ [.phi b.next (b.starts cfg block reg)] else b.headOf p := by
      intro p
      rw [headOf_addInput (sized'.heads.symm ▸ inside), headOf, if_pos rfl, headOf, begun]
      split
      · rw [List.modify_eq_take_cons_drop (by simp)]
        simp [pushInput]
      · rfl
    rw [if_pos start]
    subst emitted
    exact ⟨current, taken, rfl, rfl, rfl, rfl, rfl, rfl, rfl, rfl,
      ⟨sized'.cur, by simpa [addInput] using sized'.heads, sized'.incomplete, sized'.filled, sized'.sealed⟩⟩
  · have begun : b.starts cfg block reg = [] := if_neg start
    rw [if_neg start]
    subst emitted
    exact ⟨current, by rw [begun]; exact headOf, rfl, rfl, rfl, rfl, rfl, rfl, rfl, rfl, sized'⟩

/-! ### What reads keep -/

/-- What a read of a register keeps. Only the phis at the places of `hole` take inputs. -/
structure Kept (hole : Set Site) (reg : Reg) (b b' : Builder) : Prop where
  current : ∀ p r v, b.current p r = some v → b'.current p r = some v
  heads : ∀ p k i, (b.headOf p)[k]? = some i →
    ∃ i', (b'.headOf p)[k]? = some i' ∧ Refilled i i' ∧ ((p, k) ∉ hole → i' = i)
  settled : ∀ p, (b.current p reg).isSome ∨ b.isSealed p → b'.pendOf p = b.pendOf p
  stale : ∀ s ∈ b.stale, s ∈ b'.stale
  next : b.next ≤ b'.next
  «sealed» : b'.sealed = b.sealed
  filled : b'.filled = b.filled
  resolving : b'.resolving = b.resolving

namespace Kept

variable {hole hole' : Set Site}

theorem refl : Kept hole reg b b :=
  ⟨fun _ _ _ => id, fun _ _ i there => ⟨i, there, Or.inl rfl, fun _ => rfl⟩, fun _ _ => rfl, fun _ => id,
    Nat.le_refl _, rfl, rfl, rfl⟩

theorem trans (first : Kept hole reg b b') (second : Kept hole reg b' b'') : Kept hole reg b b'' where
  current p r v found := second.current p r v (first.current p r v found)
  heads p k i there := by
    obtain ⟨mid, found, refilled, same⟩ := first.heads p k i there
    obtain ⟨last, found', refilled', same'⟩ := second.heads p k mid found
    refine ⟨last, found', ?_, fun outside => (same' outside).trans (same outside)⟩
    rcases refilled with rfl | ⟨dst, inputs, inputs', rfl, rfl⟩
    · exact refilled'
    · rcases refilled' with rfl | ⟨dst', inputs₁, inputs₂, shape, rfl⟩
      · exact Or.inr ⟨dst, inputs, inputs', rfl, rfl⟩
      · cases shape
        exact Or.inr ⟨dst, inputs, inputs₂, rfl, rfl⟩
  settled p known := by
    have again : (b'.current p reg).isSome ∨ b'.isSealed p := by
      rcases known with named | shut
      · obtain ⟨v, found⟩ := Option.isSome_iff_exists.mp named
        exact Or.inl (Option.isSome_iff_exists.mpr ⟨v, first.current p reg v found⟩)
      · exact Or.inr (by rwa [isSealed, first.sealed])
    exact (second.settled p again).trans (first.settled p known)
  stale s present := second.stale s (first.stale s present)
  next := first.next.trans second.next
  «sealed» := second.sealed.trans first.sealed
  filled := second.filled.trans first.filled
  resolving := second.resolving.trans first.resolving

theorem mono (kept : Kept hole reg b b') (wider : hole ⊆ hole') : Kept hole' reg b b' :=
  { kept with
    heads := fun p k i there => by
      obtain ⟨i', found, refilled, same⟩ := kept.heads p k i there
      exact ⟨i', found, refilled, fun outside => same fun within => outside (wider within)⟩ }

theorem isSome (kept : Kept hole reg b b') (named : (b.current p r).isSome) : (b'.current p r).isSome := by
  obtain ⟨v, found⟩ := Option.isSome_iff_exists.mp named
  exact Option.isSome_iff_exists.mpr ⟨v, kept.current p r v found⟩

/-- A phi of the block that takes inputs is new. -/
theorem close (kept : Kept hole reg b b') (fresh : ∀ site ∈ hole, (b.headOf site.1).length ≤ site.2) :
    Kept ∅ reg b b' :=
  { kept with
    heads := fun p k i there => by
      obtain ⟨i', found, refilled, same⟩ := kept.heads p k i there
      refine ⟨i', found, refilled, fun _ => same fun within => ?_⟩
      have beyond := fresh (p, k) within
      exact absurd (List.getElem?_eq_some_iff.mp there).1 (Nat.not_lt.mpr beyond) }

end Kept

theorem Mints.kept (mints : Mints cfg b block reg b') (absent : b.current block reg = none) :
    Kept ∅ reg b b' where
  current p r v found := by
    rw [mints.current, if_neg, found]
    rintro ⟨rfl, rfl⟩
    rw [absent] at found
    cases found
  heads p k i there := by
    refine ⟨i, ?_, Or.inl rfl, fun _ => rfl⟩
    rw [mints.headOf]
    split
    · rename_i same
      subst same
      rwa [List.getElem?_append_left (List.getElem?_eq_some_iff.mp there).1]
    · exact there
  settled p _ := by rw [pendOf, pendOf, mints.incomplete]
  stale s present := by rwa [mints.stale]
  next := by
    rw [mints.next]
    exact Nat.le_succ _
  «sealed» := mints.sealed
  filled := mints.filled
  resolving := mints.resolving

/-! ### How far a read can go on -/

/-- The blocks without a version of the register, and those whose resolution is not in flight. -/
def unread (cfg : Cfg) (b : Builder) (reg : Reg) : Nat :=
  ((Finset.range cfg.blocks.length).filter fun p => b.current p reg = none).card +
    ((Finset.range cfg.blocks.length).filter fun p => (p, reg) ∉ b.resolving).card

theorem unread_le (cfg : Cfg) (b : Builder) (reg : Reg) : unread cfg b reg ≤ 2 * cfg.blocks.length := by
  unfold unread
  have unnamed := Finset.card_filter_le (Finset.range cfg.blocks.length) fun p => b.current p reg = none
  have unentered := Finset.card_filter_le (Finset.range cfg.blocks.length) fun p => (p, reg) ∉ b.resolving
  rw [Finset.card_range] at unnamed unentered
  omega

theorem unread_mono (current : ∀ p, b'.current p reg = none → b.current p reg = none)
    (resolving : ∀ p, (p, reg) ∈ b.resolving → (p, reg) ∈ b'.resolving) :
    unread cfg b' reg ≤ unread cfg b reg :=
  Nat.add_le_add (Finset.card_le_card (Finset.monotone_filter_right _ fun p _ => current p))
    (Finset.card_le_card (Finset.monotone_filter_right _ fun p _ out within => out (resolving p within)))

theorem Kept.unread_le {hole : Set Site} (kept : Kept hole reg b b') : unread cfg b' reg ≤ unread cfg b reg := by
  refine unread_mono (fun p absent => ?_) fun p within => by rwa [kept.resolving]
  cases found : b.current p reg with
  | none => rfl
  | some v =>
    rw [kept.current p reg v found] at absent
    cases absent

/-- A block that gets a version is not read further. -/
theorem Mints.unread_lt (mints : Mints cfg b block reg b') (absent : b.current block reg = none)
    (inside : block < cfg.blocks.length) : unread cfg b' reg < unread cfg b reg := by
  have named : b'.current block reg = some b.next := by rw [mints.current, if_pos ⟨rfl, rfl⟩]
  refine Nat.add_lt_add_of_lt_of_le (Finset.card_lt_card ?_) ?_
  · refine (Finset.ssubset_iff_of_subset (Finset.monotone_filter_right _ fun p _ missing => ?_)).mpr
      ⟨block, by simp [inside, absent], by simp [named]⟩
    rw [mints.current] at missing
    split at missing
    · cases missing
    · exact missing
  · rw [mints.resolving]

/-- A block whose resolution is entered is not resolved again. -/
theorem unread_enter (outside : (block, reg) ∉ b.resolving) (inside : block < cfg.blocks.length) :
    unread cfg { b with resolving := (block, reg) :: b.resolving } reg < unread cfg b reg := by
  refine Nat.add_lt_add_of_le_of_lt (Nat.le_refl _) (Finset.card_lt_card ?_)
  refine (Finset.ssubset_iff_of_subset (Finset.monotone_filter_right _ fun p _ out within => ?_)).mpr
    ⟨block, by simp [inside, outside], by simp⟩
  exact out (List.mem_cons_of_mem _ within)

end Builder
end EbpfLab.Ssa
