import EbpfLab.Ssa.Reads

/-!
# Phis under construction

Where the phis stand while the builder runs. A phi is open while its inputs are being read, waits for the
seal of its block, or has an input for each edge into its block.
-/

namespace EbpfLab.Ssa
open Isa FlowGraph

variable {cfg : Cfg} {b b' : Builder} {block p pos k : Nat} {reg r : Reg} {v dst : SsaValue}
  {opened hole : Set Site} {inputs : List (Pred × SsaValue)} {done : List Nat}

namespace Builder

/-- The inputs of a phi of the block, when the edges from `done` have been read. -/
def Merges (cfg : Cfg) (block : Nat) (done : List Nat) (inputs : List (Pred × SsaValue)) : Prop :=
  inputs.map Prod.fst = (if block = cfg.entry ∧ entryLoop cfg then [none] else []) ++ done.map some

/-- What is true of the phis while those at the places of `opened` take their inputs. -/
structure Phis (cfg : Cfg) (opened : Set Site) (b : Builder) : Prop where
  sized : Sized cfg b
  minted : ∀ (p k : Nat) (dst : SsaValue) (inputs : List (Pred × SsaValue)),
    (b.headOf p)[k]? = some (.phi dst inputs) → dst < b.next
  merges : ∀ (p k : Nat) (dst : SsaValue) (inputs : List (Pred × SsaValue)),
    (b.headOf p)[k]? = some (.phi dst inputs) → (p, k) ∉ opened →
      k ∈ (b.pendOf p).map Prod.fst ∨ Merges cfg p (cfg.preds p) inputs
  waiting : ∀ (p k : Nat) (reg : Reg), (k, reg) ∈ b.pendOf p →
    (p, k) ∉ opened ∧ (b.current p reg).isSome ∧ ∃ dst inputs,
      (b.headOf p)[k]? = some (.phi dst inputs) ∧ Merges cfg p [] inputs
  apart : ∀ p, ((b.pendOf p).map Prod.fst).Nodup
  recorded : ∀ s ∈ b.stale, ∃ dst inputs v, (b.headOf s.block)[s.pos]? = some (.phi dst inputs) ∧
    inputs[s.idx]? = some (some s.pred, v)
  within : ∀ s ∈ opened, s.2 < (b.headOf s.1).length
  bodies : ∀ p, ∀ i ∈ b.bodies.getD p [], i.isPhi = false

/-- A minted phi has its start input. -/
theorem merges_start : Merges cfg block [] (b.starts cfg block reg) := by
  unfold Merges starts
  split <;> rfl

/-- An input is taken for one more edge. -/
theorem Merges.snoc {pred : Nat} {operand : SsaValue} (merges : Merges cfg block done inputs) :
    Merges cfg block (done ++ [pred]) (inputs ++ [(some pred, operand)]) := by
  unfold Merges at merges ⊢
  rw [List.map_append, merges, List.map_append, List.append_assoc]
  rfl

/-! ### Steps of the builder -/

namespace Phis

/-- A step that leaves the phis where they stand. -/
theorem same (phis : Phis cfg opened b) (named : ∀ p r, (b.current p r).isSome → (b'.current p r).isSome)
    (sized : Sized cfg b') (heads : b'.heads = b.heads) (incomplete : b'.incomplete = b.incomplete)
    (stale : b'.stale = b.stale) (next : b.next ≤ b'.next) (bodies : ∀ p, ∀ i ∈ b'.bodies.getD p [], i.isPhi = false) :
    Phis cfg opened b' := by
  have headOf : b'.headOf = b.headOf := by funext p; rw [Builder.headOf, heads]; rfl
  have pendOf : b'.pendOf = b.pendOf := by funext p; rw [Builder.pendOf, incomplete]; rfl
  refine ⟨sized, ?_, ?_, ?_, ?_, ?_, ?_, bodies⟩ <;> simp only [headOf, pendOf, stale]
  · exact fun p k dst inputs there => (phis.minted p k dst inputs there).trans_le next
  · exact phis.merges
  · intro p k reg waits
    obtain ⟨outside, before, rest⟩ := phis.waiting p k reg waits
    exact ⟨outside, named p reg before, rest⟩
  · exact phis.apart
  · exact phis.recorded
  · exact phis.within

/-- A phi that has all its inputs is not open. -/
theorem close (phis : Phis cfg (insert (block, pos) opened) b)
    (there : (b.headOf block)[pos]? = some (.phi dst inputs)) (merges : Merges cfg block (cfg.preds block) inputs) :
    Phis cfg opened b where
  sized := phis.sized
  minted := phis.minted
  merges p k dst' inputs' found outside := by
    by_cases same : (p, k) = (block, pos)
    · cases same
      rw [there] at found
      cases found
      exact Or.inr merges
    · exact phis.merges p k dst' inputs' found fun within =>
        (Set.mem_insert_iff.mp within).elim same outside
  waiting p k reg waits := by
    obtain ⟨outside, rest⟩ := phis.waiting p k reg waits
    exact ⟨fun within => outside (Set.mem_insert_of_mem _ within), rest⟩
  apart := phis.apart
  recorded := phis.recorded
  within s opens := phis.within s (Set.mem_insert_of_mem _ opens)
  bodies := phis.bodies

theorem mint (phis : Phis cfg opened b) (mints : Mints cfg b block reg b') (absent : b.current block reg = none) :
    Phis cfg (insert (block, (b.headOf block).length) opened) b' := by
  have kept := mints.kept absent
  have stays : ∀ {p k : Nat} {dst : SsaValue} {inputs : List (Pred × SsaValue)},
      (b.headOf p)[k]? = some (.phi dst inputs) → (b'.headOf p)[k]? = some (.phi dst inputs) := by
    intro p k dst inputs there
    obtain ⟨i', found, _, same⟩ := kept.heads p k _ there
    rw [found, same (Set.notMem_empty _)]
  have stood : ∀ {p k : Nat} {dst : SsaValue} {inputs : List (Pred × SsaValue)},
      (b'.headOf p)[k]? = some (.phi dst inputs) →
        (dst = b.next ∧ (p, k) = (block, (b.headOf block).length)) ∨
          (b.headOf p)[k]? = some (.phi dst inputs) := by
    intro p k dst inputs found
    rw [mints.headOf] at found
    split at found
    · rename_i same
      subst same
      rw [List.getElem?_append] at found
      split at found
      · exact Or.inr found
      · obtain ⟨last, shape⟩ := List.getElem?_eq_some_iff.mp found
        have end_ : k = (b.headOf p).length := by
          simp only [List.length_singleton] at last
          omega
        simp only [List.getElem_singleton, SsaInsn.phi.injEq] at shape
        exact Or.inl ⟨shape.1.symm, by rw [end_]⟩
    · exact Or.inr found
  have pendOf : b'.pendOf = b.pendOf := by funext p; rw [Builder.pendOf, mints.incomplete]; rfl
  have waited : ∀ {p k : Nat} {r : Reg}, (k, r) ∈ b.pendOf p → k < (b.headOf p).length := by
    intro p k r waits
    obtain ⟨_, _, dst, inputs, there, _⟩ := phis.waiting p k r waits
    exact (List.getElem?_eq_some_iff.mp there).1
  refine ⟨mints.sized, ?_, ?_, ?_, ?_, ?_, ?_, ?_⟩
  · intro p k dst inputs found
    rw [mints.next]
    rcases stood found with ⟨rfl, _⟩ | there
    · exact Nat.lt_succ_self _
    · exact Nat.lt_succ_of_lt (phis.minted p k dst inputs there)
  · intro p k dst inputs found outside
    rcases stood found with ⟨_, new⟩ | there
    · exact absurd (Set.mem_insert_iff.mpr (Or.inl new)) outside
    · rw [pendOf]
      exact phis.merges p k dst inputs there fun opens => outside (Set.mem_insert_of_mem _ opens)
  · intro p k r waits
    rw [pendOf] at waits
    obtain ⟨outside, named, dst, inputs, there, merges⟩ := phis.waiting p k r waits
    refine ⟨fun opens => ?_, kept.isSome named, dst, inputs, stays there, merges⟩
    rcases Set.mem_insert_iff.mp opens with new | old
    · cases new
      exact absurd (waited waits) (Nat.lt_irrefl _)
    · exact outside old
  · rw [pendOf]
    exact phis.apart
  · rw [mints.stale]
    intro s present
    obtain ⟨dst, inputs, v, there, input⟩ := phis.recorded s present
    exact ⟨dst, inputs, v, stays there, input⟩
  · intro s opens
    rw [mints.headOf]
    rcases Set.mem_insert_iff.mp opens with rfl | old
    · simp
    · have before := phis.within s old
      split
      · rename_i same
        rw [same] at before
        exact before.trans_le (by simp)
      · exact before
  · rw [mints.bodies]
    exact phis.bodies

end Phis

/-! ### Inputs -/

/-- `complete_phi` takes the version read in a predecessor as an input. -/
def takeInput (b : Builder) (block pos pred : Nat) (reg : Reg) (operand : SsaValue) : Builder :=
  let idx := (b.inputsAt block pos).length
  let b := b.addInput block pos (some pred, operand)
  if b.isFilled pred then b else { b with stale := b.stale ++ [{ block, pos, idx, pred, reg }] }

section

variable {pred : Nat} {operand : SsaValue}

theorem takeInput_headOf (inside : block < b.heads.length) :
    (b.takeInput block pos pred reg operand).headOf p =
      if p = block then (b.headOf block).modify pos (pushInput (some pred, operand)) else b.headOf p := by
  unfold takeInput
  dsimp only
  split <;> exact headOf_addInput inside

/-- The phi takes the input, and no other instruction changes. -/
theorem takeInput_at (pred : Nat) (reg : Reg) (operand : SsaValue) (inside : block < b.heads.length)
    (there : (b.headOf block)[pos]? = some (.phi dst inputs)) :
    ((b.takeInput block pos pred reg operand).headOf block)[pos]? =
        some (.phi dst (inputs ++ [(some pred, operand)])) ∧
      ∀ p k, (p, k) ≠ (block, pos) →
        ((b.takeInput block pos pred reg operand).headOf p)[k]? = (b.headOf p)[k]? := by
  refine ⟨?_, fun p k other => ?_⟩
  · rw [takeInput_headOf inside, if_pos rfl, List.getElem?_modify, there]
    simp [pushInput]
  · rw [takeInput_headOf inside]
    split
    · rename_i same
      subst same
      have apart : pos ≠ k := fun same => other (by rw [same])
      rw [List.getElem?_modify]
      simp [apart]
    · rfl

theorem takeInput_stale (pred : Nat) (reg : Reg) (operand : SsaValue)
    (there : (b.headOf block)[pos]? = some (.phi dst inputs)) :
    (b.takeInput block pos pred reg operand).stale =
      if b.isFilled pred then b.stale else b.stale ++ [⟨block, pos, inputs.length, pred, reg⟩] := by
  have listed : b.inputsAt block pos = inputs := by
    unfold inputsAt
    rw [headOf] at there
    rw [there]
  have same : (b.addInput block pos (some pred, operand)).isFilled pred = b.isFilled pred := rfl
  unfold takeInput
  dsimp only
  rw [listed, same]
  split <;> rfl

/-- What taking an input leaves alone. -/
theorem takeInput_same (b : Builder) (block pos pred : Nat) (reg : Reg) (operand : SsaValue) :
    (b.takeInput block pos pred reg operand).cur = b.cur ∧
      (b.takeInput block pos pred reg operand).incomplete = b.incomplete ∧
      (b.takeInput block pos pred reg operand).filled = b.filled ∧
      (b.takeInput block pos pred reg operand).sealed = b.sealed ∧
      (b.takeInput block pos pred reg operand).entryEnv = b.entryEnv ∧
      (b.takeInput block pos pred reg operand).resolving = b.resolving ∧
      (b.takeInput block pos pred reg operand).next = b.next ∧
      (b.takeInput block pos pred reg operand).bodies = b.bodies ∧
      (b.takeInput block pos pred reg operand).heads.length = b.heads.length := by
  unfold takeInput
  dsimp only
  split <;> simp [addInput]

theorem takeInput_kept (pred : Nat) (reg : Reg) (operand : SsaValue) (inside : block < b.heads.length)
    (there : (b.headOf block)[pos]? = some (.phi dst inputs)) :
    Kept {(block, pos)} reg b (b.takeInput block pos pred reg operand) := by
  obtain ⟨taken, others⟩ := takeInput_at pred reg operand inside there
  obtain ⟨cur, incomplete, filled, shut, _, resolving, next, _⟩ :=
    takeInput_same b block pos pred reg operand
  refine ⟨fun p r v found => ?_, fun p k i found => ?_, fun p _ => by rw [pendOf, pendOf, incomplete],
    fun s present => ?_, next.ge, shut, filled, resolving⟩
  · rwa [current, cur]
  · by_cases same : (p, k) = (block, pos)
    · cases same
      rw [there] at found
      cases found
      exact ⟨_, taken, Or.inr ⟨dst, _, _, rfl, rfl⟩, fun outside => absurd rfl outside⟩
    · exact ⟨i, (others p k same).trans found, Or.inl rfl, fun _ => rfl⟩
  · rw [takeInput_stale pred reg operand there]
    split
    · exact present
    · exact List.mem_append_left _ present

theorem Phis.takeInput (phis : Phis cfg opened b) (pred : Nat) (reg : Reg) (operand : SsaValue)
    (opens : (block, pos) ∈ opened) (inside : block < cfg.blocks.length)
    (there : (b.headOf block)[pos]? = some (.phi dst inputs)) :
    Phis cfg opened (b.takeInput block pos pred reg operand) := by
  have place : block < b.heads.length := phis.sized.heads.symm ▸ inside
  have kept := takeInput_kept pred reg operand place there
  obtain ⟨taken, others⟩ := takeInput_at pred reg operand place there
  have stale := takeInput_stale pred reg operand there
  obtain ⟨cur, incomplete, filled, shut, -, -, next, bodies, heads⟩ :=
    takeInput_same b block pos pred reg operand
  generalize b.takeInput block pos pred reg operand = b' at *
  have pendOf : b'.pendOf = b.pendOf := by funext p; rw [Builder.pendOf, incomplete]; rfl
  -- a phi of the head stood there before, unless it is the one that takes the input
  have stood : ∀ {p k : Nat} {dst' : SsaValue} {inputs' : List (Pred × SsaValue)},
      (b'.headOf p)[k]? = some (.phi dst' inputs') →
        ((p, k) = (block, pos) ∧ dst' = dst) ∨
          ((p, k) ≠ (block, pos) ∧ (b.headOf p)[k]? = some (.phi dst' inputs')) := by
    intro p k dst' inputs' found
    by_cases same : (p, k) = (block, pos)
    · cases same
      rw [taken] at found
      cases found
      exact Or.inl ⟨rfl, rfl⟩
    · exact Or.inr ⟨same, (others p k same).symm.trans found⟩
  refine ⟨⟨by rw [cur, phis.sized.cur], by rw [heads, phis.sized.heads],
    by rw [incomplete, phis.sized.incomplete], by rw [filled, phis.sized.filled],
    by rw [shut, phis.sized.sealed]⟩, ?_, ?_, ?_, ?_, ?_, ?_, by rw [bodies]; exact phis.bodies⟩
  · intro p k dst' inputs' found
    rw [next]
    rcases stood found with ⟨_, rfl⟩ | ⟨_, old⟩
    · exact phis.minted _ _ _ _ there
    · exact phis.minted _ _ _ _ old
  · intro p k dst' inputs' found outside
    rcases stood found with ⟨same, _⟩ | ⟨_, old⟩
    · rw [same] at outside
      exact absurd opens outside
    · rw [pendOf]
      exact phis.merges p k dst' inputs' old outside
  · intro p k r waits
    rw [pendOf] at waits
    obtain ⟨outside, named, dst', inputs', old, merges⟩ := phis.waiting p k r waits
    have other : (p, k) ≠ (block, pos) := fun same => outside (by rw [same]; exact opens)
    exact ⟨outside, kept.isSome named, dst', inputs', (others p k other).trans old, merges⟩
  · rw [pendOf]
    exact phis.apart
  · intro s present
    have old : s ∈ b.stale ∨ s = ⟨block, pos, inputs.length, pred, reg⟩ := by
      rw [stale] at present
      split at present
      · exact Or.inl present
      · simpa using present
    rcases old with old | rfl
    · obtain ⟨dst', inputs', v, found, input⟩ := phis.recorded s old
      by_cases same : (s.block, s.pos) = (block, pos)
      · obtain ⟨block_eq, pos_eq⟩ := Prod.mk.inj same
        rw [block_eq, pos_eq, there] at found
        cases found
        rw [block_eq, pos_eq]
        refine ⟨dst, _, v, taken, ?_⟩
        rwa [List.getElem?_append_left (List.getElem?_eq_some_iff.mp input).1]
      · exact ⟨dst', inputs', v, (others _ _ same).trans found, input⟩
    · exact ⟨dst, _, operand, taken, by simp⟩
  · intro s opens'
    obtain ⟨i', found, _⟩ := kept.heads s.1 s.2 _ (List.getElem?_eq_getElem (phis.within s opens'))
    exact (List.getElem?_eq_some_iff.mp found).1

end

/-! ### Waiting phis -/

/-- An open phi that has its start input may wait for the seal of its block. -/
theorem Phis.wait (phis : Phis cfg (insert (block, pos) opened) b) (inside : block < cfg.blocks.length)
    (outside : (block, pos) ∉ opened) (there : (b.headOf block)[pos]? = some (.phi dst inputs))
    (merges : Merges cfg block [] inputs) (named : (b.current block reg).isSome)
    (unlisted : pos ∉ (b.pendOf block).map Prod.fst) :
    Phis cfg opened { b with incomplete := b.incomplete.modify block (· ++ [(pos, reg)]) } := by
  have place : block < b.incomplete.length := phis.sized.incomplete.symm ▸ inside
  generalize waits : ({ b with incomplete := b.incomplete.modify block (· ++ [(pos, reg)]) } : Builder) = b'
  have pendOf : ∀ p, b'.pendOf p = if p = block then b.pendOf block ++ [(pos, reg)] else b.pendOf p := by
    intro p
    subst waits
    exact getD_modify place
  have listed : ∀ p e, e ∈ b'.pendOf p → (p = block ∧ e = (pos, reg)) ∨ e ∈ b.pendOf p := by
    intro p e present
    rw [pendOf] at present
    split at present
    · rename_i same
      subst same
      rcases List.mem_append.mp present with old | new
      · exact Or.inr old
      · exact Or.inl ⟨rfl, List.mem_singleton.mp new⟩
    · exact Or.inr present
  have headOf : b'.headOf = b.headOf := by subst waits; rfl
  have current : b'.current = b.current := by subst waits; rfl
  have sized : Sized cfg b' := by
    subst waits
    exact ⟨phis.sized.cur, phis.sized.heads, by simpa using phis.sized.incomplete, phis.sized.filled,
      phis.sized.sealed⟩
  refine ⟨sized, ?_, ?_, ?_, ?_, ?_, ?_, by subst waits; exact phis.bodies⟩
  · rw [headOf]
    subst waits
    exact phis.minted
  · intro p k dst' inputs' found away
    rw [headOf] at found
    by_cases same : (p, k) = (block, pos)
    · cases same
      rw [there] at found
      cases found
      exact Or.inl (by rw [pendOf, if_pos rfl]; simp)
    · have old := phis.merges p k dst' inputs' found fun within =>
        (Set.mem_insert_iff.mp within).elim same away
      refine old.imp (fun queued => ?_) id
      rw [pendOf]
      split
      · rename_i here
        subst here
        rw [List.map_append]
        exact List.mem_append_left _ queued
      · exact queued
  · intro p k r waits'
    rw [headOf, current]
    rcases listed p _ waits' with ⟨rfl, new⟩ | old
    · cases new
      exact ⟨outside, named, dst, inputs, there, merges⟩
    · obtain ⟨away, rest⟩ := phis.waiting p k r old
      exact ⟨fun within => away (Set.mem_insert_of_mem _ within), rest⟩
  · intro p
    rw [pendOf]
    split
    · rw [List.map_append, List.map_singleton]
      exact (phis.apart block).append (List.nodup_singleton _) (List.disjoint_singleton.mpr unlisted)
    · exact phis.apart p
  · rw [headOf]
    subst waits
    exact phis.recorded
  · rw [headOf]
    exact fun s opens => phis.within s (Set.mem_insert_of_mem _ opens)

/-- The seal of a block opens the phis that wait for it. -/
theorem Phis.release (phis : Phis cfg ∅ b) (inside : block < cfg.blocks.length) (headOf : b'.headOf = b.headOf)
    (incomplete : b'.incomplete = b.incomplete.set block [])
    (named : ∀ p r, (b.current p r).isSome → (b'.current p r).isSome) (sized : Sized cfg b')
    (stale : b'.stale = b.stale) (next : b'.next = b.next) (bodies : b'.bodies = b.bodies) :
    Phis cfg { s | s.1 = block ∧ s.2 ∈ (b.pendOf block).map Prod.fst } b' := by
  have place : block < b.incomplete.length := phis.sized.incomplete.symm ▸ inside
  have pendOf : ∀ p, b'.pendOf p = if p = block then [] else b.pendOf p := by
    intro p
    unfold Builder.pendOf
    rw [incomplete]
    exact getD_set place
  refine ⟨sized, ?_, ?_, ?_, ?_, ?_, ?_, by rw [bodies]; exact phis.bodies⟩
  · rw [headOf, next]
    exact phis.minted
  · intro p k dst inputs found away
    rw [headOf] at found
    refine (phis.merges p k dst inputs found (Set.notMem_empty _)).imp (fun waits => ?_) id
    rw [pendOf]
    split
    · rename_i here
      subst here
      exact absurd ⟨rfl, waits⟩ away
    · exact waits
  · intro p k r waits
    rw [pendOf] at waits
    split at waits
    · cases waits
    · rename_i other
      obtain ⟨_, before, rest⟩ := phis.waiting p k r waits
      rw [headOf]
      exact ⟨fun opens => other opens.1, named p r before, rest⟩
  · intro p
    rw [pendOf]
    split
    · exact List.nodup_nil
    · exact phis.apart p
  · rw [stale, headOf]
    exact phis.recorded
  · rintro ⟨p, k⟩ ⟨rfl, opens⟩
    obtain ⟨⟨k', r⟩, waits, rfl⟩ := List.mem_map.mp opens
    obtain ⟨_, _, dst, inputs, found, _⟩ := phis.waiting p k' r waits
    rw [headOf]
    exact (List.getElem?_eq_some_iff.mp found).1

end Builder
end EbpfLab.Ssa
