import EbpfLab.Library.Dominance
import EbpfLab.Ssa.Syntax
import Mathlib.Data.List.Nodup

/-!
# Well-formed programs

Every version has one definition, which dominates its uses; a phi has one input for each edge from a
live block and one for the start in the entry, and uses each of them at the end of its predecessor.
-/

namespace EbpfLab.Ssa
open FlowGraph Library

/-- The versions a list of instructions defines, in order. -/
def defs (insns : List SsaInsn) : List SsaValue := insns.filterMap SsaInsn.defDst

/-- The instructions that stand before the phis of an entry block. -/
def SsaInsn.isEntryValue : SsaInsn → Bool
  | .const .. | .framePtr _ | .entryCtx _ | .loadImm64 .. => true
  | _ => false

/-- The edges a control op takes. -/
def SsaInsn.jumpEdges (block : Nat) : SsaInsn → List Edge
  | .br _ _ _ _ trueTarget falseTarget =>
    (trueTarget.map fun t => ⟨block, t, .branchTrue⟩).toList ++
      (falseTarget.map fun t => ⟨block, t, .branchFalse⟩).toList
  | .ja target => [⟨block, target, .unconditional⟩]
  | _ => []

/-- Phis stand together at the head of a block, in the entry after its entry values. -/
def PhisLead (isEntry : Prop) (insns : List SsaInsn) : Prop :=
  ∃ head phis body, insns = head ++ phis ++ body ∧ (∀ i ∈ head, i.isEntryValue) ∧
    (head ≠ [] → isEntry) ∧ (∀ i ∈ phis, i.isPhi) ∧ ∀ i ∈ body, i.isPhi = false

namespace SsaProgram

section

variable (prog : SsaProgram)

def insnsOf (block : Nat) : List SsaInsn := ((prog.blocks[block]?).map SsaBlock.insns).getD []

/-- Control can flow along an edge of the live graph. -/
def Flows (a b : Nat) : Prop := b ∈ prog.liveSuccessors a

abbrev Reaches (block : Nat) : Prop := Reached prog.Flows prog.entry block

abbrev Dominates (a b : Nat) : Prop := StrictlyDominates prog.Flows prog.entry a b

/-- An instruction of a block and those before it. -/
def At (block : Nat) (pre : List SsaInsn) (insn : SsaInsn) : Prop :=
  ∃ post, prog.insnsOf block = pre ++ insn :: post

/-- The definition of a version dominates the place in `block` behind `pre`. -/
def Available (block : Nat) (pre : List SsaInsn) (v : SsaValue) : Prop :=
  v ∈ defs pre ∨ ∃ d, prog.Dominates d block ∧ v ∈ defs (prog.insnsOf d)

/-- The definition of `u` dominates that of `v`. -/
def Precedes (u v : SsaValue) : Prop :=
  ∃ block pre insn, prog.Reaches block ∧ prog.At block pre insn ∧ insn.defDst = some v ∧
    prog.Available block pre u

/-- Where control comes into a block from: the live blocks of its edges, and the start. -/
def incoming (block : Nat) : List Pred :=
  ((prog.edges.filter fun e => e.target == block && prog.isLive e.source).map fun e =>
    some e.source) ++ if block = prog.entry then [none] else []

end

structure WellFormed (prog : SsaProgram) : Prop where
  inside : ∀ e ∈ prog.edges, e.target < prog.blocks.length
  live : ∀ block, prog.Reaches block → prog.isLive block
  single : (prog.blocks.flatMap fun b => defs b.insns).Nodup
  recorded : ∀ block pre insn v, prog.isLive block → prog.At block pre insn →
    insn.defDst = some v → prog.defSites[v]? = some (some (block, pre.length))
  leads : ∀ block, prog.Reaches block → PhisLead (block = prog.entry) (prog.insnsOf block)
  closed : ∀ block pre insn post, prog.Reaches block → prog.insnsOf block = pre ++ insn :: post →
    insn.isControl → post = []
  targets : ∀ block pre insn, prog.Reaches block → prog.At block pre insn →
    ∀ e ∈ insn.jumpEdges block, e ∈ prog.edges
  uses : ∀ block pre insn, prog.Reaches block → prog.At block pre insn → insn.isPhi = false →
    ∀ v ∈ insn.uses, prog.Available block pre v
  inputs : ∀ block pre dst inputs, prog.Reaches block → prog.At block pre (.phi dst inputs) →
    ((inputs.filter fun input => prog.predLive input.1).map Prod.fst).Perm (prog.incoming block)
  inputUses : ∀ block pre dst inputs, prog.Reaches block → prog.At block pre (.phi dst inputs) →
    ∀ p v, (some p, v) ∈ inputs → prog.Reaches p → prog.Available p (prog.insnsOf p) v
  startUses : ∀ block pre dst inputs, prog.Reaches block → prog.At block pre (.phi dst inputs) →
    ∀ v, (none, v) ∈ inputs → ∃ i ∈ pre, i.isEntryValue ∧ i.defDst = some v

end SsaProgram

/-! ### Definitions -/

@[simp] theorem defs_append (xs ys : List SsaInsn) : defs (xs ++ ys) = defs xs ++ defs ys :=
  List.filterMap_append

theorem mem_defs {insns : List SsaInsn} {v : SsaValue} :
    v ∈ defs insns ↔ ∃ i ∈ insns, i.defDst = some v := List.mem_filterMap

/-- Two places of a list are the same or one comes first. -/
theorem splits_ordered {α : Type} {pre pre' post post' : List α} {x x' : α}
    (same : pre ++ x :: post = pre' ++ x' :: post') :
    (pre = pre' ∧ x = x') ∨ x ∈ pre' ∨ x' ∈ pre := by
  rcases List.append_eq_append_iff.mp same with ⟨mid, later, rest⟩ | ⟨mid, later, rest⟩
  · cases mid with
    | nil => exact Or.inl ⟨by simpa using later.symm, (List.cons.inj rest).1⟩
    | cons y mid => exact Or.inr (Or.inl (by rw [later, (List.cons.inj rest).1]; simp))
  · cases mid with
    | nil => exact Or.inl ⟨by simpa using later, (List.cons.inj rest).1.symm⟩
    | cons y mid => exact Or.inr (Or.inr (by rw [later, (List.cons.inj rest).1]; simp))

variable {prog : SsaProgram} {block block' p : Nat} {pre pre' more : List SsaInsn}
  {insn insn' : SsaInsn} {u v w : SsaValue} {b : SsaBlock}

theorem SsaProgram.At.mem (here : prog.At block pre insn) : insn ∈ prog.insnsOf block := by
  obtain ⟨post, split⟩ := here
  rw [split]
  exact List.mem_append_right _ List.mem_cons_self

theorem SsaProgram.At.dst_mem (here : prog.At block pre insn) (dst : insn.defDst = some v) :
    v ∈ defs (prog.insnsOf block) := mem_defs.mpr ⟨insn, here.mem, dst⟩

theorem SsaProgram.at_of_mem (present : insn ∈ prog.insnsOf block) : ∃ pre, prog.At block pre insn := by
  obtain ⟨pre, post, split⟩ := List.append_of_mem present
  exact ⟨pre, post, split⟩

theorem SsaProgram.insnsOf_eq (present : prog.blocks[block]? = some b) :
    prog.insnsOf block = b.insns := by
  unfold insnsOf
  rw [present]
  rfl

theorem SsaProgram.Available.later (available : prog.Available block pre v) :
    prog.Available block (pre ++ more) v := by
  rcases available with earlier | dominated
  · exact Or.inl (by rw [defs_append]; exact List.mem_append_left _ earlier)
  · exact Or.inr dominated

/-! ### One definition a version -/

section

variable (distinct : (prog.blocks.flatMap fun b => defs b.insns).Nodup)
include distinct

theorem defs_nodup (block : Nat) : (defs (prog.insnsOf block)).Nodup := by
  unfold SsaProgram.insnsOf
  cases present : prog.blocks[block]? with
  | none => exact List.nodup_nil
  | some b => exact (List.nodup_flatMap.mp distinct).1 b (List.mem_of_getElem? present)

/-- A version is defined in one block. -/
theorem block_unique (here : v ∈ defs (prog.insnsOf block)) (there : v ∈ defs (prog.insnsOf block')) :
    block = block' := by
  have apart := (List.nodup_flatMap.mp distinct).2
  have inside : ∀ {d}, v ∈ defs (prog.insnsOf d) → ∃ b, prog.blocks[d]? = some b ∧ v ∈ defs b.insns := by
    intro d present
    unfold SsaProgram.insnsOf at present
    cases found : prog.blocks[d]? with
    | none =>
      rw [found] at present
      cases present
    | some b =>
      rw [found] at present
      exact ⟨b, rfl, present⟩
  obtain ⟨b, first, defined⟩ := inside here
  obtain ⟨b', second, defined'⟩ := inside there
  obtain ⟨_, rfl⟩ := List.getElem?_eq_some_iff.mp first
  obtain ⟨_, rfl⟩ := List.getElem?_eq_some_iff.mp second
  rcases Nat.lt_trichotomy block block' with before | same | after
  · exact absurd defined' (List.pairwise_iff_getElem.mp apart _ _ _ _ before defined)
  · exact same
  · exact absurd defined (List.pairwise_iff_getElem.mp apart _ _ _ _ after defined')

theorem fresh_before (here : prog.At block pre insn) (dst : insn.defDst = some v) : v ∉ defs pre := by
  obtain ⟨post, split⟩ := here
  have nodup := defs_nodup distinct block
  rw [split, defs_append] at nodup
  intro earlier
  exact List.disjoint_of_nodup_append nodup earlier (mem_defs.mpr ⟨insn, List.mem_cons_self, dst⟩)

/-- A version is defined at one place. -/
theorem place_unique (here : prog.At block pre insn) (there : prog.At block' pre' insn')
    (dst : insn.defDst = some v) (dst' : insn'.defDst = some v) :
    block = block' ∧ pre = pre' ∧ insn = insn' := by
  obtain rfl := block_unique distinct (here.dst_mem dst) (there.dst_mem dst')
  have first := fresh_before distinct here dst
  have second := fresh_before distinct there dst'
  obtain ⟨post, split⟩ := here
  obtain ⟨post', split'⟩ := there
  rw [split] at split'
  rcases splits_ordered split' with ⟨same, same'⟩ | earlier | earlier
  · exact ⟨rfl, same, same'⟩
  · exact absurd (mem_defs.mpr ⟨insn, earlier, dst⟩) second
  · exact absurd (mem_defs.mpr ⟨insn', earlier, dst'⟩) first

end

namespace SsaProgram.WellFormed

variable (wf : prog.WellFormed)
include wf

theorem nodup_insnsOf (block : Nat) : (defs (prog.insnsOf block)).Nodup := defs_nodup wf.single block

theorem same_block (here : v ∈ defs (prog.insnsOf block)) (there : v ∈ defs (prog.insnsOf block')) :
    block = block' := block_unique wf.single here there

theorem not_mem_pre (here : prog.At block pre insn) (dst : insn.defDst = some v) : v ∉ defs pre :=
  fresh_before wf.single here dst

theorem same_place (here : prog.At block pre insn) (there : prog.At block' pre' insn')
    (dst : insn.defDst = some v) (dst' : insn'.defDst = some v) :
    block = block' ∧ pre = pre' ∧ insn = insn' := place_unique wf.single here there dst dst'

/-- A version is not available before its definition. -/
theorem not_available (here : prog.At block pre insn) (dst : insn.defDst = some v) :
    ¬ prog.Available block pre v := by
  rintro (earlier | ⟨d, dominates, defined⟩)
  · exact wf.not_mem_pre here dst earlier
  · obtain rfl := wf.same_block defined (here.dst_mem dst)
    exact dominates.irrefl

/-- Whatever dominates the definition of an available version is available too. -/
theorem available_of_precedes (reached : prog.Reaches block) (before : prog.Precedes u v)
    (inside : pre <+: prog.insnsOf block) (available : prog.Available block pre v) :
    prog.Available block pre u := by
  obtain ⟨d, pre', insn, _, there, dst, at_u⟩ := before
  rcases available with earlier | ⟨d', dominates, defined⟩
  · obtain ⟨i, present, dst'⟩ := mem_defs.mp earlier
    obtain ⟨front, back, split⟩ := List.append_of_mem present
    obtain ⟨rest, whole⟩ := inside
    have here : prog.At block front i := ⟨back ++ rest, by rw [← whole, split]; simp⟩
    obtain ⟨rfl, rfl, rfl⟩ := wf.same_place there here dst dst'
    rw [split]
    exact at_u.later
  · obtain rfl := wf.same_block defined (there.dst_mem dst)
    rcases at_u with earlier | ⟨d', dominates', defined'⟩
    · obtain ⟨post, split⟩ := there
      refine Or.inr ⟨_, dominates, ?_⟩
      rw [split, defs_append]
      exact List.mem_append_left _ earlier
    · exact Or.inr ⟨d', dominates'.trans dominates reached, defined'⟩

theorem precedes_irrefl (before : prog.Precedes v v) : False := by
  obtain ⟨_, _, _, _, here, dst, available⟩ := before
  exact wf.not_available here dst available

theorem precedes_trans (first : prog.Precedes u v) (second : prog.Precedes v w) :
    prog.Precedes u w := by
  obtain ⟨block, pre, insn, reached, here, dst, available⟩ := second
  obtain ⟨post, split⟩ := here
  exact ⟨block, pre, insn, reached, ⟨post, split⟩, dst,
    wf.available_of_precedes reached first ⟨insn :: post, split.symm⟩ available⟩

end SsaProgram.WellFormed

/-! ### Reached blocks -/

theorem SsaProgram.Available.defined (available : prog.Available block (prog.insnsOf block) v)
    (reached : prog.Reaches block) : ∃ d, prog.Reaches d ∧ v ∈ defs (prog.insnsOf d) := by
  rcases available with here | ⟨d, dominates, defined⟩
  · exact ⟨block, reached, here⟩
  · exact ⟨d, dominates.reached reached, defined⟩

/-- What is available where a block is left is available at the end of each predecessor or defined
in the block. -/
theorem SsaProgram.Available.pred (flows : prog.Flows p block)
    (available : prog.Available block pre v) :
    v ∈ defs pre ∨ prog.Available p (prog.insnsOf p) v := by
  rcases available with earlier | ⟨d, dominates, defined⟩
  · exact Or.inl earlier
  · rcases dominates.pred flows with rfl | dominates
    · exact Or.inr (Or.inl defined)
    · exact Or.inr (Or.inr ⟨d, dominates, defined⟩)

/-- The entry dominates every other reached block. -/
theorem SsaProgram.entry_dominates (other : prog.entry ≠ block) :
    prog.Dominates prog.entry block := by
  refine ⟨other, fun path => ?_⟩
  have never : ∀ {x}, Avoiding prog.Flows prog.entry prog.entry x → False := by
    intro x path
    induction path with
    | root other => exact other rfl
    | step _ _ _ ih => exact ih
  exact never path

theorem SsaProgram.not_dominates_entry {d : Nat} : ¬ prog.Dominates d prog.entry :=
  StrictlyDominates.not_root

end EbpfLab.Ssa
