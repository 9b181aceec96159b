import EbpfLab.Cfg.Order
import EbpfLab.Ssa.Construct
import EbpfLab.Ssa.Regular
import Mathlib.Data.List.Perm.Subperm
import Mathlib.Logic.Relation

/-!
# Built programs

The builder emits instructions that define the next fresh version or none and that jump along the
edges of their block, fills in phis, and marks the blocks it visits. So what `build_ssa` yields is
regular, optimized or not.
-/

namespace EbpfLab.Ssa
open Isa FlowGraph Relation

variable {petgraph : Petgraph}
  {xs ys zs : List SsaInsn} {insn i i' : SsaInsn} {v : SsaValue} {b b' b'' : Builder} {cfg : Cfg}
  {block pos pc fuel : Nat} {reg : Reg} {insns : List Insn} {prog prog' : SsaProgram}

/-! ### The builder -/

namespace Builder

/-- The instructions emitted so far. -/
def emitted (b : Builder) : List SsaInsn := b.heads.flatten ++ b.bodies.flatten

end Builder

/-- A phi with other inputs, or the same instruction. -/
def Refilled (i i' : SsaInsn) : Prop :=
  i' = i ∨ ∃ dst inputs inputs', i = .phi dst inputs ∧ i' = .phi dst inputs'

/-- What the builder does to its program: fill in a phi, emit an instruction, or mark a block. -/
inductive Edit (cfg : Cfg) (b b' : Builder) : Prop where
  | refill (heads : List.Forall₂ (List.Forall₂ Refilled) b.heads b'.heads) (bodies : b'.bodies = b.bodies)
      (next : b.next ≤ b'.next) (live : b'.live = b.live)
  | head (block : Nat) (insn : SsaInsn) (heads : b'.heads = b.heads.modify block (· ++ [insn]))
      (bodies : b'.bodies = b.bodies) (plain : insn.isPseudo = false) (straight : insn.isControl = false)
      (next : b.next ≤ b'.next) (dst : ∀ v, insn.defDst = some v → b.next ≤ v ∧ v < b'.next)
      (live : b'.live = b.live)
  | body (block : Nat) (insn : SsaInsn) (heads : b'.heads = b.heads)
      (bodies : b'.bodies = b.bodies.modify block (· ++ [insn])) (plain : insn.isPseudo = false)
      (jumps : ∀ e ∈ insn.jumpEdges block, e ∈ cfg.edges)
      (next : b.next ≤ b'.next) (dst : ∀ v, insn.defDst = some v → b.next ≤ v ∧ v < b'.next)
      (live : b'.live = b.live)
  | mark (node : Nat) (heads : b'.heads = b.heads) (bodies : b'.bodies = b.bodies) (next : b'.next = b.next)
      (live : b'.live = b.live.set node true)

abbrev Edits (cfg : Cfg) : Builder → Builder → Prop := ReflTransGen (Edit cfg)

/-- The versions emitted are those minted. -/
structure Minted (b : Builder) : Prop where
  below : ∀ v ∈ defs b.emitted, v < b.next
  distinct : Distinct b.emitted

theorem refilled_refl : List.Forall₂ Refilled xs xs := List.forall₂_same.mpr fun _ _ => Or.inl rfl

theorem refilled_stays (refilled : Refilled i i') : Stays i i' := by
  rcases refilled with rfl | ⟨dst, inputs, inputs', rfl, rfl⟩
  · exact .refl _
  · exact ⟨⟨rfl, rfl, rfl, fun _ => rfl, rfl, id⟩, fun pseudo => by cases pseudo⟩

theorem flatten_modify_append {α : Type} (lists : List (List α)) (i : Nat) (a : α) :
    (lists.modify i (· ++ [a])).flatten.Subperm (a :: lists.flatten) := by
  induction lists generalizing i with
  | nil =>
    rw [List.modify_nil]
    exact (List.nil_sublist _).subperm
  | cons list lists ih =>
    cases i with
    | zero =>
      refine List.Perm.subperm ?_
      simp only [List.modify_zero_cons, List.flatten_cons, List.append_assoc]
      exact List.perm_middle
    | succ i =>
      simp only [List.modify_succ_cons, List.flatten_cons]
      exact ((List.subperm_append_left list).mpr (ih i)).trans List.perm_middle.subperm

theorem Minted.emit (minted : Minted b) (emitted : b'.emitted.Subperm (insn :: b.emitted))
    (plain : insn.isPseudo = false) (next : b.next ≤ b'.next)
    (dst : ∀ v, insn.defDst = some v → b.next ≤ v ∧ v < b'.next) : Minted b' := by
  have fresh : ∀ v, insn.defDst = some v → v ∉ defs b.emitted := fun v defines defined =>
    absurd (minted.below v defined) (Nat.not_lt.mpr (dst v defines).1)
  obtain ⟨kept, perm, sub⟩ := emitted
  refine ⟨fun v defined => ?_,
    ((minted.distinct.cons plain fresh).thinned (.of_sublist sub)).perm perm.symm⟩
  obtain ⟨i, present, defines⟩ := mem_defs.mp defined
  rcases List.mem_cons.mp (sub.subset (perm.mem_iff.mpr present)) with rfl | earlier
  · exact (dst v defines).2
  · exact (minted.below v (mem_defs.mpr ⟨i, earlier, defines⟩)).trans_le next

theorem flatten_refilled {lists lists' : List (List SsaInsn)}
    (each : List.Forall₂ (List.Forall₂ Refilled) lists lists') :
    List.Forall₂ Refilled lists.flatten lists'.flatten := by
  induction each with
  | nil => exact .nil
  | cons first _ ih => exact List.rel_append first ih

theorem Edit.minted (edit : Edit cfg b b') (minted : Minted b) : Minted b' := by
  cases edit with
  | refill heads bodies next _ =>
    have thinned : Thinned Stays (fun _ => True) b.emitted b'.emitted := by
      unfold Builder.emitted
      rw [bodies]
      exact .of_forall₂ ((List.rel_append (flatten_refilled heads) refilled_refl).imp
        fun _ _ => refilled_stays)
    exact ⟨fun v defined => (minted.below v (thinned.defs_sublist.subset defined)).trans_le next,
      minted.distinct.thinned thinned⟩
  | head block insn heads bodies plain _ next dst _ =>
    refine minted.emit ?_ plain next dst
    unfold Builder.emitted
    rw [heads, bodies]
    exact (List.subperm_append_right b.bodies.flatten).mpr (flatten_modify_append b.heads block insn)
  | body block insn heads bodies plain _ next dst _ =>
    refine minted.emit ?_ plain next dst
    unfold Builder.emitted
    rw [heads, bodies]
    exact ((List.subperm_append_left b.heads.flatten).mpr
      (flatten_modify_append b.bodies block insn)).trans List.perm_middle.subperm
  | mark node heads bodies next _ =>
    have same : b'.emitted = b.emitted := by
      unfold Builder.emitted
      rw [heads, bodies]
    exact ⟨fun v defined => next ▸ minted.below v (by rwa [same] at defined), by
      rw [same]
      exact minted.distinct⟩

theorem Edits.minted (edits : Edits cfg b b') (minted : Minted b) : Minted b' := by
  induction edits with
  | refl => exact minted
  | tail _ edit ih => exact edit.minted ih

/-- Control ops stand in the bodies, and jump along the edges of their block. -/
structure Routed (cfg : Cfg) (b : Builder) : Prop where
  heads : ∀ (block : Nat) (head : List SsaInsn), b.heads[block]? = some head →
    ∀ i ∈ head, i.isControl = false
  bodies : ∀ (block : Nat) (body : List SsaInsn), b.bodies[block]? = some body →
    ∀ i ∈ body, ∀ e ∈ i.jumpEdges block, e ∈ cfg.edges

/-- What stands in an extended list is new or stood there before. -/
theorem mem_modify_append {α : Type} {lists : List (List α)} {i k : Nat} {a x : α} {list : List α}
    (found : (lists.modify i (· ++ [a]))[k]? = some list) (present : x ∈ list) :
    (x = a ∧ k = i) ∨ ∃ old, lists[k]? = some old ∧ x ∈ old := by
  rw [List.getElem?_modify] at found
  obtain ⟨old, there, rfl⟩ := Option.map_eq_some_iff.mp found
  split at present
  · rename_i same
    rcases List.mem_append.mp present with earlier | new
    · exact Or.inr ⟨old, there, earlier⟩
    · exact Or.inl ⟨List.mem_singleton.mp new, same.symm⟩
  · exact Or.inr ⟨old, there, present⟩

theorem Edit.routed (edit : Edit cfg b b') (routed : Routed cfg b) : Routed cfg b' := by
  cases edit with
  | refill heads bodies _ _ =>
    refine ⟨fun block head found i present => ?_, by rw [bodies]; exact routed.bodies⟩
    obtain ⟨inside, rfl⟩ := List.getElem?_eq_some_iff.mp found
    have inside₀ : block < b.heads.length := by rwa [heads.length_eq]
    have each := (List.forall₂_iff_get.mp heads).2 block inside₀ inside
    obtain ⟨k, there, rfl⟩ := List.mem_iff_getElem.mp present
    have there₀ : k < (b.heads.get ⟨block, inside₀⟩).length := by rwa [each.length_eq]
    have shape := refilled_stays ((List.forall₂_iff_get.mp each).2 k there₀ there)
    exact shape.isControl.trans (routed.heads block _ (List.getElem?_eq_getElem inside₀) _ (List.get_mem _ _))
  | head block insn heads bodies _ straight _ _ _ =>
    refine ⟨fun k head found i present => ?_, by rw [bodies]; exact routed.bodies⟩
    rw [heads] at found
    rcases mem_modify_append found present with ⟨rfl, _⟩ | ⟨old, there, earlier⟩
    · exact straight
    · exact routed.heads k old there i earlier
  | body block insn heads bodies _ jumps _ _ _ =>
    refine ⟨by rw [heads]; exact routed.heads, fun k body found i present => ?_⟩
    rw [bodies] at found
    rcases mem_modify_append found present with ⟨rfl, rfl⟩ | ⟨old, there, earlier⟩
    · exact jumps
    · exact routed.bodies k old there i earlier
  | mark node heads bodies _ _ => exact ⟨by rw [heads]; exact routed.heads, by rw [bodies]; exact routed.bodies⟩

theorem Edits.routed (edits : Edits cfg b b') (routed : Routed cfg b) : Routed cfg b' := by
  induction edits with
  | refl => exact routed
  | tail _ edit ih => exact edit.routed ih

/-- A live block stays live. -/
theorem Edits.live (edits : Edits cfg b b') : b'.live.length = b.live.length ∧
    ∀ node : Nat, b.live[node]? = some true → b'.live[node]? = some true := by
  induction edits with
  | refl => exact ⟨rfl, fun _ => id⟩
  | tail _ edit ih =>
    obtain ⟨long, kept⟩ := ih
    cases edit with
    | mark marked _ _ _ live =>
      refine ⟨by rw [live, List.length_set, long], fun node old => ?_⟩
      rw [live, List.getElem?_set]
      split
      · rename_i same
        subst same
        rw [if_pos (List.getElem?_eq_some_iff.mp (kept _ old)).1]
      · exact kept node old
    | _ => simp_all only [implies_true, and_self]

/-! ### Its steps -/

theorem modify_refill_heads {lists : List (List SsaInsn)} {f : List SsaInsn → List SsaInsn}
    (each : ∀ list, List.Forall₂ Refilled list (f list)) :
    List.Forall₂ (List.Forall₂ Refilled) lists (lists.modify block f) := by
  induction lists generalizing block with
  | nil =>
    rw [List.modify_nil]
    exact .nil
  | cons list lists ih =>
    cases block with
    | zero => exact .cons (each list) (List.forall₂_same.mpr fun _ _ => refilled_refl)
    | succ block => exact .cons refilled_refl ih

theorem modify_refill {f : SsaInsn → SsaInsn} (each : ∀ i, Refilled i (f i)) :
    List.Forall₂ Refilled xs (xs.modify pos f) := by
  induction xs generalizing pos with
  | nil =>
    rw [List.modify_nil]
    exact .nil
  | cons i xs ih =>
    cases pos with
    | zero => exact .cons (each i) refilled_refl
    | succ pos => exact .cons (Or.inl rfl) ih

theorem edits_same (heads : b'.heads = b.heads) (bodies : b'.bodies = b.bodies) (next : b'.next = b.next)
    (live : b'.live = b.live) : Edits cfg b b' :=
  .single (.refill (by rw [heads]; exact List.forall₂_same.mpr fun _ _ => refilled_refl) bodies next.ge live)

namespace Builder

@[simp] theorem record_heads {isHead : Bool} : (b.record block isHead pos insn).heads = b.heads := by
  unfold record
  split <;> rfl

@[simp] theorem record_bodies {isHead : Bool} : (b.record block isHead pos insn).bodies = b.bodies := by
  unfold record
  split <;> rfl

@[simp] theorem record_next {isHead : Bool} : (b.record block isHead pos insn).next = b.next := by
  unfold record
  split <;> rfl

@[simp] theorem record_live {isHead : Bool} : (b.record block isHead pos insn).live = b.live := by
  unfold record
  split <;> rfl

/-- An instruction in a body that defines the version minted, if any. -/
theorem emitBody_edits (plain : insn.isPseudo = false) (jumps : ∀ e ∈ insn.jumpEdges block, e ∈ cfg.edges)
    (later : b.next ≤ b'.next) (dst : ∀ v, insn.defDst = some v → b.next ≤ v ∧ v < b'.next)
    (heads : b'.heads = b.heads) (bodies : b'.bodies = b.bodies) (live : b'.live = b.live) :
    Edits cfg b (b'.emitBody block insn) :=
  .single (.body block insn (by simpa [emitBody]) (by simp [emitBody, bodies]) plain jumps
    (by simpa [emitBody]) (by simpa [emitBody] using dst) (by simpa [emitBody]))

/-- An instruction without a version. -/
theorem emitPlain_edits (plain : insn.isPseudo = false) (unnamed : insn.defDst = none)
    (jumps : ∀ e ∈ insn.jumpEdges block, e ∈ cfg.edges) : Edits cfg b (b.emitBody block insn) :=
  emitBody_edits plain jumps (Nat.le_refl _) (fun v defines => by rw [unnamed] at defines; cases defines)
    rfl rfl rfl

theorem define_edits {make : SsaValue → SsaInsn} (plain : ∀ v, (make v).isPseudo = false)
    (straight : ∀ v, (make v).jumpEdges block = []) (dst : ∀ v, (make v).defDst = some v) :
    Edits cfg b (b.define block reg make) := by
  have emits : Edits cfg b ((b.fresh.2).emitBody block (make b.next)) :=
    emitBody_edits (plain _) (fun e jumps => by rw [straight] at jumps; cases jumps) (Nat.le_succ _)
      (fun v defines => by rw [dst] at defines; cases defines; exact ⟨Nat.le_refl _, Nat.lt_succ_self _⟩)
      rfl rfl rfl
  exact emits.trans (edits_same rfl rfl rfl rfl)

theorem addInput_edits {input : Pred × SsaValue} : Edits cfg b (b.addInput block pos input) := by
  refine .single (.refill (modify_refill_heads fun head => modify_refill fun i => ?_) rfl (Nat.le_refl _) rfl)
  cases i with
  | phi dst inputs => exact Or.inr ⟨dst, inputs, _, rfl, rfl⟩
  | _ => exact Or.inl rfl

theorem mintPhi_edits : Edits cfg b (b.mintPhi cfg block reg).2.2 := by
  have emits : Edits cfg b (((b.fresh.2).setCurrent block reg b.next).emitHead block (.phi b.next [])) :=
    .single (.head block (.phi b.next []) (by simp [emitHead, setCurrent, fresh])
      (by simp [emitHead, setCurrent, fresh]) rfl rfl (by simp [emitHead, setCurrent, fresh])
      (fun v defines => by
        cases defines
        exact ⟨Nat.le_refl _, by simp [emitHead, setCurrent, fresh]⟩)
      (by simp [emitHead, setCurrent, fresh]))
  unfold mintPhi
  dsimp only
  split
  · exact emits.trans addInput_edits
  · exact emits

/-! ### Reads -/

theorem foldlM_edits {α : Type} {f : Builder → α → Option Builder} {as : List α}
    (each : ∀ b a b', f b a = some b' → Edits cfg b b') (done : as.foldlM f b = some b') : Edits cfg b b' := by
  induction as generalizing b with
  | nil =>
    cases done
    exact .refl
  | cons a as ih =>
    rw [List.foldlM_cons] at done
    obtain ⟨mid, first, rest⟩ := Option.bind_eq_some_iff.mp done
    exact (each b a mid first).trans (ih rest)

section

variable {read : Read} (reads : ∀ b block reg v b', read b block reg = some (v, b') → Edits cfg b b')
include reads

theorem completePhi_edits (done : completePhi cfg read b block pos reg = some b') : Edits cfg b b' := by
  refine foldlM_edits (fun b pred b' step => ?_) done
  obtain ⟨⟨operand, mid⟩, found, step⟩ := Option.bind_eq_some_iff.mp step
  have first := reads _ _ _ _ _ found
  dsimp only at step
  split at step
  · cases step
    exact first.trans addInput_edits
  · cases step
    exact (first.trans addInput_edits).trans (edits_same rfl rfl rfl rfl)

theorem merge_edits (done : merge cfg read b block reg = some (v, b')) : Edits cfg b b' := by
  obtain ⟨mid, completed, same⟩ := Option.bind_eq_some_iff.mp done
  cases same
  exact mintPhi_edits.trans (completePhi_edits reads completed)

theorem follow_edits {pred : Nat} (done : follow read b block pred reg = some (v, b')) : Edits cfg b b' := by
  obtain ⟨⟨value, mid⟩, found, same⟩ := Option.bind_eq_some_iff.mp done
  cases same
  exact (reads _ _ _ _ _ found).trans (edits_same rfl rfl rfl rfl)

theorem resolveUncached_edits (done : resolveUncached cfg read b block reg = some (v, b')) : Edits cfg b b' := by
  unfold resolveUncached at done
  split at done
  · cases done
    exact mintPhi_edits.trans (edits_same rfl rfl rfl rfl)
  · split at done
    · split at done
      · cases done
        exact edits_same rfl rfl rfl rfl
      · split at done
        · exact follow_edits reads done
        · exact merge_edits reads done
    · exact merge_edits reads done

theorem readRecursive_edits (done : readRecursive cfg read b block reg = some (v, b')) : Edits cfg b b' := by
  unfold readRecursive at done
  split at done
  · exact merge_edits reads done
  · obtain ⟨⟨value, mid⟩, found, same⟩ := Option.bind_eq_some_iff.mp done
    cases same
    have entered : Edits cfg b { b with resolving := (block, reg) :: b.resolving } := edits_same rfl rfl rfl rfl
    exact (entered.trans (resolveUncached_edits reads found)).trans (edits_same rfl rfl rfl rfl)

end

theorem read_edits (done : read cfg fuel b block reg = some (v, b')) : Edits cfg b b' := by
  induction fuel generalizing b block reg v b' with
  | zero => cases done
  | succ fuel ih =>
    rw [read] at done
    dsimp only at done
    split at done
    · cases done
      exact .refl
    · exact readRecursive_edits (fun _ _ _ _ _ found => ih found) done

/-! ### Filling -/

theorem seal_edits (done : «seal» cfg fuel b block = some b') : Edits cfg b b' := by
  obtain ⟨mid, completed, same⟩ := Option.bind_eq_some_iff.mp done
  cases same
  have entered : Edits cfg b { b with
      sealing := b.sealing.set block true
      incomplete := b.incomplete.set block [] } := edits_same rfl rfl rfl rfl
  have pending := foldlM_edits
    (fun _ _ _ step => completePhi_edits (fun _ _ _ _ _ found => read_edits found) step) completed
  exact (entered.trans pending).trans (edits_same rfl rfl rfl rfl)

theorem operand_edits {src : Operand} {o : SsaOperand} (done : operand cfg fuel b block src = some (o, b')) :
    Edits cfg b b' := by
  cases src with
  | reg r =>
    obtain ⟨⟨value, mid⟩, found, same⟩ := Option.bind_eq_some_iff.mp done
    cases same
    exact read_edits found
  | imm k =>
    cases done
    exact .refl

theorem fillAlu_edits {width : Width} {op : AluOp} {dst : Reg} {src : Operand}
    (done : fillAlu cfg fuel b block width op dst src = some b') : Edits cfg b b' := by
  unfold fillAlu at done
  split at done
  · cases done
    exact .refl
  · dsimp only at done
    split at done
    · obtain ⟨⟨value, mid⟩, found, same⟩ := Option.bind_eq_some_iff.mp done
      cases same
      exact (read_edits found).trans (define_edits (fun _ => rfl) (fun _ => rfl) fun _ => rfl)
    · obtain ⟨⟨lhs, mid⟩, left, done⟩ := Option.bind_eq_some_iff.mp done
      obtain ⟨⟨rhs, last⟩, right, done⟩ := Option.bind_eq_some_iff.mp done
      refine ((read_edits left).trans (operand_edits right)).trans ?_
      dsimp only at done
      split at done
      · cases done
        exact emitBody_edits rfl (fun _ absent => absurd absent List.not_mem_nil) (Nat.le_succ _)
          (fun v defines => by cases defines; exact ⟨Nat.le_refl _, Nat.lt_succ_self _⟩) rfl rfl rfl
      · cases done
        exact define_edits (fun _ => rfl) (fun _ => rfl) fun _ => rfl

/-- A branch target is that of an edge of its kind. -/
theorem jumpTargets_edge {kind : EdgeKind} {t : Nat}
    (target : ((cfg.outEdges block).filter fun e => e.kind == kind).getLast?.map Edge.target = some t) :
    ⟨block, t, kind⟩ ∈ cfg.edges := by
  obtain ⟨e, last, rfl⟩ := Option.map_eq_some_iff.mp target
  obtain ⟨out, same⟩ := List.mem_filter.mp (List.mem_of_getLast? last)
  obtain ⟨present, source⟩ := Cfg.mem_outEdges.mp out
  rw [← source, ← (by simpa using same : e.kind = kind)]
  exact present

theorem fillInsn_edits {insn : Insn} (done : fillInsn cfg fuel b block pc insn = some (.ok b')) :
    Edits cfg b b' := by
  unfold fillInsn at done
  split at done
  · obtain ⟨mid, filled, same⟩ := Option.map_eq_some_iff.mp done
    cases same
    exact fillAlu_edits filled
  · split at done
    · cases done
      exact .refl
    · cases done
      exact define_edits (fun _ => rfl) (fun _ => rfl) fun _ => rfl
  · obtain ⟨⟨base, mid⟩, found, done⟩ := Option.bind_eq_some_iff.mp done
    refine (read_edits found).trans ?_
    dsimp only at done
    split at done
    · cases done
      exact emitPlain_edits rfl rfl fun _ absent => absurd absent List.not_mem_nil
    · cases done
      exact define_edits (fun _ => rfl) (fun _ => rfl) fun _ => rfl
  · obtain ⟨⟨base, mid⟩, left, done⟩ := Option.bind_eq_some_iff.mp done
    obtain ⟨⟨src, last⟩, right, done⟩ := Option.bind_eq_some_iff.mp done
    cases done
    exact ((read_edits left).trans (operand_edits right)).trans (emitPlain_edits rfl rfl fun _ absent => absurd absent List.not_mem_nil)
  · obtain ⟨e, found, done⟩ := Option.bind_eq_some_iff.mp done
    cases done
    refine emitPlain_edits rfl rfl fun e' jumps => ?_
    obtain ⟨present, source⟩ := Cfg.mem_outEdges.mp (List.mem_of_find?_eq_some found)
    obtain rfl := List.mem_singleton.mp jumps
    have kind : e.kind = .unconditional := by simpa using List.find?_some found
    rw [← source, ← kind]
    exact present
  · obtain ⟨⟨lhs, mid⟩, left, done⟩ := Option.bind_eq_some_iff.mp done
    obtain ⟨⟨rhs, last⟩, right, done⟩ := Option.bind_eq_some_iff.mp done
    cases done
    refine ((read_edits left).trans (operand_edits right)).trans (emitPlain_edits rfl rfl fun e jumps => ?_)
    rcases List.mem_append.mp jumps with taken | untaken
    · obtain ⟨t, target, rfl⟩ := Option.map_eq_some_iff.mp (Option.mem_toList.mp taken)
      exact jumpTargets_edge target
    · obtain ⟨t, target, rfl⟩ := Option.map_eq_some_iff.mp (Option.mem_toList.mp untaken)
      exact jumpTargets_edge target
  · obtain ⟨⟨a1, b1⟩, r1, done⟩ := Option.bind_eq_some_iff.mp done
    obtain ⟨⟨a2, b2⟩, r2, done⟩ := Option.bind_eq_some_iff.mp done
    obtain ⟨⟨a3, b3⟩, r3, done⟩ := Option.bind_eq_some_iff.mp done
    obtain ⟨⟨a4, b4⟩, r4, done⟩ := Option.bind_eq_some_iff.mp done
    obtain ⟨⟨a5, b5⟩, r5, done⟩ := Option.bind_eq_some_iff.mp done
    cases done
    exact (((((read_edits r1).trans (read_edits r2)).trans (read_edits r3)).trans
      (read_edits r4)).trans (read_edits r5)).trans (define_edits (fun _ => rfl) (fun _ => rfl) fun _ => rfl)
  · obtain ⟨⟨r0, mid⟩, found, done⟩ := Option.bind_eq_some_iff.mp done
    cases done
    exact (read_edits found).trans (emitPlain_edits rfl rfl fun _ absent => absurd absent List.not_mem_nil)
  · cases done

theorem fillFrom_edits (done : fillFrom cfg fuel b block pc insns = some (.ok b')) : Edits cfg b b' := by
  induction insns generalizing b pc with
  | nil =>
    cases done
    exact .refl
  | cons insn rest ih =>
    obtain ⟨result, filled, done⟩ := Option.bind_eq_some_iff.mp done
    cases result with
    | error e => cases done
    | ok mid => exact (fillInsn_edits filled).trans (ih done)

theorem visit_marked {node : Nat} (done : visit cfg fuel insns b node = some (.ok b')) :
    Edits cfg { b with live := b.live.set node true } b' := by
  unfold visit at done
  dsimp only at done
  obtain ⟨result, filled, done⟩ := Option.bind_eq_some_iff.mp done
  cases result with
  | error e => cases done
  | ok mid =>
    obtain ⟨last, sealed_, same⟩ := Option.bind_eq_some_iff.mp done
    cases same
    have closed : Edits cfg mid { mid with filled := mid.filled.set node true } := edits_same rfl rfl rfl rfl
    refine ReflTransGen.trans ?_ (((fillFrom_edits filled).trans closed).trans (seal_edits sealed_))
    split <;> exact edits_same rfl rfl rfl rfl

theorem visit_edits {node : Nat} (done : visit cfg fuel insns b node = some (.ok b')) : Edits cfg b b' := by
  have marks : Edits cfg b { b with live := b.live.set node true } := .single (.mark node rfl rfl rfl rfl)
  exact marks.trans (visit_marked done)

theorem visitAll_edits {nodes : List Nat} (done : visitAll cfg fuel insns b nodes = some (.ok b')) :
    Edits cfg b b' := by
  induction nodes generalizing b with
  | nil =>
    cases done
    exact .refl
  | cons node rest ih =>
    obtain ⟨result, visited, done⟩ := Option.bind_eq_some_iff.mp done
    cases result with
    | error e => cases done
    | ok mid => exact (visit_edits visited).trans (ih done)

theorem visitAll_live {nodes : List Nat} (done : visitAll cfg fuel insns b nodes = some (.ok b'))
    {node : Nat} (visited : node ∈ nodes) (inside : node < b.live.length) : b'.live[node]? = some true := by
  induction nodes generalizing b with
  | nil => cases visited
  | cons first rest ih =>
    obtain ⟨result, filled, others⟩ := Option.bind_eq_some_iff.mp done
    cases result with
    | error e => cases others
    | ok mid =>
      rcases List.mem_cons.mp visited with rfl | later
      · have marked := (Edits.live (visit_marked filled)).2 node (by simp [inside])
        have later : Edits cfg mid b' := visitAll_edits others
        exact (Edits.live later).2 node marked
      · exact ih others later (by rwa [(Edits.live (visit_edits filled)).1])

/-! ### From the prelude to the program -/

theorem prelude_regs (regs : List Reg) : Edits cfg b (regs.foldl
    (fun b r => if !entryLoop cfg || r.isFramePtr then b.setCurrent cfg.entry r (b.entryEnv r) else b) b) := by
  induction regs generalizing b with
  | nil => exact .refl
  | cons r regs ih =>
    refine ReflTransGen.trans ?_ ih
    dsimp only
    split
    · exact edits_same rfl rfl rfl rfl
    · exact .refl

theorem prelude_live : ((new cfg).prelude cfg).live.length = cfg.blocks.length := by
  unfold prelude
  rw [(Edits.live (prelude_regs _)).1]
  exact List.length_replicate

theorem prelude_minted : Minted ((new cfg).prelude cfg) := by
  have distinct : Distinct [.entryCtx 2, .framePtr 1, .const 0 0] := by
    refine ⟨by decide, fun u v left right => ?_, fun u v left right => ?_⟩
    · simp only [List.mem_cons, SsaInsn.framePtr.injEq, reduceCtorEq, false_or, or_false,
        List.not_mem_nil] at left right
      rw [left, right]
    · simp only [List.mem_cons, SsaInsn.entryCtx.injEq, reduceCtorEq, or_false,
        List.not_mem_nil] at left right
      rw [left, right]
  refine Edits.minted (prelude_regs _) ?_
  generalize started : emitHead _ _ _ = b
  have heads : b.heads = (((List.replicate cfg.blocks.length []).modify cfg.entry (· ++ [.const 0 0])).modify
      cfg.entry (· ++ [.framePtr 1])).modify cfg.entry (· ++ [.entryCtx 2]) := by rw [← started]; rfl
  have bodies : b.bodies = List.replicate cfg.blocks.length [] := by rw [← started]; rfl
  have next : b.next = 3 := by rw [← started]; rfl
  have few : b.emitted.Subperm [.entryCtx 2, .framePtr 1, .const 0 0] := by
    unfold emitted
    rw [heads, bodies, List.flatten_replicate_nil, List.append_nil]
    refine (flatten_modify_append _ _ _).trans ((List.subperm_cons _).mpr ?_)
    refine (flatten_modify_append _ _ _).trans ((List.subperm_cons _).mpr ?_)
    refine (flatten_modify_append _ _ _).trans ?_
    rw [List.flatten_replicate_nil]
  obtain ⟨listed, perm, sub⟩ := few
  refine ⟨fun v defined => ?_, (distinct.thinned (.of_sublist sub)).perm perm.symm⟩
  obtain ⟨i, present, defines⟩ := mem_defs.mp defined
  have early := sub.subset (perm.mem_iff.mpr present)
  simp only [List.mem_cons, List.not_mem_nil, or_false] at early
  rw [next]
  rcases early with rfl | rfl | rfl <;> cases defines <;> decide

theorem repair_edits : Edits cfg b b.repair := by
  unfold repair
  have entered : Edits cfg b { b with stale := [] } := edits_same rfl rfl rfl rfl
  refine entered.trans ?_
  generalize b.stale = listed
  generalize ({ b with stale := [] } : Builder) = start
  induction listed generalizing start with
  | nil => exact .refl
  | cons s listed ih =>
    refine ReflTransGen.trans ?_ (ih _)
    dsimp only
    split
    · split
      · refine .single (.refill (modify_refill_heads fun head => modify_refill fun i => ?_) rfl
          (Nat.le_refl _) rfl)
        cases i with
        | phi dst inputs => exact Or.inr ⟨dst, inputs, _, rfl, rfl⟩
        | _ => exact Or.inl rfl
      · exact .refl
    · exact .refl

theorem flatMap_getD_sublist {α : Type} (lists : List (List α)) (n : Nat) :
    ((List.range n).flatMap fun i => lists.getD i []).Sublist lists.flatten := by
  induction lists generalizing n with
  | nil => simp
  | cons list lists ih =>
    cases n with
    | zero => exact List.nil_sublist _
    | succ n =>
      rw [List.range_succ_eq_map, List.flatMap_cons, List.flatMap_map, List.flatten_cons]
      exact (List.Sublist.refl list).append (ih n)

theorem finish_distinct (minted : Minted b) : Distinct (b.finish cfg).code := by
  have blocks : (b.finish cfg).code =
      (List.range cfg.blocks.length).flatMap fun i => b.heads.getD i [] ++ b.bodies.getD i [] := by
    unfold SsaProgram.code finish
    rw [List.flatMap_map]
  rw [blocks]
  refine Distinct.perm ?_ (List.flatMap_append_perm _ _ _).symm
  exact minted.distinct.thinned
    (.of_sublist ((flatMap_getD_sublist b.heads _).append (flatMap_getD_sublist b.bodies _)))

theorem prelude_routed : Routed cfg ((new cfg).prelude cfg) := by
  refine Edits.routed (prelude_regs _) ?_
  generalize started : emitHead _ _ _ = b
  have heads : b.heads = (((List.replicate cfg.blocks.length []).modify cfg.entry (· ++ [.const 0 0])).modify
      cfg.entry (· ++ [.framePtr 1])).modify cfg.entry (· ++ [.entryCtx 2]) := by rw [← started]; rfl
  have bodies : b.bodies = List.replicate cfg.blocks.length [] := by rw [← started]; rfl
  have empty : ∀ {k : Nat} {list : List SsaInsn}, (List.replicate cfg.blocks.length [])[k]? = some list →
      list = [] := fun found => (List.eq_of_mem_replicate (List.mem_of_getElem? found))
  refine ⟨fun k head found i present => ?_, fun k body found i present => ?_⟩
  · rw [heads] at found
    rcases mem_modify_append found present with ⟨rfl, _⟩ | ⟨second, found, present⟩
    · rfl
    rcases mem_modify_append found present with ⟨rfl, _⟩ | ⟨first, found, present⟩
    · rfl
    rcases mem_modify_append found present with ⟨rfl, _⟩ | ⟨start, found, present⟩
    · rfl
    · rw [empty found] at present
      cases present
  · rw [bodies] at found
    rw [empty found] at present
    cases present

theorem jumpEdges_straight (straight : insn.isControl = false) : insn.jumpEdges block = [] := by
  cases insn <;> first | rfl | cases straight

/-- A builder that has visited the reverse postorder yields a regular program. -/
theorem finish_regular {targets : List (Option Nat)} (graph : Ordered insns cfg targets) (minted : Minted b)
    (routed : Routed cfg b) (visited : ∀ node ∈ cfg.rpo, node < cfg.blocks.length → b.live[node]? = some true) :
    Regular (b.finish cfg) := by
  have long : (b.finish cfg).blocks.length = cfg.blocks.length := by simp [finish]
  have entry : cfg.entry < cfg.blocks.length := graph.entry_inside
  have listed : ∀ node, (b.finish cfg).Reaches node → node ∈ cfg.rpo := by
    intro node reached
    refine (graph.mem_rpo node).mpr ?_
    induction reached with
    | root => exact .root
    | step _ flows ih =>
      obtain ⟨e, present, source, rfl, _⟩ := mem_liveSuccessors.mp flows
      exact ih.step (mem_neighbors.mpr ⟨e, present, source, rfl⟩)
  refine ⟨finish_distinct minted, by rw [long]; exact entry, ?_, ?_, ?_⟩
  · rw [long]
    exact fun e present => (graph.edge_inside present).2
  · intro node reached
    have inside := graph.rpo_inside (listed node reached)
    simp [SsaProgram.isLive, finish, inside, visited node (listed node reached) inside]
  · intro node i present e jumps
    have split : (b.finish cfg).insnsOf node = [] ∨
        (b.finish cfg).insnsOf node = b.heads.getD node [] ++ b.bodies.getD node [] := by
      by_cases inside : node < cfg.blocks.length
      · exact Or.inr (by simp [SsaProgram.insnsOf, finish, inside])
      · exact Or.inl (by simp [SsaProgram.insnsOf, finish, inside])
    rcases split with none_ | both
    · rw [none_] at present
      cases present
    · rw [both] at present
      rcases List.mem_append.mp present with inHead | inBody
      · cases found : b.heads[node]? with
        | none => simp [found] at inHead
        | some head =>
          rw [jumpEdges_straight (routed.heads node head found i (by simpa [found] using inHead))] at jumps
          cases jumps
      · cases found : b.bodies[node]? with
        | none => simp [found] at inBody
        | some body => exact routed.bodies node body found i (by simpa [found] using inBody) e jumps

end Builder

/-! ### Programs of the builder -/

/-- A program that `build_ssa` yields, optimized or not. -/
inductive Produced : SsaProgram → Prop where
  | built {petgraph : Petgraph} {insns : List Insn} {cfg : Cfg} {fuel : Nat} {prog : SsaProgram}
      (documented : petgraph.Documented) (graph : buildCfg petgraph insns = .ok cfg)
      (built : buildSsaWith fuel insns cfg = some (.ok prog)) : Produced prog
  | optimized {prog prog' : SsaProgram} {rounds : Nat} (produced : Produced prog)
      (optimized : optimize rounds prog = some prog') : Produced prog'

theorem buildSsaWith_regular (documented : petgraph.Documented) (graph : buildCfg petgraph insns = .ok cfg)
    (built : buildSsaWith fuel insns cfg = some (.ok prog)) : Regular prog := by
  obtain ⟨targets, graph⟩ := buildCfg_ordered documented graph
  unfold buildSsaWith at built
  split at built
  · cases built
  · obtain ⟨result, visited, done⟩ := Option.bind_eq_some_iff.mp built
    cases result with
    | error e => cases done
    | ok b =>
      cases done
      have edits : Edits cfg ((Builder.new cfg).prelude cfg) b.repair :=
        (Builder.visitAll_edits visited).trans Builder.repair_edits
      refine Builder.finish_regular graph (edits.minted Builder.prelude_minted)
        (edits.routed Builder.prelude_routed) fun node listed inside => ?_
      have marked := Builder.visitAll_live visited listed (by rwa [Builder.prelude_live])
      have repaired : Edits cfg b b.repair := Builder.repair_edits
      exact repaired.live.2 node marked

theorem Produced.regular (produced : Produced prog) : Regular prog := by
  induction produced with
  | built documented graph built => exact buildSsaWith_regular documented graph built
  | optimized _ optimized ih => exact optimizeFrom_regular ih optimized

end EbpfLab.Ssa
