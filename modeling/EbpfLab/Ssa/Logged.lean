import EbpfLab.Ssa.Assembled

/-!
# Where versions are recorded

What holds between builders across a build, told by what it takes to emit an instruction: every other step
of the builder is made of these. It is used here for the record of definitions, which becomes the table of
the program.
-/

namespace EbpfLab.Ssa
open Isa FlowGraph

variable {insns : List Insn} {cfg : Cfg} {b b' b'' : Builder} {block p pos k fuel : Nat} {reg : Reg} {v : SsaValue}
  {insn i : SsaInsn} {R : Builder → Builder → Prop}

namespace Builder

/-- A relation that holds across a build: across the steps that change what is emitted, and across those that
change nothing of it. -/
structure Walks (R : Builder → Builder → Prop) : Prop where
  trans : ∀ {b b' b''}, R b b' → R b' b'' → R b b''
  same : ∀ {b b'}, b'.heads = b.heads → b'.bodies = b.bodies → b'.next = b.next → b'.defOrder = b.defOrder → R b b'
  input : ∀ b block pos input, R b (b.addInput block pos input)
  head : ∀ b block insn, insn.defDst = some b.next → R b (b.fresh.2.emitHead block insn)
  body : ∀ b block insn, insn.defDst = some b.next → R b (b.fresh.2.emitBody block insn)
  plain : ∀ b block insn, insn.defDst = none → R b (b.emitBody block insn)

namespace Walks

variable (walks : Walks R)
include walks

theorem refl (b : Builder) : R b b := walks.same rfl rfl rfl rfl

theorem define {make : SsaValue → SsaInsn} (dst : (make b.next).defDst = some b.next) : R b (b.define block reg make) :=
  walks.trans (walks.body b block (make b.next) dst) (walks.same rfl rfl rfl rfl)

theorem mintPhi : R b (b.mintPhi cfg block reg).2.2 := by
  have minted : R b (((b.fresh.2).setCurrent block reg b.next).emitHead block (.phi b.next [])) :=
    walks.trans (walks.head b block (.phi b.next []) rfl) (walks.same rfl rfl rfl rfl)
  unfold Builder.mintPhi
  dsimp only
  split
  · exact walks.trans minted (walks.input _ _ _ _)
  · exact minted

theorem foldlM {α : Type} {f : Builder → α → Option Builder} {as : List α}
    (each : ∀ b a b', f b a = some b' → R b b') (done : as.foldlM f b = some b') : R b b' := by
  induction as generalizing b with
  | nil =>
    cases done
    exact walks.refl _
  | cons a as ih =>
    rw [List.foldlM_cons] at done
    obtain ⟨mid, first, rest⟩ := Option.bind_eq_some_iff.mp done
    exact walks.trans (each b a mid first) (ih rest)

section

variable {read : Read} (reads : ∀ b block reg v b', read b block reg = some (v, b') → R b b')
include reads

theorem completePhi (done : Builder.completePhi cfg read b block pos reg = some b') : R b b' := by
  refine walks.foldlM (fun b pred b' step => ?_) done
  obtain ⟨⟨operand, mid⟩, found, step⟩ := Option.bind_eq_some_iff.mp step
  have first := walks.trans (reads _ _ _ _ _ found) (walks.input mid block pos (some pred, operand))
  dsimp only at step
  split at step
  · cases step
    exact first
  · cases step
    exact walks.trans first (walks.same rfl rfl rfl rfl)

theorem merge (done : Builder.merge cfg read b block reg = some (v, b')) : R b b' := by
  obtain ⟨mid, completed, same⟩ := Option.bind_eq_some_iff.mp done
  cases same
  exact walks.trans walks.mintPhi (walks.completePhi reads completed)

theorem resolveUncached (done : Builder.resolveUncached cfg read b block reg = some (v, b')) : R b b' := by
  unfold Builder.resolveUncached at done
  split at done
  · cases done
    exact walks.trans walks.mintPhi (walks.same rfl rfl rfl rfl)
  · split at done
    · split at done
      · cases done
        exact walks.same rfl rfl rfl rfl
      · split at done
        · obtain ⟨⟨value, mid⟩, found, same⟩ := Option.bind_eq_some_iff.mp done
          cases same
          exact walks.trans (reads _ _ _ _ _ found) (walks.same rfl rfl rfl rfl)
        · exact walks.merge reads done
    · exact walks.merge reads done

theorem readRecursive (done : Builder.readRecursive cfg read b block reg = some (v, b')) : R b b' := by
  unfold Builder.readRecursive at done
  split at done
  · exact walks.merge reads done
  · obtain ⟨⟨value, mid⟩, found, same⟩ := Option.bind_eq_some_iff.mp done
    cases same
    have entered : R b { b with resolving := (block, reg) :: b.resolving } := walks.same rfl rfl rfl rfl
    exact walks.trans (walks.trans entered (walks.resolveUncached reads found)) (walks.same rfl rfl rfl rfl)

end

theorem read (done : Builder.read cfg fuel b block reg = some (v, b')) : R b b' := by
  induction fuel generalizing b block reg v b' with
  | zero => cases done
  | succ fuel ih =>
    rw [Builder.read] at done
    dsimp only at done
    split at done
    · cases done
      exact walks.refl _
    · exact walks.readRecursive (fun _ _ _ _ _ found => ih found) done

theorem «seal» (done : Builder.seal cfg fuel b block = some b') : R b b' := by
  obtain ⟨mid, completed, same⟩ := Option.bind_eq_some_iff.mp done
  cases same
  have opened : R b { b with
      sealing := b.sealing.set block true
      incomplete := b.incomplete.set block [] } := walks.same rfl rfl rfl rfl
  have pending := walks.foldlM
    (fun _ _ _ step => walks.completePhi (fun _ _ _ _ _ found => walks.read found) step) completed
  exact walks.trans (walks.trans opened pending) (walks.same rfl rfl rfl rfl)

theorem operand {src : Operand} {o : SsaOperand} (done : Builder.operand cfg fuel b block src = some (o, b')) :
    R b b' := by
  cases src with
  | reg r =>
    obtain ⟨⟨value, mid⟩, found, same⟩ := Option.bind_eq_some_iff.mp done
    cases same
    exact walks.read found
  | imm k =>
    cases done
    exact walks.refl _

theorem fillAlu {width : Width} {op : AluOp} {dst : Reg} {src : Operand}
    (done : Builder.fillAlu cfg fuel b block width op dst src = some b') : R b b' := by
  unfold Builder.fillAlu at done
  split at done
  · cases done
    exact walks.refl _
  · dsimp only at done
    split at done
    · obtain ⟨⟨value, mid⟩, found, same⟩ := Option.bind_eq_some_iff.mp done
      cases same
      exact walks.trans (walks.read found) (walks.define rfl)
    · obtain ⟨⟨lhs, mid⟩, left, done⟩ := Option.bind_eq_some_iff.mp done
      obtain ⟨⟨rhs, last⟩, right, done⟩ := Option.bind_eq_some_iff.mp done
      refine walks.trans (walks.trans (walks.read left) (walks.operand right)) ?_
      dsimp only at done
      split at done
      · cases done
        exact walks.body last block _ rfl
      · cases done
        exact walks.define rfl

theorem fillInsn {insn : Insn} (done : Builder.fillInsn cfg fuel b block pos insn = some (.ok b')) : R b b' := by
  unfold Builder.fillInsn at done
  split at done
  · obtain ⟨mid, filled, same⟩ := Option.map_eq_some_iff.mp done
    cases same
    exact walks.fillAlu filled
  · split at done
    · cases done
      exact walks.refl _
    · cases done
      exact walks.define rfl
  · obtain ⟨⟨base, mid⟩, found, done⟩ := Option.bind_eq_some_iff.mp done
    refine walks.trans (walks.read found) ?_
    dsimp only at done
    split at done
    · cases done
      exact walks.plain mid block _ rfl
    · cases done
      exact walks.define rfl
  · obtain ⟨⟨base, mid⟩, left, done⟩ := Option.bind_eq_some_iff.mp done
    obtain ⟨⟨src, last⟩, right, done⟩ := Option.bind_eq_some_iff.mp done
    cases done
    exact walks.trans (walks.trans (walks.read left) (walks.operand right)) (walks.plain last block _ rfl)
  · obtain ⟨e, found, done⟩ := Option.bind_eq_some_iff.mp done
    cases done
    exact walks.plain b block _ rfl
  · obtain ⟨⟨lhs, mid⟩, left, done⟩ := Option.bind_eq_some_iff.mp done
    obtain ⟨⟨rhs, last⟩, right, done⟩ := Option.bind_eq_some_iff.mp done
    cases done
    exact walks.trans (walks.trans (walks.read left) (walks.operand right)) (walks.plain last block _ rfl)
  · obtain ⟨⟨a1, b1⟩, r1, done⟩ := Option.bind_eq_some_iff.mp done
    obtain ⟨⟨a2, b2⟩, r2, done⟩ := Option.bind_eq_some_iff.mp done
    obtain ⟨⟨a3, b3⟩, r3, done⟩ := Option.bind_eq_some_iff.mp done
    obtain ⟨⟨a4, b4⟩, r4, done⟩ := Option.bind_eq_some_iff.mp done
    obtain ⟨⟨a5, b5⟩, r5, done⟩ := Option.bind_eq_some_iff.mp done
    cases done
    have reads := walks.trans (walks.trans (walks.trans (walks.trans (walks.read r1) (walks.read r2)) (walks.read r3))
      (walks.read r4)) (walks.read r5)
    exact walks.trans reads (walks.define rfl)
  · obtain ⟨⟨r0, mid⟩, found, done⟩ := Option.bind_eq_some_iff.mp done
    cases done
    exact walks.trans (walks.read found) (walks.plain mid block _ rfl)
  · cases done

theorem fillFrom (done : Builder.fillFrom cfg fuel b block pos insns = some (.ok b')) : R b b' := by
  induction insns generalizing b pos with
  | nil =>
    cases done
    exact walks.refl _
  | cons insn rest ih =>
    obtain ⟨result, filled, done⟩ := Option.bind_eq_some_iff.mp done
    cases result with
    | error e => cases done
    | ok mid => exact walks.trans (walks.fillInsn filled) (ih done)

theorem visit (done : Builder.visit cfg fuel insns b block = some (.ok b')) : R b b' := by
  unfold Builder.visit at done
  dsimp only at done
  obtain ⟨result, filled, done⟩ := Option.bind_eq_some_iff.mp done
  cases result with
  | error e => cases done
  | ok mid =>
    obtain ⟨last, sealed_, same⟩ := Option.bind_eq_some_iff.mp done
    cases same
    have closed : R mid { mid with filled := mid.filled.set block true } := walks.same rfl rfl rfl rfl
    refine walks.trans (walks.trans ?_ (walks.fillFrom filled)) (walks.trans closed (walks.seal sealed_))
    split <;> exact walks.same rfl rfl rfl rfl

theorem visitAll {nodes : List Nat} (done : Builder.visitAll cfg fuel insns b nodes = some (.ok b')) : R b b' := by
  induction nodes generalizing b with
  | nil =>
    cases done
    exact walks.refl _
  | cons node rest ih =>
    obtain ⟨result, visited, done⟩ := Option.bind_eq_some_iff.mp done
    cases result with
    | error e => cases done
    | ok mid => exact walks.trans (walks.visit visited) (ih done)

theorem prelude : R b (b.prelude cfg) := by
  have regs : ∀ (regs : List Reg) (b : Builder), R b (regs.foldl
      (fun b r => if !entryLoop cfg || r.isFramePtr then b.setCurrent cfg.entry r (b.entryEnv r) else b) b) := by
    intro regs
    induction regs with
    | nil => exact fun b => walks.refl b
    | cons r regs ih =>
      intro b
      refine walks.trans ?_ (ih _)
      dsimp only
      split
      · exact walks.same rfl rfl rfl rfl
      · exact walks.refl b
  unfold Builder.prelude
  exact walks.trans (walks.trans (walks.trans (walks.head b cfg.entry (.const b.next 0) rfl) (walks.head _ _ _ rfl))
    (walks.head _ _ _ rfl)) (regs _ _)

end Walks

/-! ### The record of definitions -/

/-- Every definition that stands somewhere is recorded, once. -/
structure Logged (b : Builder) : Prop where
  heads : ∀ p k i v, (b.headOf p)[k]? = some i → i.defDst = some v → ⟨v, p, true, k⟩ ∈ b.defOrder
  bodies : ∀ p k i v, (b.bodies.getD p [])[k]? = some i → i.defDst = some v → ⟨v, p, false, k⟩ ∈ b.defOrder
  single : (b.defOrder.map DefOrder.value).Nodup
  below : ∀ d ∈ b.defOrder, d.value < b.next

theorem getElem?_emitted {rows : List (List SsaInsn)}
    (there : ((rows.modify block (· ++ [insn])).getD p [])[k]? = some i) :
    (rows.getD p [])[k]? = some i ∨ p = block ∧ k = (rows.getD block []).length ∧ i = insn := by
  by_cases inside : block < rows.length
  · rw [getD_modify inside] at there
    split at there
    · rename_i same
      subst same
      rw [List.getElem?_append] at there
      split at there
      · exact Or.inl there
      · obtain ⟨last, shape⟩ := List.getElem?_eq_some_iff.mp there
        simp only [List.length_singleton] at last
        simp only [List.getElem_singleton] at shape
        exact Or.inr ⟨rfl, by omega, shape.symm⟩
    · exact Or.inl there
  · rw [List.modify_eq_self (Nat.not_lt.mp inside)] at there
    exact Or.inl there

/-- A version is minted and recorded where it is emitted. -/
theorem Logged.emit {isHead : Bool} (logged : Logged b) (next : b'.next = b.next + 1)
    (order : b'.defOrder = b.defOrder ++ [⟨b.next, block, isHead, k⟩])
    (heads : ∀ p k i v, (b'.headOf p)[k]? = some i → i.defDst = some v → ⟨v, p, true, k⟩ ∈ b'.defOrder)
    (bodies : ∀ p k i v, (b'.bodies.getD p [])[k]? = some i → i.defDst = some v → ⟨v, p, false, k⟩ ∈ b'.defOrder) :
    Logged b' := by
  refine ⟨heads, bodies, ?_, fun d listed => ?_⟩
  · rw [order, List.map_append, List.map_singleton, List.nodup_append]
    refine ⟨logged.single, List.nodup_singleton _, fun v early w late => ?_⟩
    obtain ⟨d, listed, rfl⟩ := List.mem_map.mp early
    rw [List.mem_singleton.mp late]
    exact Nat.ne_of_lt (logged.below d listed)
  · rw [next]
    rw [order] at listed
    rcases List.mem_append.mp listed with early | late
    · exact Nat.lt_succ_of_lt (logged.below d early)
    · rw [List.mem_singleton.mp late]
      exact Nat.lt_succ_self _

/-- Definitions stay recorded across a build. -/
theorem logged_walks : Walks fun b b' => Logged b → Logged b' where
  trans first second logged := second (first logged)
  same heads bodies next order logged := by
    refine ⟨?_, ?_, by rw [order]; exact logged.single, by rw [order, next]; exact logged.below⟩
    · unfold headOf
      rw [heads, order]
      exact logged.heads
    · rw [bodies, order]
      exact logged.bodies
  input b block pos input logged := by
    refine ⟨fun p k i v there defines => ?_, logged.bodies, logged.single, logged.below⟩
    obtain ⟨j, stood, same⟩ : ∃ j, (b.headOf p)[k]? = some j ∧ j.defDst = i.defDst := by
      by_cases inside : block < b.heads.length
      · rw [headOf_addInput inside] at there
        split at there
        · rename_i here
          subst here
          rw [List.getElem?_modify] at there
          obtain ⟨j, stood, same⟩ := Option.map_eq_some_iff.mp there
          refine ⟨j, stood, ?_⟩
          rw [← same]
          split
          · cases j <;> rfl
          · rfl
        · exact ⟨i, there, rfl⟩
      · rw [headOf, addInput] at there
        dsimp only at there
        rw [List.modify_eq_self (Nat.not_lt.mp inside)] at there
        exact ⟨i, there, rfl⟩
    exact logged.heads p k j v stood (same.trans defines)
  head b block insn dst logged := by
    have order : (b.fresh.2.emitHead block insn).defOrder =
        b.defOrder ++ [⟨b.next, block, true, (b.headOf block).length⟩] := by
      simp only [emitHead, record, dst]
      rfl
    have heads : (b.fresh.2.emitHead block insn).heads = b.heads.modify block (· ++ [insn]) := by
      simp only [emitHead, record, dst]
      rfl
    refine logged.emit (by simp only [emitHead, record, dst]; rfl) order (fun p k i v there defines => ?_)
      fun p k i v there defines => ?_
    · rw [headOf, heads] at there
      rw [order]
      rcases getElem?_emitted there with stood | ⟨rfl, rfl, rfl⟩
      · exact List.mem_append_left _ (logged.heads p k i v stood defines)
      · cases dst.symm.trans defines
        exact List.mem_append_right _ List.mem_cons_self
    · have same : (b.fresh.2.emitHead block insn).bodies = b.bodies := by
        simp only [emitHead, record, dst]
        rfl
      rw [same] at there
      rw [order]
      exact List.mem_append_left _ (logged.bodies p k i v there defines)
  body b block insn dst logged := by
    have order : (b.fresh.2.emitBody block insn).defOrder =
        b.defOrder ++ [⟨b.next, block, false, (b.bodies.getD block []).length⟩] := by
      simp only [emitBody, record, dst]
      rfl
    obtain ⟨_, heads, _, _, _, _, _, next, bodies⟩ := emitBody_same b.fresh.2 block insn
    refine logged.emit next order (fun p k i v there defines => ?_) fun p k i v there defines => ?_
    · rw [headOf, heads] at there
      rw [order]
      exact List.mem_append_left _ (logged.heads p k i v there defines)
    · rw [bodies] at there
      rw [order]
      rcases getElem?_emitted there with stood | ⟨rfl, rfl, rfl⟩
      · exact List.mem_append_left _ (logged.bodies p k i v stood defines)
      · cases dst.symm.trans defines
        exact List.mem_append_right _ List.mem_cons_self
  plain b block insn dst logged := by
    have order : (b.emitBody block insn).defOrder = b.defOrder := by
      simp only [emitBody, record, dst]
    obtain ⟨_, heads, _, _, _, _, _, next, bodies⟩ := emitBody_same b block insn
    refine ⟨fun p k i v there defines => ?_, fun p k i v there defines => ?_, by rw [order]; exact logged.single,
      by rw [order, next]; exact logged.below⟩
    · rw [headOf, heads] at there
      rw [order]
      exact logged.heads p k i v there defines
    · rw [bodies] at there
      rw [order]
      rcases getElem?_emitted there with stood | ⟨rfl, rfl, rfl⟩
      · exact logged.bodies p k i v stood defines
      · cases dst.symm.trans defines

theorem new_logged : Logged (new cfg) := by
  have rows : ∀ (n p : Nat), (List.replicate n ([] : List SsaInsn)).getD p [] = [] := by
    intro n p
    rw [List.getD_eq_getElem?_getD, List.getElem?_replicate]
    split <;> rfl
  refine ⟨fun p k i v there => ?_, fun p k i v there => ?_, List.nodup_nil, fun d listed => absurd listed List.not_mem_nil⟩
  · rw [headOf, new, rows] at there
    cases there
  · rw [new, rows] at there
    cases there

/-! ### The table of the program -/

theorem foldl_sites {order : List DefOrder} {sites : List (Option Site)} {d : DefOrder} (place : DefOrder → Nat)
    (single : (order.map DefOrder.value).Nodup) (listed : d ∈ order) (inside : d.value < sites.length) :
    (order.foldl (fun sites d => sites.set d.value (some (d.block, place d))) sites)[d.value]? =
      some (some (d.block, place d)) := by
  have length : ∀ (order : List DefOrder) (sites : List (Option Site)),
      (order.foldl (fun sites d => sites.set d.value (some (d.block, place d))) sites).length = sites.length := by
    intro order
    induction order with
    | nil => exact fun _ => rfl
    | cons e order ih => exact fun sites => (ih _).trans List.length_set
  induction order using List.reverseRecOn with
  | nil => cases listed
  | append_singleton order e ih =>
    rw [List.map_append, List.map_singleton, List.nodup_append] at single
    rw [List.foldl_append, List.foldl_cons, List.foldl_nil]
    rcases List.mem_append.mp listed with early | late
    · have other : e.value ≠ d.value := fun same =>
        single.2.2 d.value (List.mem_map_of_mem early) e.value List.mem_cons_self same.symm
      rw [List.getElem?_set_ne other]
      exact ih single.1 early
    · obtain rfl := List.mem_singleton.mp late
      rw [List.getElem?_set_self (by rwa [length])]

/-- The program records its definitions where they stand. -/
theorem Logged.finish {pre post : List SsaInsn} (logged : Logged b)
    (split : b.headOf p ++ b.bodies.getD p [] = pre ++ insn :: post) (defines : insn.defDst = some v) :
    (b.finish cfg).defSites[v]? = some (some (p, pre.length)) := by
  have at_ : (b.headOf p ++ b.bodies.getD p [])[pre.length]? = some insn := by
    rw [split, List.getElem?_append_right (Nat.le_refl _), Nat.sub_self]
    rfl
  have recorded : ∀ d ∈ b.defOrder, d.value = v → (b.finish cfg).defSites[v]? =
      some (some (d.block, if d.isHead then d.pos else (b.heads.getD d.block []).length + d.pos)) := by
    rintro d listed rfl
    exact foldl_sites (fun d => if d.isHead then d.pos else (b.heads.getD d.block []).length + d.pos) logged.single listed
      (by rw [List.length_replicate]; exact logged.below d listed)
  rw [List.getElem?_append] at at_
  split at at_
  · exact recorded _ (logged.heads p _ insn v at_ defines) rfl
  · rename_i behind
    rw [recorded _ (logged.bodies p _ insn v at_ defines) rfl]
    have back : (b.heads.getD p []).length + (pre.length - (b.headOf p).length) = pre.length :=
      Nat.add_sub_cancel' (Nat.not_lt.mp behind)
    exact congrArg (fun place => some (some (p, place))) back

/-- A repair changes inputs of phis alone. -/
theorem repair_keeps : b.repair.defOrder = b.defOrder ∧ b.repair.next = b.next ∧ b.repair.bodies = b.bodies ∧
    ∀ p, (b.repair.headOf p).map hollow = (b.headOf p).map hollow := by
  have refilled : ∀ (idx : Nat) (w : SsaValue) (i : SsaInsn), hollow (setInput idx w i) = hollow i := by
    intro idx w i
    cases i <;> rfl
  have heads : ∀ (c : Builder) (s : StaleInput) (value : SsaValue) (p : Nat),
      ((c.heads.modify s.block fun head => head.modify s.pos (setInput s.idx value)).getD p []).map hollow =
        (c.headOf p).map hollow := by
    intro c s value p
    by_cases inside : s.block < c.heads.length
    · rw [getD_modify inside]
      split
      · rename_i here
        subst here
        refine List.ext_getElem? fun k => ?_
        rw [List.getElem?_map, List.getElem?_map, List.getElem?_modify, headOf]
        cases (c.heads.getD s.block [])[k]? with
        | none => rfl
        | some i =>
          by_cases at_ : s.pos = k
          · exact congrArg some ((congrArg hollow (if_pos at_)).trans (refilled s.idx value i))
          · exact congrArg some (congrArg hollow (if_neg at_))
      · rfl
    · rw [List.modify_eq_self (Nat.not_lt.mp inside)]
      rfl
  have run : ∀ (rest : List StaleInput) (c : Builder), (rest.foldl repairInput c).defOrder = c.defOrder ∧
      (rest.foldl repairInput c).next = c.next ∧ (rest.foldl repairInput c).bodies = c.bodies ∧
      ∀ p, ((rest.foldl repairInput c).headOf p).map hollow = (c.headOf p).map hollow := by
    intro rest
    induction rest with
    | nil => exact fun _ => ⟨rfl, rfl, rfl, fun _ => rfl⟩
    | cons s rest ih =>
      intro c
      obtain ⟨order, next, bodies, shape⟩ : (repairInput c s).defOrder = c.defOrder ∧ (repairInput c s).next = c.next ∧
          (repairInput c s).bodies = c.bodies ∧
          ∀ p, ((repairInput c s).headOf p).map hollow = (c.headOf p).map hollow := by
        unfold repairInput
        split
        · split
          · exact ⟨rfl, rfl, rfl, heads c s _⟩
          · exact ⟨rfl, rfl, rfl, fun _ => rfl⟩
        · exact ⟨rfl, rfl, rfl, fun _ => rfl⟩
      obtain ⟨order', next', bodies', shape'⟩ := ih (repairInput c s)
      exact ⟨order'.trans order, next'.trans next, bodies'.trans bodies, fun p => (shape' p).trans (shape p)⟩
  rw [repair_eq]
  exact run b.stale _

theorem Logged.repair (logged : Logged b) : Logged b.repair := by
  obtain ⟨order, next, bodies, shape⟩ := repair_keeps (b := b)
  refine ⟨fun p k i v there defines => ?_, by rw [order, bodies]; exact logged.bodies, by rw [order]; exact logged.single,
    by rw [order, next]; exact logged.below⟩
  have same := congrArg (fun head : List SsaInsn => head[k]?) (shape p)
  simp only [List.getElem?_map, there, Option.map_some] at same
  obtain ⟨j, stood, same⟩ := Option.map_eq_some_iff.mp same.symm
  have dst : j.defDst = i.defDst := by
    have hollowed : ∀ x, (hollow x).defDst = x.defDst := fun x => by cases x <;> rfl
    rw [← hollowed j, same, hollowed]
  rw [order]
  exact logged.heads p k j v stood (dst.trans defines)

end Builder

open Builder

/-- A built program records every definition where it stands. -/
theorem buildSsaWith_recorded {prog : SsaProgram} {pre : List SsaInsn} (built : buildSsaWith fuel insns cfg = some (.ok prog))
    (here : prog.At p pre insn) (defines : insn.defDst = some v) : prog.defSites[v]? = some (some (p, pre.length)) := by
  unfold buildSsaWith at built
  split at built
  · cases built
  · obtain ⟨result, visited, done⟩ := Option.bind_eq_some_iff.mp built
    cases result with
    | error e => cases done
    | ok b =>
      cases done
      have logged : Logged b := logged_walks.visitAll visited (logged_walks.prelude new_logged)
      obtain ⟨post, split⟩ := here
      by_cases inside : p < cfg.blocks.length
      · have whole : b.repair.headOf p ++ b.repair.bodies.getD p [] = pre ++ insn :: post := by
          rw [← split]
          simp [SsaProgram.insnsOf, finish, inside, headOf]
        exact logged.repair.finish whole defines
      · have empty : (b.repair.finish cfg).insnsOf p = [] := by simp [SsaProgram.insnsOf, finish, inside]
        rw [empty] at split
        simp at split

end EbpfLab.Ssa
