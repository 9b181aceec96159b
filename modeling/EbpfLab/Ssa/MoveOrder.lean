import EbpfLab.Ssa.DataOps

/-!
# Ordered moves

`order_moves` makes moves one after the other as if they were made at once, and refuses only where some
of them wait for each other.
-/

namespace EbpfLab.Ssa
open Isa FlowGraph Library Interp

variable {moves pending order : List PlacedMove} {cycle : SsaError} {regs : Regs} {fuel : Nat} {vm : Vm}

/-- Register moves to other registers whose destinations are all read by other moves of the set. -/
def Waiting (moves : List PlacedMove) (s : Set PlacedMove) : Prop :=
  (∀ m ∈ s, m ∈ moves ∧ m.src.reads.isSome ∧ sameHome m = false) ∧
    ∀ m ∈ s, ∃ other ∈ s, other ≠ m ∧ other.src = .reg m.dst

theorem reads_eq_some {src : MoveSrc} {r : Reg} : src.reads = some r ↔ src = .reg r := by
  cases src <;> simp [MoveSrc.reads]

/-- Ordered moves are sequenced; where there is no order, moves are left that wait for each other. -/
theorem orderPending_sequenced (cycle : SsaError) (enough : pending.length ≤ fuel) :
    (∃ order, orderPending cycle fuel pending = .ok order ∧ Sequenced MoveSrc.reads pending order) ∨
      orderPending cycle fuel pending = .error cycle ∧ ∃ stuck : List PlacedMove, stuck ≠ [] ∧ stuck ⊆ pending ∧
        ∀ m ∈ stuck, ∃ other ∈ stuck, other.src = .reg m.dst := by
  induction fuel generalizing pending with
  | zero =>
    obtain rfl := List.length_eq_zero_iff.mp (Nat.le_zero.mp enough)
    exact Or.inl ⟨[], rfl, .nil⟩
  | succ fuel ih =>
    unfold orderPending
    by_cases none_left : pending.isEmpty = true
    · rw [if_pos none_left]
      obtain rfl := List.isEmpty_iff.mp none_left
      exact Or.inl ⟨[], rfl, .nil⟩
    rw [if_neg none_left]
    cases found : pending.findIdx? fun m => !pending.any fun other => other.src == .reg m.dst with
    | none =>
      refine Or.inr ⟨rfl, pending, by simpa using none_left, List.Subset.refl _, fun m present => ?_⟩
      have read := List.findIdx?_eq_none_iff.mp found m present
      simpa using read
    | some i =>
      obtain ⟨inside, free, _⟩ := List.findIdx?_eq_some_iff_getElem.mp found
      have parted : pending = pending.take i ++ pending[i] :: pending.drop (i + 1) := by simp
      have erased : pending.eraseIdx i = pending.take i ++ pending.drop (i + 1) := List.eraseIdx_eq_take_drop_succ ..
      have unread : ∀ other ∈ pending, other.src.reads ≠ some pending[i].dst := by
        intro other present read
        simp only [Bool.not_eq_true', List.any_eq_false, beq_iff_eq] at free
        exact free other present (reads_eq_some.mp read)
      have shorter : (pending.eraseIdx i).length ≤ fuel := by
        rw [List.length_eraseIdx_of_lt inside]
        omega
      rcases ih shorter with ⟨rest, ordered, sequenced⟩ | ⟨refused, stuck, some_left, within, blocked⟩
      · refine Or.inl ⟨pending[i] :: rest, ?_, ?_⟩
        · dsimp only
          rw [ordered, List.getElem?_eq_getElem inside]
          rfl
        · rw [erased] at sequenced
          have whole := Sequenced.cons (m := pending[i]) (fun other present => unread other (by rwa [parted])) sequenced
          rwa [← parted] at whole
      · refine Or.inr ⟨?_, stuck, some_left, List.Subset.trans within (List.eraseIdx_sublist _ _).subset, blocked⟩
        dsimp only
        rw [refused]
        rfl

theorem eval_depends (f g : Regs) (src : MoveSrc) (same : ∀ r, src.reads = some r → f r = g r) :
    src.eval f = src.eval g := by
  cases src with
  | reg r => exact same r rfl
  | imm k => rfl
  | wide k => rfl

theorem agree_of_nodup (distinct : (moves.map Move.dst).Nodup) :
    ∀ a ∈ moves, ∀ b ∈ moves, a.dst = b.dst → a.src = b.src :=
  fun _ left _ right same => congrArg Move.src (List.inj_on_of_nodup_map distinct left right same)

/-- A same-home copy changes nothing. -/
theorem moveAtOnce_filter (distinct : (moves.map Move.dst).Nodup) :
    moveAtOnce MoveSrc.eval (moves.filter (!sameHome ·)) regs = moveAtOnce MoveSrc.eval moves regs := by
  have kept : (moves.filter (!sameHome ·)).Sublist moves := List.filter_sublist
  have agree := agree_of_nodup distinct
  funext r
  by_cases moved : ∃ m ∈ moves, m.dst = r
  · obtain ⟨m, present, rfl⟩ := moved
    rw [moveAtOnce_of_mem present agree]
    by_cases same : sameHome m = true
    · have absent : ∀ other ∈ moves.filter (!sameHome ·), other.dst ≠ m.dst := by
        intro other left home
        obtain ⟨among, moves_⟩ := List.mem_filter.mp left
        obtain rfl := List.inj_on_of_nodup_map distinct among present home
        simp [same] at moves_
      rw [moveAtOnce_of_not_mem absent, (beq_iff_eq.mp same : m.src = .reg m.dst)]
      rfl
    · exact moveAtOnce_of_mem (List.mem_filter.mpr ⟨present, by simpa using same⟩)
        fun a left b right => agree a (kept.subset left) b (kept.subset right)
  · have absent : ∀ m ∈ moves, m.dst ≠ r := fun m present same => moved ⟨m, present, same⟩
    rw [moveAtOnce_of_not_mem absent, moveAtOnce_of_not_mem fun m left => absent m (kept.subset left)]

/-- Straight code that puts each source in its place makes moves one after the other. -/
theorem moves_run {emit : PlacedMove → List Insn} (straight : ∀ m ∈ order, ∀ i ∈ emit m, isJump i = false)
    (puts : ∀ m ∈ order, ∀ vm : Vm, Puts vm (emit m) m.dst (m.src.eval vm.regs)) :
    vm.executeAll (load (order.flatMap emit)) =
      ({ vm with
        regs := runMoves MoveSrc.eval order vm.regs
        pc := vm.pc + (order.flatMap emit).length }, .cont) := by
  induction order generalizing vm with
  | nil => rfl
  | cons m rest ih =>
    have later : ∀ i ∈ rest.flatMap emit, isJump i = false := by
      intro i present
      obtain ⟨other, among, emitted⟩ := List.mem_flatMap.mp present
      exact straight other (List.mem_cons_of_mem _ among) i emitted
    have first : Puts vm (emit m) m.dst (m.src.eval vm.regs) := puts m List.mem_cons_self vm
    rw [List.flatMap_cons, executeAll_straight (straight m List.mem_cons_self) later first,
      ih (fun other later => straight other (List.mem_cons_of_mem _ later))
        fun other later => puts other (List.mem_cons_of_mem _ later)]
    simp [runMoves, Nat.add_assoc]

/-- The code of moves makes them one after the other. -/
theorem emitMoves_run (plain : ∀ m ∈ order, m.dst ≠ 10) :
    vm.executeAll (load (order.flatMap emitMove)) =
      ({ vm with
        regs := runMoves MoveSrc.eval order vm.regs
        pc := vm.pc + (order.flatMap emitMove).length }, .cont) :=
  moves_run (fun _ _ => emitMove_straight) fun m present _ => emitMove_puts (plain m present)

theorem orderMoves_sequenced (ordered : orderMoves moves cycle = .ok order) :
    Sequenced MoveSrc.reads (moves.filter (!sameHome ·)) order := by
  rcases orderPending_sequenced cycle (Nat.le_refl (moves.filter (!sameHome ·)).length) with
    ⟨order', found, sequenced⟩ | ⟨refused, _⟩
  · obtain rfl := Except.ok.inj (ordered.symm.trans found)
    exact sequenced
  · rw [orderMoves, refused] at ordered
    cases ordered

section

variable (distinct : (moves.map Move.dst).Nodup) (ordered : orderMoves moves cycle = .ok order)
include distinct ordered

theorem orderMoves_run (regs : Regs) : runMoves MoveSrc.eval order regs = moveAtOnce MoveSrc.eval moves regs := by
  have kept : (moves.filter (!sameHome ·)).Sublist moves := List.filter_sublist
  have agree : ∀ a ∈ moves.filter (!sameHome ·), ∀ b ∈ moves.filter (!sameHome ·), a.dst = b.dst → a.src = b.src :=
    fun a left b right => agree_of_nodup distinct a (kept.subset left) b (kept.subset right)
  exact ((orderMoves_sequenced ordered).run_eq eval_depends agree).trans (moveAtOnce_filter distinct)

theorem orderMoves_code (plain : ∀ m ∈ moves, m.dst ≠ 10) (vm : Vm) :
    vm.executeAll (load (order.flatMap emitMove)) =
      ({ vm with
        regs := moveAtOnce MoveSrc.eval moves vm.regs
        pc := vm.pc + (order.flatMap emitMove).length }, .cont) := by
  have kept : (moves.filter (!sameHome ·)).Sublist moves := List.filter_sublist
  rw [emitMoves_run, orderMoves_run distinct ordered]
  exact fun m present => plain m (kept.subset ((orderMoves_sequenced ordered).subset present))

end

/-- Ordered moves give every register file what the moves made at once give it, and so does their code
on the machine; no order is found exactly where register moves wait for each other. -/
theorem orderMoves_correct (moves : List PlacedMove) (cycle : SsaError)
    (distinct : (moves.map Move.dst).Nodup) :
    (∀ order, orderMoves moves cycle = .ok order →
      (∀ regs, runMoves MoveSrc.eval order regs = moveAtOnce MoveSrc.eval moves regs) ∧
      ((∀ m ∈ moves, m.dst ≠ 10) → ∀ vm : Vm, vm.executeAll (load (order.flatMap emitMove)) =
        ({ vm with
          regs := moveAtOnce MoveSrc.eval moves vm.regs
          pc := vm.pc + (order.flatMap emitMove).length }, .cont))) ∧
    ((∃ e, orderMoves moves cycle = .error e) ↔ ∃ s, s.Nonempty ∧ Waiting moves s) := by
  have cases_ := orderPending_sequenced cycle (Nat.le_refl (moves.filter (!sameHome ·)).length)
  refine ⟨fun order ordered => ⟨orderMoves_run distinct ordered, orderMoves_code distinct ordered⟩,
    fun ⟨e, refused⟩ => ?_, fun ⟨s, some_wait, wait⟩ => ?_⟩
  · rcases cases_ with ⟨order, found, _⟩ | ⟨_, stuck, some_left, within, blocked⟩
    · rw [orderMoves, found] at refused
      cases refused
    · obtain ⟨m, present⟩ := List.exists_mem_of_ne_nil stuck some_left
      obtain ⟨reader, among, read⟩ := blocked m present
      refine ⟨{ m | m ∈ stuck ∧ m.src.reads.isSome }, ⟨reader, among, by rw [read]; rfl⟩, ?_, ?_⟩
      · rintro m ⟨present, register⟩
        obtain ⟨among, moves_⟩ := List.mem_filter.mp (within present)
        exact ⟨among, register, by simpa using moves_⟩
      · rintro m ⟨present, _⟩
        obtain ⟨other, among, read⟩ := blocked m present
        refine ⟨other, ⟨among, by rw [read]; rfl⟩, ?_, read⟩
        rintro rfl
        obtain ⟨_, moves_⟩ := List.mem_filter.mp (within present)
        simp [sameHome, read] at moves_
  · rcases cases_ with ⟨order, _, sequenced⟩ | ⟨refused, _⟩
    · refine absurd some_wait (sequenced.unblocked (fun m present => ?_) fun m present => ?_)
      · obtain ⟨among, _, moves_⟩ := wait.1 m present
        exact List.mem_filter.mpr ⟨among, by simp [moves_]⟩
      · obtain ⟨other, among, _, read⟩ := wait.2 m present
        exact ⟨other, among, reads_eq_some.mpr read⟩
    · exact ⟨cycle, refused⟩

theorem orderMoves_correct_chain :
    (∀ order, orderMoves [⟨1, .imm 5⟩, ⟨2, .reg 1⟩] .phiCycle = .ok order →
      (∀ regs, runMoves MoveSrc.eval order regs = moveAtOnce MoveSrc.eval [⟨1, .imm 5⟩, ⟨2, .reg 1⟩] regs) ∧
      ((∀ m ∈ ([⟨1, .imm 5⟩, ⟨2, .reg 1⟩] : List PlacedMove), m.dst ≠ 10) → ∀ vm : Vm,
        vm.executeAll (load (order.flatMap emitMove)) =
          ({ vm with
            regs := moveAtOnce MoveSrc.eval [⟨1, .imm 5⟩, ⟨2, .reg 1⟩] vm.regs
            pc := vm.pc + (order.flatMap emitMove).length }, .cont))) ∧
    ((∃ e, orderMoves [⟨1, .imm 5⟩, ⟨2, .reg 1⟩] .phiCycle = .error e) ↔
      ∃ s, s.Nonempty ∧ Waiting [⟨1, .imm 5⟩, ⟨2, .reg 1⟩] s) :=
  orderMoves_correct [⟨1, .imm 5⟩, ⟨2, .reg 1⟩] .phiCycle (by decide)

end EbpfLab.Ssa
