import EbpfLab.Ssa.Regular

/-!
# Points of a run

A run goes from point to point of the blocks it enters: one instruction at a time, the phis of a block
at once. A version is awaited where a later point reads it and none assigns it before that.
-/

namespace EbpfLab.Ssa
open Isa FlowGraph Interp

/-- A position in a block, and how the block was entered. -/
structure Point where
  pred : Pred
  block : Nat
  index : Nat
  deriving DecidableEq, Repr

def Point.site (p : Point) : Site := (p.block, p.index)

/-- A point with the values a run has there. -/
structure Standing where
  point : Point
  env : Env
  world : World

/-- What an instruction reads when its block was entered from `pred`. -/
def SsaInsn.readsFrom (pred : Pred) : SsaInsn → List SsaValue
  | .phi _ inputs => (phiInput pred inputs).toList
  | insn => insn.uses

namespace SsaProgram

variable (prog : SsaProgram)

/-- What is executed at a point: an instruction, or adjacent phis. -/
def front (p : Point) : List SsaInsn :=
  let rest := (prog.insnsOf p.block).drop p.index
  if rest.head?.any SsaInsn.isPhi then rest.takeWhile SsaInsn.isPhi else rest.take 1

def reads (p : Point) : List SsaValue := (prog.front p).flatMap (SsaInsn.readsFrom p.pred)

def assigns (p : Point) : List SsaValue := defs (prog.front p)

/-- Where a run begins. -/
def start (world : World) : Standing := ⟨⟨none, prog.entry, 0⟩, fun _ => none, world⟩

end SsaProgram

namespace Standing

/-- Behind what is executed here. -/
def past (s : Standing) (count : Nat) (env : Env) (world : World) : Standing :=
  ⟨{ s.point with index := s.point.index + count }, env, world⟩

/-- At the start of the block control goes to. -/
def enter (s : Standing) : Leave → Option Standing
  | .goto block => some ⟨⟨some s.point.block, block, 0⟩, s.env, s.world⟩
  | .ended _ | .stuck => none

end Standing

/-- Where the result of an instruction leads. -/
def Standing.proceed (s : Standing) : InsnResult → Option Standing
  | .next env => some (s.past 1 env s.world)
  | .effect env world => some (s.past 1 env world)
  | .leave how => s.enter how

/-- Go to the next point. Phis behind another instruction that follows phis are stuck. -/
def advance (m : Machine) (prog : SsaProgram) (s : Standing) : Option Standing :=
  match prog.front s.point with
  | [] => s.enter (goto (prog.fallsTo s.point.block))
  | .phi dst inputs :: phis =>
    if ((prog.insnsOf s.point.block).take s.point.index).any SsaInsn.isPhi then none
    else
      (evalPhis s.point.pred s.env (.phi dst inputs :: phis) s.env).map fun env =>
        s.past (phis.length + 1) env s.world
  | insn :: _ => s.proceed (execInsn m insn s.env s.world)

/-- Go on by a number of points. -/
def travel (m : Machine) (prog : SsaProgram) : Nat → Standing → Option Standing
  | 0, s => some s
  | n + 1, s => (advance m prog s).bind (travel m prog n)

/-- The points a run comes to. -/
def Visits (m : Machine) (prog : SsaProgram) (world : World) (s : Standing) : Prop :=
  ∃ n, travel m prog n (prog.start world) = some s

/-- The version will be read before it is assigned again. -/
inductive Awaits (m : Machine) (prog : SsaProgram) (v : SsaValue) : Standing → Prop where
  | read {s : Standing} (here : v ∈ prog.reads s.point) : Awaits m prog v s
  | later {s s' : Standing} (next : advance m prog s = some s') (kept : v ∉ prog.assigns s.point)
      (awaits : Awaits m prog v s') : Awaits m prog v s

variable {m : Machine} {prog : SsaProgram} {s s' s'' : Standing} {block next n k : Nat} {b : SsaBlock}
  {pred : Pred} {env : Env} {world : World} {pre rest : List SsaInsn} {insn : SsaInsn}

theorem travel_append (first : travel m prog n s = some s') (second : travel m prog k s' = some s'') :
    travel m prog (n + k) s = some s'' := by
  induction n generalizing s with
  | zero =>
    cases first
    rwa [Nat.zero_add]
  | succ n ih =>
    obtain ⟨mid, step, first⟩ := Option.bind_eq_some_iff.mp first
    rw [Nat.succ_add, travel, step]
    exact ih first

theorem travel_front (step : advance m prog s = some s') : travel m prog (n + 1) s = travel m prog n s' := by
  rw [travel, step]
  rfl

theorem travel_succ (first : travel m prog n s = some s') (step : advance m prog s' = some s'') :
    travel m prog (n + 1) s = some s'' :=
  travel_append first (by rw [travel, step]; rfl)

/-! ### What is executed at a point -/

section

variable (split : prog.insnsOf block = pre ++ rest)
include split

theorem front_nil (done : rest = []) : prog.front ⟨pred, block, pre.length⟩ = [] := by
  simp [SsaProgram.front, split, done]

theorem front_plain {xs : List SsaInsn} (first : rest = insn :: xs) (plain : insn.isPhi = false) :
    prog.front ⟨pred, block, pre.length⟩ = [insn] := by
  simp [SsaProgram.front, split, first, plain]

theorem front_phis {xs : List SsaInsn} (first : rest = insn :: xs) (phi : insn.isPhi = true) :
    prog.front ⟨pred, block, pre.length⟩ = rest.takeWhile SsaInsn.isPhi := by
  simp [SsaProgram.front, split, first, phi]

end

/-! ### Runs of blocks -/

theorem advance_nil (split : prog.insnsOf block = pre) :
    advance m prog ⟨⟨pred, block, pre.length⟩, env, world⟩ =
      Standing.enter ⟨⟨pred, block, pre.length⟩, env, world⟩ (goto (prog.fallsTo block)) := by
  have nothing : prog.front ⟨pred, block, pre.length⟩ = [] :=
    front_nil (split.trans (List.append_nil pre).symm) rfl
  rw [advance, nothing]

theorem advance_plain (split : prog.insnsOf block = pre ++ insn :: rest) (plain : insn.isPhi = false) :
    advance m prog ⟨⟨pred, block, pre.length⟩, env, world⟩ =
      Standing.proceed ⟨⟨pred, block, pre.length⟩, env, world⟩ (execInsn m insn env world) := by
  have only : prog.front ⟨pred, block, pre.length⟩ = [insn] := front_plain split rfl plain
  rw [advance, only]
  cases insn with
  | phi => cases plain
  | _ => rfl

theorem advance_phis {phis : List SsaInsn} (split : prog.insnsOf block = pre ++ rest)
    (first : rest.takeWhile SsaInsn.isPhi = phis) (some_phi : phis ≠ []) (none_before : ∀ i ∈ pre, i.isPhi = false) :
    advance m prog ⟨⟨pred, block, pre.length⟩, env, world⟩ =
      (evalPhis pred env phis env).map fun env' =>
        ⟨⟨pred, block, pre.length + phis.length⟩, env', world⟩ := by
  obtain ⟨i, more, rfl⟩ := List.exists_cons_of_ne_nil some_phi
  have phi : i.isPhi = true := List.all_eq_true.mp List.all_takeWhile i (first ▸ List.mem_cons_self)
  have whole : rest = i :: rest.tail := by
    cases rest with
    | nil => cases first
    | cons x rest =>
      rw [List.takeWhile_cons] at first
      split at first
      · rw [(List.cons.inj first).1, List.tail_cons]
      · cases first
  have group : prog.front ⟨pred, block, pre.length⟩ = i :: more := (front_phis split whole phi).trans first
  have placed : ((prog.insnsOf block).take pre.length).any SsaInsn.isPhi = false := by
    rw [split, List.take_left]
    simpa using none_before
  cases i with
  | phi dst inputs =>
    rw [advance, group]
    dsimp only
    rw [placed]
    rfl
  | _ => cases phi

/-- Where a list of instructions is left: behind it, or at the start of another block. -/
theorem execList_travels (m : Machine) (pred : Pred) (env : Env) (world : World) (next : Nat) (xs : List SsaInsn)
    (split : prog.insnsOf block = pre ++ (xs ++ rest)) :
    ((execList m xs env world).how = none → ∃ n, travel m prog n ⟨⟨pred, block, pre.length⟩, env, world⟩ =
      some ⟨⟨pred, block, (pre ++ xs).length⟩, (execList m xs env world).env, (execList m xs env world).world⟩) ∧
    ((execList m xs env world).how = some (.goto next) →
      ∃ n, travel m prog n ⟨⟨pred, block, pre.length⟩, env, world⟩ =
        some ⟨⟨some block, next, 0⟩, (execList m xs env world).env, (execList m xs env world).world⟩) := by
  induction xs generalizing pre env world with
  | nil => exact ⟨fun _ => ⟨0, by simp [travel, execList]⟩, fun left => by cases left⟩
  | cons insn xs ih =>
    have split' : prog.insnsOf block = (pre ++ [insn]) ++ (xs ++ rest) := by simp [split]
    cases phi : insn.isPhi with
    | true =>
      have stuck : (execList m (insn :: xs) env world).how = some .stuck := by
        cases insn with
        | phi => rfl
        | _ => cases phi
      rw [stuck]
      exact ⟨fun done => by (cases done), fun left => by (cases left)⟩
    | false =>
      have step : advance m prog ⟨⟨pred, block, pre.length⟩, env, world⟩ = _ := advance_plain split phi
      rw [execList]
      cases ran : execInsn m insn env world with
      | next env' =>
        rw [ran] at step
        obtain ⟨done, left⟩ := @ih _ env' world split'
        refine ⟨fun none_left => ?_, fun leaves => ?_⟩
        · obtain ⟨n, reached⟩ := done none_left
          exact ⟨n + 1, by rw [travel_front step]; simpa [Standing.past] using reached⟩
        · obtain ⟨n, reached⟩ := left leaves
          exact ⟨n + 1, by rw [travel_front step]; simpa [Standing.past] using reached⟩
      | effect env' world' =>
        rw [ran] at step
        obtain ⟨done, left⟩ := @ih _ env' world' split'
        refine ⟨fun none_left => ?_, fun leaves => ?_⟩
        · obtain ⟨n, reached⟩ := done none_left
          exact ⟨n + 1, by rw [travel_front step]; simpa [Standing.past] using reached⟩
        · obtain ⟨n, reached⟩ := left leaves
          exact ⟨n + 1, by rw [travel_front step]; simpa [Standing.past] using reached⟩
      | leave how =>
        rw [ran] at step
        refine ⟨fun none_left => by (cases none_left), fun leaves => ?_⟩
        cases leaves
        exact ⟨1, by rw [travel_front step]; rfl⟩

/-- A block that is left for another is travelled from its start to the start of the other. -/
theorem execBlock_travels (present : prog.blocks[block]? = some b)
    (left : (execBlock m prog pred block b env world).how = .goto next) :
    ∃ n, travel m prog n ⟨⟨pred, block, 0⟩, env, world⟩ =
      some ⟨⟨some block, next, 0⟩, (execBlock m prog pred block b env world).env,
        (execBlock m prog pred block b env world).world⟩ := by
  have split : prog.insnsOf block = b.prelude ++ (b.phis ++ b.body) := by
    rw [SsaProgram.insnsOf_eq present, SsaBlock.prelude, SsaBlock.phis, SsaBlock.body,
      List.takeWhile_append_dropWhile, List.takeWhile_append_dropWhile]
  have first := @execList_travels prog block [] _ m pred env world next b.prelude split
  by_cases early : (execList m b.prelude env world).how.isSome = true
  · have ran : execBlock m prog pred block b env world = (execList m b.prelude env world).close prog block :=
      if_pos early
    rw [ran] at left ⊢
    obtain ⟨way, how⟩ := Option.isSome_iff_exists.mp early
    have leaves : way = .goto next := by simpa [ListResult.close, how] using left
    exact first.2 (by rw [how, leaves])
  · have how : (execList m b.prelude env world).how = none := by simpa using early
    obtain ⟨n, reached⟩ := first.1 how
    cases merged : evalPhis pred (execList m b.prelude env world).env b.phis
        (execList m b.prelude env world).env with
    | none => simp [execBlock, how, merged] at left
    | some env' =>
      have ran : execBlock m prog pred block b env world =
          ListResult.close { execList m b.body env' (execList m b.prelude env world).world with
            effects := (execList m b.prelude env world).effects ++
              (execList m b.body env' (execList m b.prelude env world).world).effects } prog block := by
        simp [execBlock, how, merged]
      rw [ran] at left ⊢
      have joined : ∃ k, travel m prog k ⟨⟨pred, block, b.prelude.length⟩, (execList m b.prelude env world).env,
          (execList m b.prelude env world).world⟩ =
          some ⟨⟨pred, block, (b.prelude ++ b.phis).length⟩, env', (execList m b.prelude env world).world⟩ := by
        by_cases none_here : b.phis = []
        · rw [none_here] at merged ⊢
          cases merged
          exact ⟨0, by rw [List.append_nil]; rfl⟩
        · have group : (b.phis ++ b.body).takeWhile SsaInsn.isPhi = b.phis := by
            rw [SsaBlock.phis, SsaBlock.body, List.takeWhile_append_dropWhile]
          have plain : ∀ i ∈ b.prelude, i.isPhi = false := fun i among => by
            simpa using List.all_eq_true.mp List.all_takeWhile i among
          refine ⟨1, ?_⟩
          rw [travel, advance_phis split group none_here plain, merged, List.length_append]
          rfl
      obtain ⟨k, phis⟩ := joined
      have whole : prog.insnsOf block = (b.prelude ++ b.phis) ++ (b.body ++ []) := by
        rw [split, List.append_nil, List.append_assoc]
      have second := execList_travels m pred env' (execList m b.prelude env world).world next b.body whole
      have start := travel_append reached phis
      cases rest : (execList m b.body env' (execList m b.prelude env world).world).how with
      | some way =>
        have leaves : way = .goto next := by simpa [ListResult.close, rest] using left
        obtain ⟨j, out⟩ := second.2 (by rw [rest, leaves])
        exact ⟨_, travel_append start out⟩
      | none =>
        obtain ⟨j, out⟩ := second.1 rest
        have falls : goto (prog.fallsTo block) = .goto next := by simpa [ListResult.close, rest] using left
        refine ⟨_, travel_succ (travel_append start out) ?_⟩
        rw [advance_nil (by rw [whole, List.append_nil]), falls]
        rfl

/-! ### Where control is -/

theorem front_starts (prog : SsaProgram) (p : Point) : prog.front p <+: (prog.insnsOf p.block).drop p.index := by
  unfold SsaProgram.front
  dsimp only
  split
  · exact List.takeWhile_prefix _
  · exact List.take_prefix _ _

theorem front_subset (p : Point) : ∀ i ∈ prog.front p, i ∈ prog.insnsOf p.block := fun _ among =>
  List.mem_of_mem_drop ((front_starts prog p).subset among)

/-- What has been executed behind the front. -/
theorem take_front (prog : SsaProgram) (p : Point) : (prog.insnsOf p.block).take (p.index + (prog.front p).length) =
    (prog.insnsOf p.block).take p.index ++ prog.front p := by
  rw [List.take_add, List.prefix_iff_eq_take.mp (front_starts prog p)]
  simp

/-- What is read leads on, or the run is stuck. -/
theorem reading_cases {α : Type} (x : Option α) (use : α → InsnResult) :
    reading x use = .leave .stuck ∨ ∃ y, x = some y ∧ reading x use = use y := by
  cases x with
  | none => exact Or.inl rfl
  | some y => exact Or.inr ⟨y, rfl, rfl⟩

theorem reading_goto {α : Type} {x : Option α} {use : α → InsnResult} (ran : reading x use = .leave (.goto next)) :
    ∃ y, x = some y ∧ use y = .leave (.goto next) := by
  rcases reading_cases x use with stuck | ⟨y, same, used⟩
  · rw [stuck] at ran
    cases ran
  · exact ⟨y, same, used ▸ ran⟩

theorem execInsn_control (control : insn.isControl = true) (env : Env) (world : World) :
    ∃ how, execInsn m insn env world = .leave how := by
  cases insn with
  | br width op lhs rhs trueTarget falseTarget =>
    rcases reading_cases (env.operand lhs) fun l => reading (env.operand rhs) fun r =>
      .leave (goto (if jumpTaken op l r width then trueTarget else falseTarget)) with stuck | ⟨l, _, left⟩
    · exact ⟨_, stuck⟩
    · rcases reading_cases (env.operand rhs) fun r =>
        .leave (goto (if jumpTaken op l r width then trueTarget else falseTarget)) with stuck | ⟨r, _, right⟩
      · exact ⟨_, left.trans stuck⟩
      · exact ⟨_, left.trans right⟩
  | ja target => exact ⟨_, rfl⟩
  | exit r0 =>
    rcases reading_cases (env r0) fun code => .leave (.ended (.exit code)) with stuck | ⟨code, _, left⟩
    · exact ⟨_, stuck⟩
    · exact ⟨_, left⟩
  | _ => cases control

theorem goto_eq {target : Option Nat} (same : goto target = .goto next) : target = some next := by
  cases target with
  | none => cases same
  | some t =>
    cases same
    rfl

/-- Control leaves a block along an edge of its control op that can be taken. -/
theorem execInsn_goto (block : Nat) (ran : execInsn m insn env world = .leave (.goto next)) :
    insn.isControl = true ∧ ∃ kind, ⟨block, next, kind⟩ ∈ insn.jumpEdges block ∧
      (insn.neverTaken = true → kind ≠ .branchTrue) := by
  cases insn with
  | br width op lhs rhs trueTarget falseTarget =>
    obtain ⟨l, _, ran⟩ := reading_goto ran
    obtain ⟨r, _, ran⟩ := reading_goto ran
    have target := goto_eq (InsnResult.leave.inj ran)
    refine ⟨rfl, ?_⟩
    split at target
    · rename_i taken
      subst target
      refine ⟨.branchTrue, by simp [SsaInsn.jumpEdges], fun never => ?_⟩
      cases op with
      | call | exit => exact absurd taken (by cases width <;> exact Bool.false_ne_true)
      | _ => cases never
    · subst target
      exact ⟨.branchFalse, by simp [SsaInsn.jumpEdges], fun _ same => by cases same⟩
  | ja target =>
    cases ran
    exact ⟨rfl, .unconditional, List.mem_singleton.mpr rfl, fun _ same => by cases same⟩
  | exit r0 =>
    obtain ⟨code, _, ran⟩ := reading_goto ran
    cases ran
  | const | framePtr | entryCtx | loadImm64 | phi => cases ran
  | copy dst src =>
    obtain ⟨x, _, ran⟩ := reading_goto ran
    cases ran
  | binOp dst width op lhs rhs =>
    obtain ⟨l, _, ran⟩ := reading_goto ran
    obtain ⟨r, _, ran⟩ := reading_goto ran
    split at ran <;> cases ran
  | load dst size base offset =>
    obtain ⟨addr, _, ran⟩ := reading_goto ran
    split at ran
    · cases ran
    · split at ran <;> cases ran
  | store size base offset src =>
    obtain ⟨addr, _, ran⟩ := reading_goto ran
    obtain ⟨x, _, ran⟩ := reading_goto ran
    split at ran <;> cases ran
  | call dst func args =>
    obtain ⟨regs, _, ran⟩ := reading_goto ran
    split at ran
    · cases ran
    · split at ran <;> cases ran

theorem front_phi (first : prog.front p = insn :: rest) (phi : insn.isPhi = true) :
    ∀ i ∈ prog.front p, i.isPhi = true := by
  unfold SsaProgram.front at *
  dsimp only at *
  generalize (prog.insnsOf p.block).drop p.index = left at *
  split at first
  · rename_i leads
    rw [if_pos leads]
    exact fun i among => List.all_eq_true.mp List.all_takeWhile i among
  · rename_i plain
    cases left with
    | nil => cases first
    | cons i left =>
      cases (List.cons.inj first).1
      exact absurd phi plain

theorem front_single (first : prog.front p = insn :: rest) (plain : insn.isPhi = false) : rest = [] := by
  unfold SsaProgram.front at first
  dsimp only at first
  split at first
  · have phi : insn.isPhi = true := List.all_eq_true.mp List.all_takeWhile insn (first ▸ List.mem_cons_self)
    rw [plain] at phi
    cases phi
  · have short := congrArg List.length first
    rw [List.length_take, List.length_cons] at short
    exact List.length_eq_zero_iff.mp (by omega)

theorem enter_eq_some {how : Leave} (enters : s.enter how = some s') :
    ∃ t, how = .goto t ∧ s' = ⟨⟨some s.point.block, t, 0⟩, s.env, s.world⟩ := by
  cases how with
  | goto t =>
    cases enters
    exact ⟨t, rfl, rfl⟩
  | ended | stuck => cases enters

/-- A step goes behind the front, or to the start of a block. -/
theorem advance_cases (step : advance m prog s = some s') :
    (∃ env world, s' = s.past (prog.front s.point).length env world ∧
      ∀ i ∈ prog.front s.point, i.isControl = false) ∨
    ∃ t, s' = ⟨⟨some s.point.block, t, 0⟩, s.env, s.world⟩ ∧
      (prog.front s.point = [] ∧ prog.fallsTo s.point.block = some t ∨
        ∃ insn, prog.front s.point = [insn] ∧ execInsn m insn s.env s.world = .leave (.goto t)) := by
  unfold advance at step
  split at step
  · rename_i none_left
    obtain ⟨t, how, same⟩ := enter_eq_some step
    exact Or.inr ⟨t, same, Or.inl ⟨none_left, goto_eq how⟩⟩
  · rename_i dst inputs phis group
    split at step
    · cases step
    · obtain ⟨env, _, rfl⟩ := Option.map_eq_some_iff.mp step
      refine Or.inl ⟨env, s.world, by rw [group, List.length_cons], fun i among => ?_⟩
      have phi : i.isPhi = true := front_phi group rfl i among
      cases i with
      | phi => rfl
      | _ => cases phi
  · rename_i insn rest other first
    have plain : insn.isPhi = false := by
      cases insn with
      | phi dst inputs => exact absurd rfl (other dst inputs)
      | _ => rfl
    obtain rfl := front_single first plain
    have straight : ∀ {r : InsnResult}, execInsn m insn s.env s.world = r → (∀ how, r ≠ .leave how) →
        ∀ i ∈ prog.front s.point, i.isControl = false := by
      intro r ran stays i among
      rw [first] at among
      obtain rfl := List.mem_singleton.mp among
      cases control : i.isControl with
      | false => rfl
      | true =>
        obtain ⟨how, left⟩ := execInsn_control (m := m) control s.env s.world
        exact absurd (ran.symm.trans left) (stays how)
    rw [first] at straight ⊢
    cases ran : execInsn m insn s.env s.world with
    | next env =>
      rw [ran] at step
      cases step
      exact Or.inl ⟨env, s.world, rfl, straight ran fun how same => by cases same⟩
    | effect env world =>
      rw [ran] at step
      cases step
      exact Or.inl ⟨env, world, rfl, straight ran fun how same => by cases same⟩
    | leave how =>
      rw [ran] at step
      obtain ⟨t, rfl, same⟩ := enter_eq_some step
      exact Or.inr ⟨t, same, Or.inr ⟨insn, rfl, ran⟩⟩

/-- Control is in a reached block and has passed no control op of it. -/
structure Visiting (prog : SsaProgram) (p : Point) : Prop where
  reaches : prog.Reaches p.block
  passed : ∀ i ∈ (prog.insnsOf p.block).take p.index, i.isControl = false

/-- The control op that control is at is the one its block ends with. -/
theorem Visiting.terminator {p : Point} (visiting : Visiting prog p) (only : prog.front p = [insn])
    (control : insn.isControl = true) : prog.terminator p.block = some insn := by
  obtain ⟨rest, split⟩ := front_starts prog p
  rw [find_insnsOf, ← List.take_append_drop p.index (prog.insnsOf p.block), ← split, only,
    List.find?_append, List.find?_eq_none.mpr fun i among => by simp [visiting.passed i among]]
  simp [control]

theorem Visiting.advance (regular : Regular prog) (visiting : Visiting prog s.point)
    (step : advance m prog s = some s') : Visiting prog s'.point := by
  rcases advance_cases step with ⟨env, world, rfl, straight⟩ | ⟨t, rfl, leaves⟩
  · refine ⟨visiting.reaches, fun i among => ?_⟩
    have behind := take_front prog s.point
    rcases List.mem_append.mp (behind ▸ among) with earlier | here
    · exact visiting.passed i earlier
    · exact straight i here
  · have flows : prog.Flows s.point.block t := by
      rcases leaves with ⟨_, falls⟩ | ⟨insn, only, ran⟩
      · obtain ⟨e, found, rfl⟩ := Option.map_eq_some_iff.mp falls
        have listed := List.mem_of_find?_eq_some found
        have kind : e.kind = .fallthrough := by simpa using List.find?_some found
        simp only [SsaProgram.outEdges, List.mem_reverse, List.mem_filter, beq_iff_eq] at listed
        exact mem_liveSuccessors.mpr ⟨e, listed.1, listed.2, rfl, fun both => by rw [kind] at both; cases both.2⟩
      · obtain ⟨control, kind, edge, taken⟩ := execInsn_goto s.point.block ran
        refine mem_liveSuccessors.mpr ⟨_, regular.jumps s.point.block insn (front_subset s.point insn ?_) _ edge,
          rfl, rfl, ?_⟩
        · rw [only]
          exact List.mem_singleton.mpr rfl
        · rw [deadTaken_eq, visiting.terminator only control]
          exact fun both => taken both.1 both.2
    exact ⟨visiting.reaches.step flows, fun i among => by simp at among⟩

theorem Visits.visiting (regular : Regular prog) (visits : Visits m prog world s) : Visiting prog s.point := by
  obtain ⟨n, reached⟩ := visits
  have along : ∀ n {s₀ : Standing}, Visiting prog s₀.point → travel m prog n s₀ = some s → Visiting prog s.point := by
    intro n
    induction n with
    | zero =>
      intro s₀ here reached
      cases reached
      exact here
    | succ n ih =>
      intro s₀ here reached
      obtain ⟨mid, step, reached⟩ := Option.bind_eq_some_iff.mp reached
      exact ih (here.advance regular step) reached
  exact along n ⟨.root, fun i among => absurd among (by simp [SsaProgram.start])⟩ reached

end EbpfLab.Ssa
