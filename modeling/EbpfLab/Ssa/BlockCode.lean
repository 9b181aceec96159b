import EbpfLab.Ssa.BuiltForm
import EbpfLab.Ssa.Informed
import EbpfLab.Ssa.InsnCode

/-!
# The code of a block

What is emitted for the straight line of a block does what the line does: a machine beside a run comes behind the
line with it, or fails where it fails.
-/

namespace EbpfLab.Ssa
open Isa FlowGraph Library Interp

variable {petgraph : Petgraph}
  {prog : SsaProgram} {lower : Lower} {m : Machine} {s s' : Standing} {block pos k : Nat} {insn : SsaInsn}
  {u v dst : SsaValue} {h r : Reg} {env env' : Env} {regs : Regs} {x : Int64} {pred : Pred} {vm vm' : Vm}
  {pre xs ys rest : List SsaInsn} {world world' start : World} {code code' list : List Insn}

/-! ### Emitted code -/

/-- The code of instructions from a flat position on. -/
inductive EmitsAll (lower : Lower) : Nat → List SsaInsn → List Insn → Prop where
  | nil {pos : Nat} : EmitsAll lower pos [] []
  | cons {pos : Nat} {insn : SsaInsn} {xs : List SsaInsn} {code rest : List Insn}
      (first : lower.emitInsn pos insn = .ok code) (others : EmitsAll lower (pos + 1) xs rest) :
      EmitsAll lower pos (insn :: xs) (code ++ rest)

theorem emitData_emits (emitted : lower.emitData block = .ok code) :
    EmitsAll lower (lower.prog.blockStart block) ((lower.prog.insnsOf block).takeWhile fun i => !i.isControl) code := by
  have folds : ∀ (xs : List SsaInsn) (pos : Nat) (front code : List Insn),
      (xs.zipIdx pos).foldlM (fun code place => (lower.emitInsn place.2 place.1).map (code ++ ·)) front = .ok code →
        ∃ back, code = front ++ back ∧ EmitsAll lower pos xs back := by
    intro xs
    induction xs with
    | nil =>
      intro pos front code done
      cases done
      exact ⟨[], (List.append_nil _).symm, .nil⟩
    | cons insn xs ih =>
      intro pos front code done
      rw [List.zipIdx_cons, List.foldlM_cons] at done
      obtain ⟨mid, first, done⟩ := bind_eq_ok.mp done
      cases made : lower.emitInsn pos insn with
      | error e =>
        rw [made] at first
        cases first
      | ok own =>
        rw [made] at first
        cases first
        obtain ⟨back, rfl, others⟩ := ih (pos + 1) (front ++ own) code done
        exact ⟨own ++ back, List.append_assoc _ _ _, .cons made others⟩
  obtain ⟨back, rfl, emits⟩ := folds _ _ [] code emitted
  exact emits

theorem EmitsAll.split (emits : EmitsAll lower pos (xs ++ ys) code) :
    ∃ front back, code = front ++ back ∧ EmitsAll lower pos xs front ∧ EmitsAll lower (pos + xs.length) ys back := by
  induction xs generalizing pos code with
  | nil => exact ⟨[], code, rfl, .nil, emits⟩
  | cons insn xs ih =>
    cases emits with
    | cons first others =>
      obtain ⟨front, back, rfl, left, right⟩ := ih others
      refine ⟨_, back, (List.append_assoc _ _ _).symm, .cons first left, ?_⟩
      rwa [List.length_cons, Nat.add_comm xs.length, ← Nat.add_assoc]

theorem afterCall_moves {saves : List (Reg × Reg)} : ∀ i ∈ lower.afterCall dst saves, ∃ r r', i = mov64 r r' := by
  intro i present
  rcases List.mem_append.mp present with result | restored
  · cases homed : lower.homeOf dst with
    | none =>
      rw [homed] at result
      cases result
    | some home =>
      rw [homed] at result
      dsimp only at result
      split at result
      · cases result
      · exact ⟨_, _, List.mem_singleton.mp result⟩
  · obtain ⟨pair, _, rfl⟩ := List.mem_map.mp restored
    exact ⟨_, _, rfl⟩

/-- Emitted code has no jumps: control is emitted with its block. -/
theorem emitInsn_straight (plain : insn.isPhi = false) (emitted : lower.emitInsn pos insn = .ok code) :
    ∀ i ∈ code, isJump i = false := by
  intro i present
  cases insn with
  | const | loadImm64 | copy | binOp => exact (settles_loaded (emitInsn_settles rfl emitted)).1 i present
  | framePtr | entryCtx | br | ja | exit =>
    cases emitted
    cases present
  | phi => cases plain
  | load dst size base offset =>
    obtain ⟨hb, _, emitted⟩ := bind_eq_ok.mp emitted
    cases dst with
    | none => cases emitted
    | some v =>
      obtain ⟨hv, _, emitted⟩ := bind_eq_ok.mp emitted
      cases emitted
      exact List.mem_singleton.mp present ▸ rfl
  | store size base offset src =>
    obtain ⟨hb, _, emitted⟩ := bind_eq_ok.mp emitted
    obtain ⟨o, _, emitted⟩ := bind_eq_ok.mp emitted
    cases emitted
    exact List.mem_singleton.mp present ▸ rfl
  | call dst func args =>
    obtain ⟨⟨before, saves⟩, prepares, made⟩ := bind_eq_ok.mp emitted
    cases made
    obtain ⟨_, _, _, moves, _⟩ := beforeCall_run prepares (by simp)
    rcases List.mem_append.mp present with early | late
    · obtain ⟨r, r', rfl⟩ := moves i early
      rfl
    · rcases List.mem_cons.mp late with rfl | late
      · rfl
      · obtain ⟨r, r', rfl⟩ := afterCall_moves i late
        rfl

theorem EmitsAll.straight (emits : EmitsAll lower pos xs code) (plain : ∀ i ∈ xs, i.isPhi = false) :
    ∀ i ∈ code, isJump i = false := by
  induction emits with
  | nil => exact fun i present => absurd present List.not_mem_nil
  | cons first _ ih =>
    intro i present
    rcases List.mem_append.mp present with own | later
    · exact emitInsn_straight (plain _ List.mem_cons_self) first i own
    · exact ih (fun j among => plain j (List.mem_cons_of_mem _ among)) i later

/-! ### Straight lines -/

/-- What reads a version is stuck, or leaves as it does with a value. -/
theorem reading_leaves {α : Type} {value : Option α} {use : α → InsnResult} {how : Leave}
    (ran : reading value use = .leave how) : how = .stuck ∨ ∃ y, use y = .leave how := by
  rcases reading_cases value use with failed | ⟨y, _, used⟩
  · exact Or.inl (InsnResult.leave.inj (ran.symm.trans failed))
  · exact Or.inr ⟨y, used.symm.trans ran⟩

/-- An instruction that is no control op fails, or is followed by the next one. -/
theorem execInsn_straight {how : Leave} (control : insn.isControl = false)
    (ran : execInsn m insn env world = .leave how) : how = .stuck ∨ ∃ kind, how = .ended (.fault kind) := by
  cases insn with
  | const | framePtr | entryCtx | loadImm64 => cases ran
  | phi =>
    cases ran
    exact Or.inl rfl
  | br | ja | exit => cases control
  | copy dst src =>
    rcases reading_leaves ran with stuck | ⟨y, left⟩
    · exact Or.inl stuck
    · cases left
  | binOp dst width op lhs rhs =>
    rcases reading_leaves ran with stuck | ⟨l, left⟩
    · exact Or.inl stuck
    · rcases reading_leaves left with stuck | ⟨r, right⟩
      · exact Or.inl stuck
      · split at right
        · cases right
          exact Or.inr ⟨_, rfl⟩
        · cases right
  | load dst size base offset =>
    rcases reading_leaves ran with stuck | ⟨addr, left⟩
    · exact Or.inl stuck
    · cases found : world.memory.load (addr + offset.toInt64) size with
      | error e =>
        simp only [found] at left
        cases left
        exact Or.inr ⟨_, rfl⟩
      | ok y =>
        simp only [found] at left
        cases dst <;> cases left
  | store size base offset src =>
    rcases reading_leaves ran with stuck | ⟨addr, left⟩
    · exact Or.inl stuck
    · rcases reading_leaves left with stuck | ⟨y, right⟩
      · exact Or.inl stuck
      · cases found : world.memory.store (addr + offset.toInt64) size y with
        | error e =>
          simp only [found] at right
          cases right
          exact Or.inr ⟨_, rfl⟩
        | ok memory =>
          simp only [found] at right
          cases right
  | call dst func args =>
    rcases reading_leaves ran with stuck | ⟨given, left⟩
    · exact Or.inl stuck
    · cases known : m.helpers func with
      | none =>
        simp only [known] at left
        cases left
        exact Or.inr ⟨_, rfl⟩
      | some helper =>
        cases answered : helper given world with
        | error e =>
          simp only [known, answered] at left
          cases left
          exact Or.inr ⟨_, rfl⟩
        | ok result =>
          simp only [known, answered] at left
          cases left

/-- The machine comes behind instructions with a run of them and the same effects, or fails where they fail. -/
def Follows (lower : Lower) (m : Machine) (prog : SsaProgram) (list : List Insn) (s : Standing) (vm : Vm) (count length : Nat)
    (r : ListResult) : Prop :=
  (r.how = none ∧ ∃ steps vm', Gets steps vm r.effects vm' ∧ vm'.pc = vm.pc + count ∧
    Tracks lower m prog list (s.past length r.env r.world) vm') ∨
  ∃ kind, r.how = some (.ended (.fault kind)) ∧ ∃ steps, showing steps vm = (r.effects, .ended (.fault kind))

theorem Follows.after {steps first count length : Nat} {effects : List World} {r : ListResult}
    (gets : Gets steps vm effects vm') (place : vm'.pc = vm.pc + first)
    (follows : Follows lower m prog list (s.past 1 env world) vm' count length r) :
    Follows lower m prog list s vm (first + count) (length + 1) { r with effects := effects ++ r.effects } := by
  rcases follows with ⟨done, k, vm'', gets', place', tracks⟩ | ⟨kind, fault, k, shown⟩
  · refine Or.inl ⟨done, steps + k, vm'', gets.trans gets', by rw [place', place, Nat.add_assoc], ?_⟩
    simpa only [Standing.past, Nat.add_assoc, Nat.add_comm 1 length] using tracks
  · exact Or.inr ⟨kind, fault, steps + k, by rw [gets, shown]⟩

section

variable (scene : Scene petgraph prog lower m) (reached : prog.Reaches block)
include scene reached

/-- What is emitted for an instruction that is neither a phi nor a control op does what it does. -/
theorem Scene.straight (split : prog.insnsOf block = pre ++ insn :: rest) (plain : insn.isPhi = false)
    (control : insn.isControl = false) (knows : Knows m prog block pre env)
    (tracks : Tracks lower m prog list ⟨⟨pred, block, pre.length⟩, env, world⟩ vm)
    (suits : Suits lower m prog ⟨⟨pred, block, pre.length⟩, env, world⟩)
    (body : pred = none ∨ prog.bodyStart block ≤ pre.length) (stands : Interp.Stands vm.exec vm.pc (Interp.load code))
    (emitted : lower.emitInsn (prog.flat (block, pre.length)) insn = .ok code) :
    Mirrors lower m prog list ⟨⟨pred, block, pre.length⟩, env, world⟩ vm code.length (execInsn m insn env world) := by
  cases insn with
  | const | loadImm64 | copy | binOp => exact scene.data reached split plain knows tracks suits body stands emitted rfl rfl
  | framePtr | entryCtx => exact scene.pseudo split plain tracks rfl emitted
  | load => exact scene.load reached split plain knows tracks suits body rfl stands emitted
  | store => exact scene.store reached split plain knows tracks rfl stands emitted
  | call => exact scene.call reached split knows tracks suits stands emitted
  | phi => cases plain
  | br | ja | exit => cases control

theorem Scene.follows (split : prog.insnsOf block = pre ++ (xs ++ rest)) (plain : ∀ i ∈ xs, i.isPhi = false)
    (control : ∀ i ∈ xs, i.isControl = false) (knows : Knows m prog block pre env)
    (tracks : Tracks lower m prog list ⟨⟨pred, block, pre.length⟩, env, world⟩ vm)
    (suits : ∀ n < xs.length, ∀ s', travel m prog n ⟨⟨pred, block, pre.length⟩, env, world⟩ = some s' → Suits lower m prog s')
    (body : pred = none ∨ prog.bodyStart block ≤ pre.length) (stands : Interp.Stands vm.exec vm.pc (Interp.load code))
    (emits : EmitsAll lower (prog.flat (block, pre.length)) xs code) :
    Follows lower m prog list ⟨⟨pred, block, pre.length⟩, env, world⟩ vm code.length xs.length (execList m xs env world) := by
  induction xs generalizing pre env world vm code with
  | nil =>
    cases emits
    exact Or.inl ⟨rfl, 0, vm, .refl vm, rfl, tracks⟩
  | cons insn xs ih =>
    cases emits with
    | @cons _ _ _ own code first others =>
    have split' : prog.insnsOf block = pre ++ insn :: (xs ++ rest) := split
    have plain' : ∀ i ∈ xs, i.isPhi = false := fun i among => plain i (List.mem_cons_of_mem _ among)
    have control' : ∀ i ∈ xs, i.isControl = false := fun i among => control i (List.mem_cons_of_mem _ among)
    have self := plain insn List.mem_cons_self
    have step : advance m prog ⟨⟨pred, block, pre.length⟩, env, world⟩ =
        Standing.proceed ⟨⟨pred, block, pre.length⟩, env, world⟩ (execInsn m insn env world) := advance_plain split' self
    rw [load_append (emitInsn_straight self first) (others.straight plain')] at stands
    obtain ⟨stands₁, stands₂⟩ := stands.append
    rw [load_length] at stands₂
    have mirrors := scene.straight reached split' self (control insn List.mem_cons_self) knows tracks
      (suits 0 (Nat.succ_pos _) _ rfl) body stands₁ first
    have next := scene.wf.exec_knows world reached ⟨_, split'⟩ self knows
    have later : ∀ {env' world' vm'}, Knows m prog block (pre ++ [insn]) env' →
        advance m prog ⟨⟨pred, block, pre.length⟩, env, world⟩ = some ⟨⟨pred, block, pre.length + 1⟩, env', world'⟩ →
        vm'.pc = vm.pc + own.length → Tracks lower m prog list ⟨⟨pred, block, pre.length + 1⟩, env', world'⟩ vm' →
        Follows lower m prog list ⟨⟨pred, block, pre.length + 1⟩, env', world'⟩ vm' code.length xs.length
          (execList m xs env' world') := by
      intro env' world' vm' knows' went place tracks'
      have long : (pre ++ [insn]).length = pre.length + 1 := by simp
      rw [← long] at went tracks' ⊢
      refine ih (by rw [split]; simp) plain' control' knows' tracks' (fun n short s' arrives => ?_) ?_ ?_ ?_
      · exact suits (n + 1) (Nat.succ_lt_succ short) s' (by rwa [travel_front went])
      · exact body.imp_right fun behind => by rw [long]; omega
      · rw [tracks'.loaded, ← tracks.loaded, place]
        exact stands₂
      · rw [long]
        exact others
    rw [List.length_append, List.length_cons]
    cases ran : execInsn m insn env world with
    | next env' =>
      rw [ran] at mirrors next step
      obtain ⟨steps, vm', gets, place, tracks'⟩ := mirrors
      rw [execList_next ran]
      exact Follows.after gets place (later next step place tracks')
    | effect env' world' =>
      rw [ran] at mirrors next step
      obtain ⟨steps, vm', gets, place, tracks'⟩ := mirrors
      rw [execList_effect ran]
      exact Follows.after gets place (later next step place tracks')
    | leave how =>
      rw [ran] at mirrors next
      rw [execList_leave ran]
      rcases execInsn_straight (control insn List.mem_cons_self) ran with rfl | ⟨kind, rfl⟩
      · exact absurd rfl next.1
      · exact Or.inr ⟨kind, rfl, mirrors kind rfl⟩

end

/-- Where no phi is ahead, control is behind the phis. -/
theorem bodyStart_le (split : prog.insnsOf block = pre ++ rest) (plain : ∀ i ∈ rest, i.isPhi = false) :
    prog.bodyStart block ≤ pre.length := by
  unfold SsaProgram.bodyStart List.rdropWhile
  have passed : ∀ i ∈ rest.reverse, (!i.isPhi) = true := fun i among => by simp [plain i (List.mem_reverse.mp among)]
  rw [split, List.reverse_append, List.dropWhile_append_of_pos passed, List.length_reverse]
  exact (List.dropWhile_sublist _).length_le.trans (List.length_reverse ..).le

/-- Wherever a run stands in the straight line of a block, behind its phis, a machine with the needed versions at home
does with the code of the rest of the line what the run does, if the homes suit the run there. -/
theorem emitData_follows (wf : prog.WellFormed) (produced : Produced prog) (ok : prepare petgraph prog = .ok lower)
    (conventional : ∀ func helper, m.helpers func = some helper → Conventional helper)
    (visits : Visits m prog start ⟨⟨pred, block, pre.length⟩, env, world⟩)
    (line : ((prog.insnsOf block).takeWhile fun i => !i.isControl) = pre ++ xs) (plain : ∀ i ∈ xs, i.isPhi = false)
    (emitted : lower.emitData block = .ok code)
    (suits : ∀ n < xs.length, ∀ s', travel m prog n ⟨⟨pred, block, pre.length⟩, env, world⟩ = some s' →
      Suits lower m prog s') :
    ∃ front own, code = front ++ own ∧ EmitsAll lower (prog.blockStart block) pre front ∧
      ∀ list vm, Tracks lower m prog list ⟨⟨pred, block, pre.length⟩, env, world⟩ vm →
        Interp.Stands vm.exec vm.pc (Interp.load own) →
        Follows lower m prog list ⟨⟨pred, block, pre.length⟩, env, world⟩ vm own.length xs.length (execList m xs env world) := by
  have prepared := prepare_prepared ok
  have scene : Scene petgraph prog lower m := ⟨wf, produced.regular, prepared, conventional⟩
  have whole := emitData_emits emitted
  rw [prepared.prog_eq, line] at whole
  obtain ⟨front, own, rfl, before, emits⟩ := whole.split
  obtain ⟨reached, knows⟩ := (visits.informed wf).knows
  dsimp only at reached knows
  have split : prog.insnsOf block = pre ++ (xs ++ (prog.insnsOf block).dropWhile fun i => !i.isControl) := by
    rw [← List.append_assoc, ← line, List.takeWhile_append_dropWhile]
  have control : ∀ i ∈ xs, i.isControl = false := fun i among => by
    have straight := List.all_eq_true.mp List.all_takeWhile i (line ▸ List.mem_append_right pre among)
    simpa using straight
  -- the line ends with its block, or at the control op that does
  have closing : ∀ i ∈ (prog.insnsOf block).dropWhile fun i => !i.isControl, i.isPhi = false := by
    intro i among
    have stops := List.head?_dropWhile_not (fun i => !SsaInsn.isControl i) (prog.insnsOf block)
    cases ended : (prog.insnsOf block).dropWhile fun i => !i.isControl with
    | nil =>
      rw [ended] at among
      cases among
    | cons last more =>
      rw [ended] at among stops split
      have control : last.isControl = true := by simpa using stops
      obtain rfl := wf.closed block (pre ++ xs) last more reached (by rw [split]; simp) control
      obtain rfl := List.mem_singleton.mp among
      cases i <;> first | rfl | cases control
  have behind := bodyStart_le split fun i among => (List.mem_append.mp among).elim (plain i) (closing i)
  rw [split, List.take_left] at knows
  exact ⟨front, own, rfl, before, fun list vm tracks stands =>
    scene.follows reached split plain control knows tracks suits (Or.inr behind) stands emits⟩

/-- What collecting the moves of `waiting` leaves. -/
def waitingLower : Lower :=
  { Lower.new waiting [none, none, some 1, some 0, some 2, some 3] (.compute searching waiting) with
    endMoves := [[⟨2, .reg 1⟩, ⟨3, .reg 0⟩], [], []]
    tramps := [⟨[⟨2, .reg 2⟩, ⟨3, .reg 3⟩], 1⟩]
    trampOf := [((1, 1), 0)] }

theorem waiting_suits {p : Point} (start : p.pred = none) (entry : p.block = 0) (line : p.index < 4) (point : s.point = p) :
    Suits waitingLower m waiting s := by
  obtain ⟨pred, block, index⟩ := p
  dsimp only at start entry line
  subst start entry
  have fronts : waiting.front s.point = [.const 0 0] ∨ waiting.front s.point = [.framePtr 1] ∨
      waiting.front s.point = [.entryCtx 2] ∨ waiting.front s.point = [.loadImm64 3 7] := by
    rw [point]
    obtain rfl | rfl | rfl | rfl : index = 0 ∨ index = 1 ∨ index = 2 ∨ index = 3 := by omega
    · exact Or.inl rfl
    · exact Or.inr (Or.inl rfl)
    · exact Or.inr (Or.inr (Or.inl rfl))
    · exact Or.inr (Or.inr (Or.inr rfl))
  have called : ∀ dst func args, waiting.front s.point ≠ [.call dst func args] := by
    intro dst func args same
    rcases fronts with front | front | front | front <;> rw [front] at same <;> cases same
  refine ⟨fun insn v h only _ _ _ => ?_, fun insn s' u v h only _ pseudo _ _ dst homed _ other _ shared => ?_,
    fun _ _ _ _ _ only => absurd only (called _ _ _), fun _ _ _ _ only => absurd only (called _ _ _),
    fun _ _ _ _ _ _ only => absurd only (called _ _ _)⟩
  · rcases fronts with front | front | front | front <;> rw [front] at only <;> cases only <;> trivial
  · have single : ∀ u, waitingLower.homeOf u = some 0 → u = 3 := by
      intro u found
      match u with
      | 0 | 1 | 2 | 4 | 5 => exact absurd found (by decide)
      | 3 => rfl
      | n + 6 => cases found
    rcases fronts with front | front | front | front <;> rw [front] at only <;> cases only
    · cases dst
      cases homed
    · cases pseudo
    · cases pseudo
    · cases dst
      cases homed
      exact absurd (single u shared) other

theorem emitData_follows_waiting : Follows waitingLower ⟨.empty, 0⟩ waiting waitingInsns
    (waiting.start (Vm.new waitingInsns).toWorld) (Vm.new waitingInsns) 1 4
      (execList ⟨.empty, 0⟩ ((waiting.insnsOf 0).take 4) (fun _ => none) (Vm.new waitingInsns).toWorld) := by
  have graph : buildCfg searching [.loadImm64 0 7, .jump .b64 .ne 1 (.imm 0) (-1), .exit] =
      .ok ⟨[⟨0, 1⟩, ⟨1, 2⟩, ⟨2, 3⟩], [⟨0, 1, .fallthrough⟩, ⟨1, 1, .branchTrue⟩, ⟨1, 2, .branchFalse⟩], 0,
        [0, 1, 2], [0, 2, 3], [0, 1, 2]⟩ := by rfl
  have wf : waiting.WellFormed :=
    buildSsa_form searching_documented graph (fun q single => by cases single) (by decide +kernel)
  have ok : prepare searching waiting = .ok waitingLower := by rfl
  have emitted : waitingLower.emitData 0 = .ok [.loadImm64 0 7] := by rfl
  have suits : ∀ n < 4, ∀ s', travel ⟨.empty, 0⟩ waiting n (waiting.start (Vm.new waitingInsns).toWorld) = some s' →
      Suits waitingLower ⟨.empty, 0⟩ waiting s' := by
    intro n short s' arrives
    obtain rfl | rfl | rfl | rfl : n = 0 ∨ n = 1 ∨ n = 2 ∨ n = 3 := by omega
    all_goals
      cases arrives
      exact waiting_suits rfl rfl (by decide) rfl
  obtain ⟨front, own, same, before, follows⟩ := @emitData_follows searching waiting waitingLower ⟨.empty, 0⟩ 0
    (fun _ => none) none [] ((waiting.insnsOf 0).take 4) (Vm.new waitingInsns).toWorld (Vm.new waitingInsns).toWorld
    [.loadImm64 0 7] wf waiting_produced ok
    (fun _ _ known => by cases known) ⟨0, rfl⟩ (by rfl) (by decide) emitted suits
  cases before
  cases same
  refine follows waitingInsns (Vm.new waitingInsns) ⟨rfl, rfl, rfl, fun u h x _ homed value => ?_⟩ fun i inside => ?_
  · match u with
    | 0 | 1 => cases homed
    | 2 =>
      cases homed
      cases value
      rfl
    | 3 | 4 | 5 | n + 6 => cases value
  · have first : i = 0 := by simpa [Interp.load] using inside
    subst first
    rfl

end EbpfLab.Ssa
