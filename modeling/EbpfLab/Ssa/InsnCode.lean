import EbpfLab.Ssa.Meaning
import EbpfLab.Ssa.Suited

/-!
# The code of an instruction

Straight code runs through where it stands in a program. Where the homes of the needed versions hold their values
and suit the run, the code emitted for an instruction does to the homes, and to the world, what the instruction does.
-/

namespace EbpfLab.Ssa
open Isa FlowGraph Library Interp

variable {petgraph : Petgraph}
  {prog : SsaProgram} {lower : Lower} {m : Machine} {s s' : Standing} {block pos k : Nat} {insn : SsaInsn}
  {u v dst : SsaValue} {h r : Reg} {env env' : Env} {regs : Regs} {x : Int64} {pred : Pred} {vm vm' : Vm}
  {pre rest : List SsaInsn} {world world' : World} {code list : List Insn} {xs ys : List ExecInsn} {kind : Fault}

/-! ### Straight code in a program -/

/-- The instructions that go on to the next one and leave the world alone. -/
def settles : Insn → Bool
  | .alu .. | .loadImm64 .. | .load .. => true
  | _ => false

theorem Gets.straight (stands : Interp.Stands vm.exec vm.pc xs) (straight : ∀ x ∈ xs, x.isStraight)
    (quiet : ∀ x ∈ xs, shows x = false) (done : vm.executeAll xs = (vm', .cont)) :
    Gets xs.length vm [] vm' ∧ vm'.exec = vm.exec := by
  induction xs generalizing vm with
  | nil =>
    cases done
    exact ⟨.refl _, rfl⟩
  | cons x xs ih =>
    obtain ⟨fetched, later⟩ := stands.tail
    rw [Vm.executeAll] at done
    split at done
    · rename_i next stepped
      obtain ⟨pc, exec⟩ := execute_straight (straight x List.mem_cons_self) stepped
      have step : vm.step = (next, .cont) := by
        rw [Vm.step, fetched]
        exact stepped
      obtain ⟨gets, same⟩ := ih (by rwa [pc, exec]) (fun y later => straight y (List.mem_cons_of_mem _ later))
        (fun y later => quiet y (List.mem_cons_of_mem _ later)) done
      have first := Gets.step step
      rw [fetched, Option.any_some, quiet x List.mem_cons_self] at first
      have both := first.trans gets
      rw [Nat.add_comm] at both
      exact ⟨both, same.trans exec⟩
    · rename_i stopped other
      exact absurd done (fun same => other vm' (by rw [same]))

theorem showing_failed {e : VmError} (stands : Interp.Stands vm.exec vm.pc xs) (straight : ∀ x ∈ xs, x.isStraight)
    (quiet : ∀ x ∈ xs, shows x = false) (failed : vm.executeAll xs = (vm', .error e)) :
    showing xs.length vm = ([], .ended (.fault (Fault.of e))) := by
  induction xs generalizing vm with
  | nil => cases failed
  | cons x xs ih =>
    obtain ⟨fetched, later⟩ := stands.tail
    rw [Vm.executeAll] at failed
    have ran : vm.step = vm.execute x := by rw [Vm.step, fetched]
    have silent : ¬(vm.exec[vm.pc]?).any shows = true := by
      rw [fetched, Option.any_some, quiet x List.mem_cons_self]
      exact Bool.false_ne_true
    split at failed
    · rename_i next stepped
      obtain ⟨pc, exec⟩ := execute_straight (straight x List.mem_cons_self) stepped
      have shown := ih (by rwa [pc, exec]) (fun y later => straight y (List.mem_cons_of_mem _ later))
        (fun y later => quiet y (List.mem_cons_of_mem _ later)) failed
      rw [List.length_cons]
      simp only [showing, ran, stepped, if_neg silent, shown]
    · rename_i stopped other
      have inside : vm.pc < vm.exec.length := (List.getElem?_eq_some_iff.mp fetched).1
      rw [List.length_cons]
      simp only [showing, ran, failed, if_neg (Nat.not_le.mpr inside)]

theorem settles_loaded (settled : ∀ i ∈ code, settles i = true) :
    (∀ i ∈ code, isJump i = false) ∧ ∀ x ∈ load code, x.isStraight ∧ shows x = false := by
  have straight : ∀ i ∈ code, isJump i = false := fun i present => by
    have settled := settled i present
    cases i <;> first | rfl | cases settled
  refine ⟨straight, fun x present => ?_⟩
  rw [load_straight straight] at present
  obtain ⟨i, listed, rfl⟩ := List.mem_map.mp present
  have settled := settled i listed
  cases i with
  | alu width op dst src =>
    cases op with
    | byteSwap endian =>
      cases src with
      | reg => exact ⟨rfl, rfl⟩
      | imm w =>
        unfold loadStraight lowerOne
        dsimp only
        split <;> exact ⟨rfl, rfl⟩
    | _ => cases src <;> exact ⟨rfl, rfl⟩
  | load | loadImm64 => exact ⟨rfl, rfl⟩
  | _ => cases settled

/-- Settled code gets through. -/
theorem Gets.settled (stands : Interp.Stands vm.exec vm.pc (load code)) (all : ∀ i ∈ code, settles i = true)
    (done : vm.executeAll (load code) = (vm', .cont)) : Gets code.length vm [] vm' ∧ vm'.exec = vm.exec := by
  obtain ⟨_, loaded⟩ := settles_loaded all
  have gets := Gets.straight stands (fun x present => (loaded x present).1) (fun x present => (loaded x present).2) done
  rwa [load_length] at gets

/-! ### Values -/

theorem valueIn_known (known : Known m prog env v) : prog.valueIn m env v = env v := by
  unfold SsaProgram.valueIn
  split
  · rename_i frame
    obtain ⟨block, pre, here⟩ := SsaProgram.at_of_code frame
    exact (known.fixed block pre _ stackBase here rfl rfl).symm
  · split
    · rename_i ctx
      obtain ⟨block, pre, here⟩ := SsaProgram.at_of_code ctx
      exact (known.fixed block pre _ m.ctx here rfl rfl).symm
    · rfl

theorem valueIn_computed (distinct : Distinct prog.code) (there : insn ∈ prog.code) (dst : insn.defDst = some v)
    (plain : insn.isPseudo = false) : prog.valueIn m env v = env v := by
  have neither : ∀ i ∈ prog.code, i.defDst = some v → i.isPseudo = false := fun i among dst' =>
    distinct.same there among dst dst' ▸ plain
  unfold SsaProgram.valueIn
  have frame : .framePtr v ∉ prog.code := fun among => by cases neither _ among rfl
  have ctx : .entryCtx v ∉ prog.code := fun among => by cases neither _ among rfl
  rw [if_neg frame, if_neg ctx]

/-- The value a pseudo is assigned is the one it has all along. -/
theorem valueIn_pseudo (distinct : Distinct prog.code) (there : insn ∈ prog.code) (dst : insn.defDst = some v)
    (pseudo : insn.isPseudo = true) :
    prog.valueIn m (env.set v x) u = prog.valueIn m env u := by
  by_cases same : u = v
  · subst same
    unfold SsaProgram.valueIn
    cases insn with
    | framePtr d =>
      cases dst
      rw [if_pos there, if_pos there]
    | entryCtx d =>
      cases dst
      have frame : .framePtr u ∉ prog.code := fun among => by cases distinct.same there among rfl rfl
      rw [if_neg frame, if_neg frame, if_pos there, if_pos there]
    | _ => cases pseudo
  · exact valueIn_congr prog m _ _ (if_neg same)

theorem operand_value {o : SsaOperand} (reads : ∀ u ∈ o.uses, env u = some (lower.valueOf regs u)) :
    env.operand o = some (lower.operandValue regs o) := by
  cases o with
  | value u => exact reads u (List.mem_singleton.mpr rfl)
  | imm k => rfl

/-- A data operation over the homes that its operands are read from. -/
theorem exec_data (data : insn.isData = true) (dst : insn.defDst = some v)
    (reads : ∀ u ∈ insn.uses, env u = some (lower.valueOf regs u)) (world world' : World) :
    (∃ x, execInsn m insn env world = .next (env.set v x) ∧
      execInsn m insn (lower.env regs) world' = .next ((lower.env regs).set v x)) ∨
    ∃ kind, execInsn m insn env world = .leave (.ended (.fault kind)) ∧
      execInsn m insn (lower.env regs) world' = .leave (.ended (.fault kind)) := by
  cases insn with
  | const d k | loadImm64 d k =>
    cases dst
    exact Or.inl ⟨k, rfl, rfl⟩
  | copy d u =>
    cases dst
    refine Or.inl ⟨lower.valueOf regs u, ?_, rfl⟩
    simp only [execInsn, reads u (List.mem_singleton.mpr rfl), reading]
  | binOp d width op lhs rhs =>
    cases dst
    have left := operand_value fun u use => reads u (List.mem_append_left _ use)
    have right := operand_value fun u use => reads u (List.mem_append_right _ use)
    rw [exec_binOp left right, execInsn_binOp]
    split
    · exact Or.inr ⟨_, rfl, rfl⟩
    · exact Or.inl ⟨_, rfl, rfl⟩
  | _ => cases data

/-- What is emitted for a data operation that fits its homes is faithful to it. -/
theorem Prepared.dataOp (prepared : Prepared petgraph prog lower) (regular : Regular prog) {site : Site}
    (there : (site, insn) ∈ prog.liveSites) (data : insn.isData = true) (dst : insn.defDst = some v)
    (homed : lower.homeOf v = some h) (emitted : lower.emitInsn pos insn = .ok code) (fits : DataFits lower h insn) :
    Faithful lower insn v h code := by
  have pseudo : insn.isPseudo = false := by cases insn <;> first | rfl | cases data
  have plain := prepared.plain regular (mem_code_of_site there) dst pseudo homed
  cases insn with
  | const d k =>
    cases dst
    simp only [Lower.emitInsn, homed] at emitted
    cases emitted
    exact (faithful_iff_puts (fun _ => k) fun _ _ _ => rfl).mpr fun vm => emitConst_puts plain k
  | loadImm64 d k =>
    cases dst
    simp only [Lower.emitInsn, homed] at emitted
    cases emitted
    exact (faithful_iff_puts (fun _ => k) fun _ _ _ => rfl).mpr fun vm => Puts.single rfl plain rfl
  | copy d u =>
    cases dst
    simp only [Lower.emitInsn, homed] at emitted
    obtain ⟨src, moved, made⟩ := bind_eq_ok.mp emitted
    cases made
    refine (faithful_iff_puts (lower.valueOf · u) fun _ _ _ => rfl).mpr fun vm => ?_
    rw [← moveSrc_eval moved]
    exact emitMove_puts plain
  | binOp d width op lhs rhs =>
    cases dst
    simp only [Lower.emitInsn, homed] at emitted
    have computes : (∀ endian, op ≠ .byteSwap endian) → ∀ (m : Machine) (regs : Regs) (world : World),
        execInsn m (.binOp v width op lhs rhs) (lower.env regs) world = .next ((lower.env regs).set v
          (op.apply (lower.operandValue regs lhs) (lower.operandValue regs rhs) width)) := by
      intro total m regs world
      rw [execInsn_binOp]
      refine if_neg ?_
      cases op <;> first | exact Bool.false_ne_true | exact absurd rfl (total _)
    cases op with
    | mov => exact (faithful_iff_puts _ (computes fun _ same => by cases same)).mpr ((emitMov_iff plain emitted).mpr fits)
    | neg => exact (faithful_iff_puts _ (computes fun _ same => by cases same)).mpr (emitNeg_puts plain emitted)
    | byteSwap endian => exact (emitSwap_iff plain emitted).mpr fits
    | _ =>
      obtain ⟨src, located⟩ := prepared.lhs_home there emitted
      exact (faithful_iff_puts _ (computes fun _ same => by cases same)).mpr
        ((emitAlu_iff rfl plain emitted located).mpr fits)
  | _ => cases data

/-! ### Beside a run -/

/-- What holds of a program and its lowering throughout. -/
structure Scene (petgraph : Petgraph) (prog : SsaProgram) (lower : Lower) (m : Machine) : Prop where
  wf : prog.WellFormed
  regular : Regular prog
  prepared : Prepared petgraph prog lower
  conventional : ∀ func helper, m.helpers func = some helper → Conventional helper

/-- The machine is where a run stands: in its world, with the needed versions at home. -/
structure Tracks (lower : Lower) (m : Machine) (prog : SsaProgram) (list : List Insn) (s : Standing) (vm : Vm) : Prop where
  loaded : vm.Loaded list
  helpers : vm.helpers = m.helpers
  world : vm.toWorld = s.world
  agrees : Agrees lower m prog (Needs m prog · s) s.env vm.regs

/-- The machine does what an instruction does, and is then behind its code. -/
def Mirrors (lower : Lower) (m : Machine) (prog : SsaProgram) (list : List Insn) (s : Standing) (vm : Vm) (count : Nat) :
    InsnResult → Prop
  | .next env => ∃ steps vm', Gets steps vm [] vm' ∧ vm'.pc = vm.pc + count ∧
      Tracks lower m prog list (s.past 1 env s.world) vm'
  | .effect env world => ∃ steps vm', Gets steps vm [world] vm' ∧ vm'.pc = vm.pc + count ∧
      Tracks lower m prog list (s.past 1 env world) vm'
  | .leave how => ∀ kind, how = .ended (.fault kind) → ∃ steps, showing steps vm = ([], .ended (.fault kind))

theorem wants_plain {p : Point} (only : prog.front p = [insn]) (plain : insn.isPhi = false) (used : u ∈ insn.uses) :
    u ∈ prog.wants p := by
  unfold SsaProgram.wants
  split
  · rw [SsaProgram.reads, only, List.flatMap_singleton]
    cases insn with
    | phi => cases plain
    | _ => exact used
  · refine List.mem_append_right _ ?_
    rw [only]
    simpa [plain] using used

theorem computes_single {p : Point} (only : prog.front p = [insn]) (dst : insn.defDst = some v)
    (computed : u ∈ prog.computes p) : u = v ∧ insn.isPseudo = false := by
  unfold SsaProgram.computes at computed
  rw [only, List.filter_singleton] at computed
  cases pseudo : insn.isPseudo with
  | true =>
    rw [pseudo] at computed
    cases computed
  | false =>
    rw [pseudo] at computed
    obtain ⟨i, listed, dst'⟩ := mem_defs.mp computed
    rw [List.mem_singleton.mp listed, dst] at dst'
    exact ⟨(Option.some.inj dst').symm, rfl⟩

theorem computes_none {p : Point} (only : prog.front p = [insn]) (dst : insn.defDst = none) : u ∉ prog.computes p := by
  intro computed
  obtain ⟨i, listed, dst'⟩ := mem_defs.mp computed
  rw [only] at listed
  rw [List.mem_singleton.mp (List.mem_of_mem_filter listed), dst] at dst'
  cases dst'

section

variable {s₀ : Standing} (scene : Scene petgraph prog lower m) (only : prog.front s₀.point = [insn])
  (step : advance m prog s₀ = some s')
include scene only step

omit scene only in
/-- What is needed behind an instruction, and not computed by it, was at home before. -/
theorem Agrees.kept (agrees : Agrees lower m prog (Needs m prog · s₀) s₀.env regs)
    (same : prog.valueIn m s'.env u = prog.valueIn m s₀.env u) (other : u ∉ prog.computes s₀.point)
    (needed : Needs m prog u s') (homed : lower.homeOf u = some h) (value : prog.valueIn m s'.env u = some x) :
    regs h = x :=
  agrees u h x (.later step other needed) homed (same ▸ value)

/-- Behind an instruction that puts its version in its home. -/
theorem Agrees.put (agrees : Agrees lower m prog (Needs m prog · s₀) s₀.env regs) (suits : Suits lower m prog s₀)
    (there : insn ∈ prog.code) (dst : insn.defDst = some v) (plain : insn.isPhi = false) (pseudo : insn.isPseudo = false)
    (call : SsaProgram.isCall insn = false) (homed : lower.homeOf v = some h)
    (body : s₀.point.pred = none ∨ prog.bodyStart s₀.point.block ≤ s₀.point.index) (sets : s'.env = s₀.env.set v x) :
    Agrees lower m prog (Needs m prog · s') s'.env (Function.update regs h x) := by
  have self : s'.env v = some x := by rw [sets]; exact if_pos rfl
  intro u k y needed at_home value
  by_cases same : u = v
  · subst same
    rw [valueIn_computed scene.regular.distinct there dst pseudo, self] at value
    cases value
    cases homed.symm.trans at_home
    exact Function.update_self ..
  · by_cases shared : k = h
    · subst shared
      rw [suits.apart insn s' u v k only plain pseudo call step dst homed body same needed at_home, self] at value
      cases value
      exact Function.update_self ..
    · rw [Function.update_of_ne shared]
      refine agrees.kept step ?_ (fun computed => same (computes_single only dst computed).1) needed at_home value
      exact valueIn_congr prog m _ _ (by rw [sets]; exact if_neg same)

end

/-! ### Emitted code -/

theorem emitMove_settles {placed : PlacedMove} : ∀ i ∈ emitMove placed, settles i = true := by
  intro i present
  unfold emitMove at present
  split at present
  · split at present
    · cases present
    · exact List.mem_singleton.mp present ▸ rfl
  · exact List.mem_singleton.mp present ▸ rfl
  · exact List.mem_singleton.mp present ▸ rfl

theorem emitConst_settles (k : Int64) : ∀ i ∈ emitConst h k, settles i = true := by
  intro i present
  unfold emitConst at present
  split at present <;> exact List.mem_singleton.mp present ▸ rfl

theorem emitInsn_settles (data : insn.isData = true) (emitted : lower.emitInsn pos insn = .ok code) :
    ∀ i ∈ code, settles i = true := by
  have nothing : ∀ i ∈ ([] : List Insn), settles i = true := fun i present => absurd present List.not_mem_nil
  cases insn with
  | const d k =>
    unfold Lower.emitInsn at emitted
    dsimp only at emitted
    split at emitted
    · cases emitted
      exact emitConst_settles k
    · cases emitted
      exact nothing
  | loadImm64 d k =>
    unfold Lower.emitInsn at emitted
    dsimp only at emitted
    split at emitted
    · cases emitted
      exact fun i present => List.mem_singleton.mp present ▸ rfl
    · cases emitted
      exact nothing
  | copy d u =>
    unfold Lower.emitInsn at emitted
    dsimp only at emitted
    split at emitted
    · obtain ⟨src, _, made⟩ := bind_eq_ok.mp emitted
      cases made
      exact emitMove_settles
    · cases emitted
      exact nothing
  | binOp d width op lhs rhs =>
    unfold Lower.emitInsn at emitted
    dsimp only at emitted
    split at emitted
    · split at emitted
      · obtain ⟨src, _, made⟩ := bind_eq_ok.mp emitted
        split at made
        · split at made
          · cases made
            exact nothing
          · cases made
            exact fun i present => List.mem_singleton.mp present ▸ rfl
        · cases made
          exact fun i present => List.mem_singleton.mp present ▸ rfl
        · cases made
      · obtain ⟨src, o, _, _, rfl⟩ := emitAlu_code emitted
        intro i present
        rcases List.mem_append.mp present with moved | last
        · exact emitMove_settles i moved
        · exact List.mem_singleton.mp last ▸ rfl
    · cases emitted
      exact nothing
  | _ => cases data

/-- Nothing is emitted for a data operation without a home. -/
theorem emitInsn_homeless (data : insn.isData = true) (dst : insn.defDst = some v) (homeless : lower.homeOf v = none)
    (emitted : lower.emitInsn pos insn = .ok code) : code = [] := by
  cases insn with
  | const | loadImm64 | copy | binOp =>
    cases dst
    unfold Lower.emitInsn at emitted
    simp only [homeless] at emitted
    cases emitted
    rfl
  | _ => cases data

section

variable (scene : Scene petgraph prog lower m) (reached : prog.Reaches block) (split : prog.insnsOf block = pre ++ insn :: rest)
  (plain : insn.isPhi = false) (knows : Knows m prog block pre env)
  (tracks : Tracks lower m prog list ⟨⟨pred, block, pre.length⟩, env, world⟩ vm)
include scene reached split plain knows

theorem Scene.used_value {value : Int64} (used : u ∈ insn.uses) (held : env u = some value)
    (tracks : Tracks lower m prog list ⟨⟨pred, block, pre.length⟩, env, world⟩ vm) :
    ∃ h, lower.homeOf u = some h ∧ vm.regs h = value := by
  have here : prog.At block pre insn := ⟨rest, split⟩
  have known := knows u (scene.wf.uses _ _ _ reached here plain u used)
  obtain ⟨h, homed⟩ := scene.prepared.read_home scene.wf reached here plain used
  have needed : Needs m prog u ⟨⟨pred, block, pre.length⟩, env, world⟩ :=
    .read (wants_plain (front_plain split rfl plain) plain used)
  exact ⟨h, homed, tracks.agrees u h value needed homed ((valueIn_known known).trans held)⟩

include tracks

/-- What an instruction reads is at home. -/
theorem Scene.reads : ∀ u ∈ insn.uses, env u = some (lower.valueOf vm.regs u) := by
  intro u used
  have known := knows u (scene.wf.uses _ _ _ reached ⟨rest, split⟩ plain u used)
  obtain ⟨value, held⟩ := known.assigned
  obtain ⟨h, homed, same⟩ := scene.used_value reached split plain knows used held tracks
  rw [held, Lower.valueOf, homed]
  exact congrArg some same.symm

omit reached knows in
theorem Scene.pseudo (pseudo : insn.isPseudo = true) (emitted : lower.emitInsn pos insn = .ok code) :
    Mirrors lower m prog list ⟨⟨pred, block, pre.length⟩, env, world⟩ vm code.length (execInsn m insn env world) := by
  have there : insn ∈ prog.code := SsaProgram.mem_code (split ▸ List.mem_append_right _ List.mem_cons_self)
  have only : prog.front ⟨pred, block, pre.length⟩ = [insn] := front_plain split rfl plain
  obtain ⟨d, x, dst, ran, none_⟩ : ∃ d x, insn.defDst = some d ∧ execInsn m insn env world = .next (env.set d x) ∧
      code = [] := by
    cases insn with
    | framePtr d | entryCtx d =>
      cases emitted
      exact ⟨d, _, rfl, rfl, rfl⟩
    | _ => cases pseudo
  subst none_
  have step : advance m prog ⟨⟨pred, block, pre.length⟩, env, world⟩ =
      Standing.proceed ⟨⟨pred, block, pre.length⟩, env, world⟩ (execInsn m insn env world) := advance_plain split plain
  rw [ran] at step ⊢
  refine ⟨0, vm, .refl vm, rfl, tracks.loaded, tracks.helpers, tracks.world, fun u h y needed homed value => ?_⟩
  refine tracks.agrees.kept step (valueIn_pseudo scene.regular.distinct there dst pseudo) (fun computed => ?_) needed homed value
  have computed := (computes_single only dst computed).2
  rw [pseudo] at computed
  cases computed

variable (suits : Suits lower m prog ⟨⟨pred, block, pre.length⟩, env, world⟩)
  (body : pred = none ∨ prog.bodyStart block ≤ pre.length) (stands : Interp.Stands vm.exec vm.pc (load code))
  (emitted : lower.emitInsn (prog.flat (block, pre.length)) insn = .ok code)
include suits body stands emitted

omit suits body in
/-- An operation without a home does not fail: the width of a byte swap is known. -/
theorem Scene.homeless (data : insn.isData = true) (dst : insn.defDst = some v) (homeless : lower.homeOf v = none) :
    Mirrors lower m prog list ⟨⟨pred, block, pre.length⟩, env, world⟩ vm code.length (execInsn m insn env world) := by
  have here : prog.At block pre insn := ⟨rest, split⟩
  have there : insn ∈ prog.code := SsaProgram.mem_code here.mem
  have only : prog.front ⟨pred, block, pre.length⟩ = [insn] := front_plain split rfl plain
  obtain rfl := emitInsn_homeless data dst homeless emitted
  have reads := scene.reads reached split plain knows tracks
  rcases exec_data data dst reads world world with ⟨x, ran, _⟩ | ⟨kind, ran, _⟩
  · have step : advance m prog ⟨⟨pred, block, pre.length⟩, env, world⟩ =
        Standing.proceed ⟨⟨pred, block, pre.length⟩, env, world⟩ (execInsn m insn env world) := advance_plain split plain
    rw [ran] at step ⊢
    refine ⟨0, vm, .refl vm, rfl, tracks.loaded, tracks.helpers, tracks.world, fun u h y needed homed value => ?_⟩
    have other : u ≠ v := by
      rintro rfl
      rw [homeless] at homed
      cases homed
    exact tracks.agrees.kept step (valueIn_congr prog m _ _ (if_neg other))
      (fun computed => other (computes_single only dst computed).1) needed homed value
  · exfalso
    cases insn with
    | const | loadImm64 => cases ran
    | copy d u =>
      obtain ⟨y, held⟩ := (knows u (scene.wf.uses _ _ _ reached here plain u (List.mem_singleton.mpr rfl))).assigned
      simp only [execInsn, held, reading] at ran
      cases ran
    | binOp d width op lhs rhs =>
      cases dst
      have left := operand_value fun u use => reads u (List.mem_append_left _ use)
      have right := operand_value fun u use => reads u (List.mem_append_right _ use)
      rw [exec_binOp left right] at ran
      split at ran
      · rename_i bad
        cases op with
        | byteSwap endian =>
          have inside : v < prog.defSites.length := by
            have site := scene.wf.recorded block pre _ v (scene.wf.live block reached) here rfl
            exact (List.getElem?_eq_some_iff.mp site).1
          have fine := allocate_swaps scene.regular.distinct scene.prepared.allocated there inside homeless
          obtain ⟨k, known, valid⟩ := (Option.any_eq_true _ _).mp fine
          have value : env.operand rhs = some k := by
            cases rhs with
            | imm w =>
              cases known
              rfl
            | value u =>
              have available := scene.wf.uses _ _ _ reached here plain u
                (List.mem_append_right _ (List.mem_singleton.mpr rfl))
              obtain ⟨i, recorded, defines, among⟩ := scene.wf.recorded_of_available available reached
                ⟨_, split.symm⟩
              obtain ⟨block', pre', at_⟩ := SsaProgram.at_of_code among
              refine (knows u available).fixed block' pre' i k at_ defines ?_
              simp only [SsaProgram.constValue, recorded] at known
              cases i <;> first | exact known | cases known
          rw [right] at value
          cases value
          simp [badEnd, valid] at bad
        | _ => cases bad
      · cases ran
    | _ => cases data

theorem Scene.data (data : insn.isData = true) (dst : insn.defDst = some v) :
    Mirrors lower m prog list ⟨⟨pred, block, pre.length⟩, env, world⟩ vm code.length (execInsn m insn env world) := by
  cases homed : lower.homeOf v with
  | none => exact scene.homeless reached split plain knows tracks stands emitted data dst homed
  | some h =>
    have here : prog.At block pre insn := ⟨rest, split⟩
    have only : prog.front ⟨pred, block, pre.length⟩ = [insn] := front_plain split rfl plain
    have faithful := scene.prepared.dataOp scene.regular (here.liveSite (scene.wf.live block reached)) data dst homed
      emitted (suits.fits insn v h only data dst homed)
    have settled := emitInsn_settles data emitted
    rcases exec_data data dst (scene.reads reached split plain knows tracks) world vm.toWorld with
      ⟨x, ran, ran'⟩ | ⟨kind, ran, ran'⟩
    · have puts := (faithful m vm).1 _ x ran' (if_pos rfl)
      have step : advance m prog ⟨⟨pred, block, pre.length⟩, env, world⟩ =
          Standing.proceed ⟨⟨pred, block, pre.length⟩, env, world⟩ (execInsn m insn env world) := advance_plain split plain
      rw [ran] at step ⊢
      obtain ⟨pseudo, call⟩ : insn.isPseudo = false ∧ SsaProgram.isCall insn = false := by
        cases insn <;> first | exact ⟨rfl, rfl⟩ | cases data
      exact ⟨_, _, (Gets.settled stands settled puts).1, rfl, tracks.loaded, tracks.helpers, tracks.world,
        tracks.agrees.put scene only step suits (SsaProgram.mem_code here.mem) dst plain pseudo call homed body rfl⟩
    · obtain ⟨vm', e, failed, same, _⟩ := (faithful m vm).2 kind ran'
      obtain ⟨_, loaded⟩ := settles_loaded settled
      rw [ran]
      rintro _ ⟨⟩
      exact ⟨_, same ▸ showing_failed stands (fun x present => (loaded x present).1)
        (fun x present => (loaded x present).2) failed⟩

omit stands emitted in
theorem Scene.load {size : MemSize} {dst : Option SsaValue} {base : SsaValue} {offset : Int16}
    (loads : insn = .load dst size base offset) (stands : Interp.Stands vm.exec vm.pc (Interp.load code))
    (emitted : lower.emitInsn (prog.flat (block, pre.length)) insn = .ok code) :
    Mirrors lower m prog list ⟨⟨pred, block, pre.length⟩, env, world⟩ vm code.length (execInsn m insn env world) := by
  subst loads
  have here : prog.At block pre (.load dst size base offset) := ⟨rest, split⟩
  have only : prog.front ⟨pred, block, pre.length⟩ = [.load dst size base offset] := front_plain split rfl plain
  have step : advance m prog ⟨⟨pred, block, pre.length⟩, env, world⟩ =
      Standing.proceed ⟨⟨pred, block, pre.length⟩, env, world⟩ (execInsn m (.load dst size base offset) env world) :=
    advance_plain split plain
  obtain ⟨hb, required, emitted⟩ := bind_eq_ok.mp emitted
  cases dst with
  | none => cases emitted
  | some v =>
    obtain ⟨hv, given, emitted⟩ := bind_eq_ok.mp emitted
    cases emitted
    have homed := requireHome_eq given
    obtain ⟨addr, held⟩ := (knows base (scene.wf.uses _ _ _ reached here plain base List.mem_cons_self)).assigned
    obtain ⟨hb', homed', same⟩ := scene.used_value reached split plain knows List.mem_cons_self held tracks
    cases (requireHome_eq required).symm.trans homed'
    have memory : vm.memory = world.memory := congrArg World.memory tracks.world
    have settled : ∀ i ∈ [Insn.load size hv hb offset], settles i = true := fun i present =>
      List.mem_singleton.mp present ▸ rfl
    have single : Interp.load [.load size hv hb offset] = [.load size hv hb offset] := rfl
    cases found : world.memory.load (addr + offset.toInt64) size with
    | error e =>
      have ran : execInsn m (.load (some v) size base offset) env world = .leave (.ended (.fault (.memory e))) := by
        simp only [execInsn, held, reading, found]
      have executed : vm.executeAll (Interp.load [.load size hv hb offset]) = (vm, .error (.memory e)) := by
        rw [single, Vm.executeAll_single, Vm.execute, same, memory, found]
      rw [ran]
      rintro _ ⟨⟩
      obtain ⟨_, loaded⟩ := settles_loaded settled
      exact ⟨_, showing_failed stands (fun x present => (loaded x present).1) (fun x present => (loaded x present).2) executed⟩
    | ok x =>
      have ran : execInsn m (.load (some v) size base offset) env world = .next (env.set v x) := by
        simp only [execInsn, held, reading, found]
      have executed : vm.executeAll (Interp.load [.load size hv hb offset]) = (vm.assign hv x, .cont) := by
        rw [single, Vm.executeAll_single, Vm.execute, same, memory, found]
      rw [ran] at step ⊢
      have there : .load (some v) size base offset ∈ prog.code := SsaProgram.mem_code here.mem
      have apart : hv ≠ 10 := scene.prepared.plain scene.regular there rfl rfl homed
      have agrees := tracks.agrees.put scene only step suits there rfl plain rfl rfl homed body rfl
      rw [← write_home apart] at agrees
      exact ⟨_, _, (Gets.settled stands settled executed).1, rfl, tracks.loaded, tracks.helpers, tracks.world, agrees⟩

omit suits body stands emitted in
theorem Scene.store {size : MemSize} {base : SsaValue} {offset : Int16} {src : SsaOperand}
    (stores : insn = .store size base offset src) (stands : Interp.Stands vm.exec vm.pc (Interp.load code))
    (emitted : lower.emitInsn (prog.flat (block, pre.length)) insn = .ok code) :
    Mirrors lower m prog list ⟨⟨pred, block, pre.length⟩, env, world⟩ vm code.length (execInsn m insn env world) := by
  subst stores
  have here : prog.At block pre (.store size base offset src) := ⟨rest, split⟩
  have only : prog.front ⟨pred, block, pre.length⟩ = [.store size base offset src] := front_plain split rfl plain
  have step : advance m prog ⟨⟨pred, block, pre.length⟩, env, world⟩ =
      Standing.proceed ⟨⟨pred, block, pre.length⟩, env, world⟩ (execInsn m (.store size base offset src) env world) :=
    advance_plain split plain
  obtain ⟨hb, required, emitted⟩ := bind_eq_ok.mp emitted
  obtain ⟨o, given, emitted⟩ := bind_eq_ok.mp emitted
  cases emitted
  obtain ⟨addr, held⟩ := (knows base (scene.wf.uses _ _ _ reached here plain base List.mem_cons_self)).assigned
  obtain ⟨hb', homed', same⟩ := scene.used_value reached split plain knows List.mem_cons_self held tracks
  cases (requireHome_eq required).symm.trans homed'
  have read := operand_value fun u use =>
    scene.reads reached split plain knows tracks u (List.mem_cons_of_mem _ use)
  have memory : vm.memory = world.memory := congrArg World.memory tracks.world
  obtain ⟨x, loaded, effect, executed⟩ : ∃ x, Interp.load [.store size hb offset o] = [x] ∧ shows x = true ∧
      vm.execute x = vm.storeTo size hb offset (lower.operandValue vm.regs src) := by
    rcases operandOf_cases given with ⟨r, rfl, _, value⟩ | ⟨k, rfl, rfl⟩
    · exact ⟨.storeReg size hb offset r, rfl, rfl, by rw [value]; rfl⟩
    · exact ⟨.storeImm size hb offset k, rfl, rfl, rfl⟩
  have fetched : vm.exec[vm.pc]? = some x := by
    rw [loaded] at stands
    exact stands.tail.1
  have stepped : vm.step = vm.storeTo size hb offset (lower.operandValue vm.regs src) := by
    rw [Vm.step, fetched]
    exact executed
  unfold Vm.storeTo at stepped
  rw [same, memory] at stepped
  cases found : world.memory.store (addr + offset.toInt64) size (lower.operandValue vm.regs src) with
  | error e =>
    have ran : execInsn m (.store size base offset src) env world = .leave (.ended (.fault (.memory e))) := by
      simp only [execInsn, held, reading, read, found]
    rw [found] at stepped
    rw [ran]
    rintro _ ⟨⟩
    have inside : vm.pc < vm.exec.length := (List.getElem?_eq_some_iff.mp fetched).1
    refine ⟨1, ?_⟩
    simp only [showing, stepped, if_neg (Nat.not_le.mpr inside)]
    rfl
  | ok memory' =>
    have ran : execInsn m (.store size base offset src) env world =
        .effect env { world with memory := memory' } := by
      simp only [execInsn, held, reading, read, found]
    rw [found] at stepped
    rw [ran] at step ⊢
    have gets := Gets.step stepped
    have shown : (vm.exec[vm.pc]?).any shows = true := by rw [fetched]; exact effect
    rw [if_pos shown] at gets
    have maps : vm.maps = world.maps := congrArg World.maps tracks.world
    have left : ({ vm with memory := memory', pc := vm.pc + 1 } : Vm).toWorld = { world with memory := memory' } := by
      change World.mk memory' vm.maps = World.mk memory' world.maps
      rw [maps]
    rw [left] at gets
    refine ⟨_, _, gets, rfl, tracks.loaded, tracks.helpers, left, fun u h y needed homed value => ?_⟩
    exact tracks.agrees.kept step rfl (computes_none only rfl) needed homed value

omit body stands emitted in
/-- The code of a call comes to it with the arguments in `r1`–`r5`. -/
theorem Scene.arguments {func : UInt32} {args : Vector SsaValue 5} (calls : insn = .call dst func args)
    (required : args.toList.mapM lower.requireHome = .ok (lower.argHomes args.toList))
    (fits : Saves lower (lower.argHomes args.toList) (prog.flat (block, pre.length))) :
    ∃ given, env.argRegs args = some given ∧ ∀ r : Reg, 1 ≤ r.val → r.val ≤ 5 →
      given r = lower.atCall (lower.argHomes args.toList) (prog.flat (block, pre.length)) vm.regs r := by
  subst calls
  have reads := scene.reads reached split plain knows tracks
  have every : ∀ xs : List SsaValue, (∀ u ∈ xs, env u = some (lower.valueOf vm.regs u)) →
      xs.mapM env = some (xs.map (lower.valueOf vm.regs)) := by
    intro xs
    induction xs with
    | nil => exact fun _ => rfl
    | cons v xs ih =>
      intro held
      rw [List.mapM_cons, held v List.mem_cons_self, ih fun u later => held u (List.mem_cons_of_mem _ later)]
      rfl
  have values := every args.toList reads
  refine ⟨_, by rw [Env.argRegs, values]; rfl, fun r low high => ?_⟩
  have place : r.val - 1 < args.toList.length := by simp; omega
  have nonzero : r ≠ 0 := by rintro rfl; exact absurd low (by decide)
  have located : convention (r.val - 1) = r := by
    ext
    simp only [convention, Fin.ofNat]
    omega
  have argument : args.toList[r.val - 1] ∈ args.toList := List.getElem_mem place
  obtain ⟨home, homed, brought⟩ := scene.used_value reached split plain knows argument (reads _ argument) tracks
  have found : (lower.argHomes args.toList)[r.val - 1]? = some home :=
    (argHomes_getElem? required).mpr ⟨_, List.getElem?_eq_getElem place, homed⟩
  dsimp only
  rw [if_neg nonzero, List.getD_eq_getElem?_getD, List.getElem?_map, List.getElem?_eq_getElem place, Option.map_some,
    Option.getD_some, ← brought]
  by_cases inPlace : home = convention (r.val - 1)
  · rw [← located, ← inPlace]
    exact (Saves.atCall_else (inPlace_still fits.short found inPlace)
      (suits.inPlace dst func args home _ (front_plain split rfl plain) found inPlace)).symm
  · have moved := fits.atCall_moved vm.regs (Lower.mem_shuffle.mpr ⟨_, home, found, inPlace, rfl⟩) rfl
    dsimp only at moved
    rw [located] at moved
    exact moved.symm

end

/-- Moves, a call and moves, where they stand in a program. -/
theorem stands_call {func : UInt32} {before behind : List Insn} (moves : ∀ i ∈ before, ∃ r r', i = mov64 r r')
    (moves' : ∀ i ∈ behind, ∃ r r', i = mov64 r r')
    (stands : Interp.Stands vm.exec pos (Interp.load (before ++ .call func :: behind))) :
    Interp.Stands vm.exec pos (Interp.load before) ∧ vm.exec[pos + before.length]? = some (.call func) ∧
      Interp.Stands vm.exec (pos + before.length + 1) (Interp.load behind) ∧
      (∀ i ∈ before, settles i = true) ∧ ∀ i ∈ behind, settles i = true := by
  have moving : ∀ i, (∃ r r', i = mov64 r r') → isJump i = false ∧ settles i = true := by
    rintro i ⟨r, r', rfl⟩
    exact ⟨rfl, rfl⟩
  have left : ∀ i ∈ before, isJump i = false := fun i present => (moving i (moves i present)).1
  have right : ∀ i ∈ behind, isJump i = false := fun i present => (moving i (moves' i present)).1
  have call : ∀ i ∈ [Insn.call func], isJump i = false := fun i present => List.mem_singleton.mp present ▸ rfl
  have joint : ∀ i ∈ [Insn.call func] ++ behind, isJump i = false := fun i present =>
    (List.mem_append.mp present).elim (call i) (right i)
  rw [← List.singleton_append, load_append left joint, load_append call right] at stands
  obtain ⟨first, stands⟩ := stands.append
  obtain ⟨second, third⟩ := stands.append
  rw [load_length] at second third
  exact ⟨first, second.tail.1, third, fun i present => (moving i (moves i present)).2,
    fun i present => (moving i (moves' i present)).2⟩

theorem Scene.call {func : UInt32} {args : Vector SsaValue 5} (scene : Scene petgraph prog lower m) (reached : prog.Reaches block)
    (split : prog.insnsOf block = pre ++ .call dst func args :: rest) (knows : Knows m prog block pre env)
    (tracks : Tracks lower m prog list ⟨⟨pred, block, pre.length⟩, env, world⟩ vm)
    (suits : Suits lower m prog ⟨⟨pred, block, pre.length⟩, env, world⟩)
    (stands : Interp.Stands vm.exec vm.pc (Interp.load code))
    (emitted : lower.emitCall dst func args.toList (prog.flat (block, pre.length)) = .ok code) :
    Mirrors lower m prog list ⟨⟨pred, block, pre.length⟩, env, world⟩ vm code.length
      (execInsn m (.call dst func args) env world) := by
  have there : .call dst func args ∈ prog.code := SsaProgram.mem_code (split ▸ List.mem_append_right _ List.mem_cons_self)
  have only : prog.front ⟨pred, block, pre.length⟩ = [.call dst func args] := front_plain split rfl rfl
  have apart : ∀ home, lower.homeOf dst = some home → home ≠ 10 := fun home homed =>
    scene.prepared.plain scene.regular there rfl rfl homed
  obtain ⟨⟨before, saves⟩, prepares, made⟩ := bind_eq_ok.mp emitted
  cases made
  obtain ⟨required, fits, rfl, moves, run⟩ := beforeCall_run prepares (by simp)
  obtain ⟨moves', run'⟩ := afterCall_run apart fits
  obtain ⟨first, fetched, third, settled, settled'⟩ := stands_call moves moves' stands
  obtain ⟨given, read, same⟩ := scene.arguments reached split rfl knows tracks suits rfl required fits
  have inside : vm.pc + before.length < vm.exec.length := (List.getElem?_eq_some_iff.mp fetched).1
  have step : advance m prog ⟨⟨pred, block, pre.length⟩, env, world⟩ =
      Standing.proceed ⟨⟨pred, block, pre.length⟩, env, world⟩ (execInsn m (.call dst func args) env world) :=
    advance_plain split rfl
  obtain ⟨vm₁, gets, place, regs₁, world₁, helpers₁, exec₁⟩ : ∃ vm₁ : Vm, Gets before.length vm [] vm₁ ∧
      vm₁.pc = vm.pc + before.length ∧
      vm₁.regs = lower.atCall (lower.argHomes args.toList) (prog.flat (block, pre.length)) vm.regs ∧
      vm₁.toWorld = world ∧ vm₁.helpers = m.helpers ∧ vm₁.exec = vm.exec :=
    ⟨_, (Gets.settled first settled (run vm)).1, rfl, rfl, tracks.world, tracks.helpers, rfl⟩
  have called : vm₁.step = vm₁.dispatchHelper func := by
    rw [Vm.step, exec₁, place, fetched]
    rfl
  unfold Vm.dispatchHelper at called
  rw [helpers₁] at called
  have failing : ∀ e, vm₁.step = (vm₁, .error e) → ∃ steps, showing steps vm = ([], .ended (.fault (Fault.of e))) := by
    intro e stepped
    refine ⟨before.length + 1, ?_⟩
    rw [gets 1]
    simp only [showing, stepped, exec₁, place, if_neg (Nat.not_le.mpr inside), List.append_nil]
  cases known : m.helpers func with
  | none =>
    have ran : execInsn m (.call dst func args) env world = .leave (.ended (.fault (.unknownHelper func))) := by
      simp only [execInsn, read, reading, known]
    rw [known] at called
    rw [ran]
    rintro _ ⟨⟩
    exact failing _ called
  | some helper =>
    have agree : helper vm₁.regs vm₁.toWorld = helper given world := by
      rw [world₁, regs₁]
      exact (scene.conventional func helper known given _ world same).symm
    rw [known] at called
    dsimp only at called
    rw [agree] at called
    cases answered : helper given world with
    | error e =>
      have ran : execInsn m (.call dst func args) env world = .leave (.ended (.fault (.of e))) := by
        simp only [execInsn, read, reading, known, answered]
      rw [answered] at called
      rw [ran]
      rintro _ ⟨⟩
      exact failing _ called
    | ok result =>
      obtain ⟨r0, world'⟩ := result
      have ran : execInsn m (.call dst func args) env world = .effect (env.set dst r0) world' := by
        simp only [execInsn, read, reading, known, answered]
      rw [answered] at called
      rw [ran] at step ⊢
      have shown : (vm₁.exec[vm₁.pc]?).any shows = true := by rw [exec₁, place, fetched]; rfl
      have across := Gets.step called
      rw [if_pos shown] at across
      have behind := run' ⟨world', vm₁.regs.write 0 r0, vm₁.pc + 1, vm₁.exec, m.helpers⟩
      obtain ⟨restores, _⟩ := Gets.settled (by dsimp only; rw [exec₁, place]; exact third) settled' behind
      refine ⟨_, _, (gets.trans across).trans restores, ?_, ?_, rfl, rfl, fun u h y needed homed value => ?_⟩
      · dsimp only
        rw [place, List.length_append, List.length_cons]
        omega
      · exact exec₁.trans tracks.loaded
      · by_cases other : u = dst
        · subst other
          have self : prog.valueIn m (env.set u r0) u = some r0 :=
            (valueIn_computed scene.regular.distinct there rfl rfl).trans (if_pos rfl)
          cases self.symm.trans value
          dsimp only
          rw [fits.behindCall_else (suits.result u func args h only homed), withResult_home homed]
          exact if_pos ⟨rfl, rfl⟩
        · have held := tracks.agrees.kept step (valueIn_congr prog m _ _ (if_neg other))
            (fun computed => other (computes_single only rfl computed).1) needed homed value
          have keeps := suits.across dst func args _ u h only step needed other homed
          refine (behindCall_kept fits keeps fun r nonzero => ?_).trans held
          rw [← regs₁]
          exact if_neg fun both => nonzero both.1

end EbpfLab.Ssa
