import EbpfLab.Cfg.Faithful
import EbpfLab.Ssa.Arrival
import EbpfLab.Ssa.Assembled
import EbpfLab.Ssa.DataOps

/-!
# What the built program means

A machine and the program built from its code are run side by side, a block at a time. Where a block is
entered the inbound versions hold the registers, and where it is left the outbound ones do, so what the
program shows is what the machine shows.
-/

namespace EbpfLab.Ssa
open Isa FlowGraph Interp

variable {petgraph : Petgraph}
  {insns list : List Insn} {cfg : Cfg} {targets : List (Option Nat)} {prog : SsaProgram} {vm vm' vm'' : Vm}
  {p t fuel steps k k' : Nat} {reg r : Reg} {v : SsaValue} {insn : Insn} {env : Env} {world : World}
  {emitted body : List SsaInsn} {definition : Builder.Definition} {effects effects' : List World}

/-! ### What a machine shows -/

/-- Whether an instruction, when it goes on, has changed the world. -/
def shows : ExecInsn → Bool
  | .storeReg .. | .storeImm .. | .call _ => true
  | _ => false

/-- What a machine shows in a number of steps, in the terms of a program's run. -/
def showing : Nat → Vm → List World × RunEnd
  | 0, _ => ([], .running)
  | steps + 1, vm =>
    match vm.step with
    | (vm', .cont) =>
      let rest := showing steps vm'
      (if (vm.exec[vm.pc]?).any shows then vm'.toWorld :: rest.1 else rest.1, rest.2)
    | (_, .exit code) => ([], .ended (.exit code))
    | (_, .error e) => ([], .ended (if vm.exec.length ≤ vm.pc then .fallOff else .fault (Fault.of e)))

/-- A run that exits shows the code it exits with. -/
theorem showing_exit {limit : Nat} {code : Int64} :
    (showing steps vm).2 = .ended (.exit code) ↔ (vm.runFrom limit steps).2 = .ok code := by
  induction steps generalizing vm with
  | zero => simp [showing, Vm.runFrom]
  | succ steps ih =>
    unfold showing Vm.runFrom
    rcases ran : vm.step with ⟨vm', _ | exit | e⟩
    · exact ih
    · simp
    · dsimp only
      split <;> simp

/-- More steps show the same when the machine has come to its end. -/
theorem showing_ended {ending : Ending} (ended : (showing steps vm).2 = .ended ending) (more : Nat) :
    showing (steps + more) vm = showing steps vm := by
  induction steps generalizing vm with
  | zero => cases ended
  | succ steps ih =>
    rw [Nat.succ_add]
    unfold showing at ended ⊢
    rcases ran : vm.step with ⟨vm', _ | exit | e⟩
    · rw [ran] at ended
      dsimp only at ended ⊢
      rw [ih ended]
    · rfl
    · rfl

/-- The machine gets from one state to another in some steps, which have these effects. -/
def Gets (steps : Nat) (vm : Vm) (effects : List World) (vm' : Vm) : Prop :=
  ∀ more, showing (steps + more) vm = (effects ++ (showing more vm').1, (showing more vm').2)

theorem Gets.refl (vm : Vm) : Gets 0 vm [] vm := by
  intro more
  rw [Nat.zero_add]
  rfl

theorem Gets.trans (first : Gets k vm effects vm') (second : Gets k' vm' effects' vm'') :
    Gets (k + k') vm (effects ++ effects') vm'' := by
  intro more
  rw [Nat.add_assoc, first, second, List.append_assoc]

theorem Gets.step (ran : vm.step = (vm', .cont)) :
    Gets 1 vm (if (vm.exec[vm.pc]?).any shows then [vm'.toWorld] else []) vm' := by
  intro more
  rw [Nat.add_comm]
  simp only [showing, ran]
  split <;> rfl

/-! ### One instruction -/

/-- The instructions that show the world behind them. -/
def changes : Insn → Bool
  | .store .. | .call _ => true
  | _ => false

theorem shows_fetched (loaded : vm.Loaded insns) (fetched : insns[vm.pc]? = some insn) :
    (vm.exec[vm.pc]?).any shows = changes insn := by
  rw [loaded, load_getElem?, fetched, Option.map_some, Option.any_some]
  cases insn with
  | alu width op dst src =>
    by_cases admitted : aluAdmitted op src
    · cases op with
      | byteSwap endian => rcases admitted endian rfl with rfl | rfl | rfl <;> rfl
      | _ => cases src <;> rfl
    · obtain ⟨kind, trapped⟩ : ∃ kind, lowerOne vm.pc (.alu width op dst src) (slotsFrom 0 insns)
          (slotTable none some insns) = .trap kind := lowerOne_alu_refused admitted
      rw [trapped]
      rfl
  | store size base offset src => cases src <;> rfl
  | jump width op dst src offset =>
    unfold lowerOne
    dsimp only
    split
    · rfl
    · split
      · rfl
      · cases src <;> rfl
  | _ => rfl

/-- A helper reads its arguments alone. -/
def Conventional (helper : HelperFn) : Prop :=
  ∀ (regs regs' : Regs) (w : World), (∀ r : Reg, 1 ≤ r.val → r.val ≤ 5 → regs r = regs' r) → helper regs w = helper regs' w

theorem withMapHelpers_conventional {func : UInt32} {helper : HelperFn}
    (known : HelperRegistry.withMapHelpers func = some helper) : Conventional helper := by
  intro regs regs' w same
  have first : regs 1 = regs' 1 := same 1 (by decide) (by decide)
  have second : regs 2 = regs' 2 := same 2 (by decide) (by decide)
  have third : regs 3 = regs' 3 := same 3 (by decide) (by decide)
  have fourth : regs 4 = regs' 4 := same 4 (by decide) (by decide)
  unfold HelperRegistry.withMapHelpers HelperRegistry.insert at known
  split at known
  · cases known
    simp only [helperMapDelete, first, second]
  · split at known
    · cases known
      simp only [helperMapUpdate, first, second, third, fourth]
    · split at known
      · cases known
        simp only [helperMapLookup, first, second]
      · cases known

/-- The swaps have immediate widths, as the decoder gives them. -/
def SwapsByImm (insns : List Insn) : Prop :=
  ∀ width endian dst src, .alu width (.byteSwap endian) dst src ∈ insns → ∃ w, src = .imm w

theorem badEnd_iff {op : AluOp} {src : Operand} (imm : ∀ endian, op = .byteSwap endian → ∃ w, src = .imm w) (regs : Regs) :
    badEnd op (regs.operand src) = false ↔ aluAdmitted op src := by
  cases op with
  | byteSwap endian =>
    obtain ⟨w, rfl⟩ := imm endian rfl
    have same : badEnd (.byteSwap endian) (regs.operand (.imm w)) = !validEndWidth w.toInt64 := rfl
    rw [same, Bool.not_eq_false', validEndWidth_imm]
    simp [aluAdmitted]
  | _ => exact ⟨fun _ _ => nofun, fun _ => rfl⟩

theorem isBadEnd_iff {op : AluOp} {src : Operand} : Builder.isBadEnd op src = false ↔ aluAdmitted op src := by
  cases op with
  | byteSwap endian => cases src <;> simp [Builder.isBadEnd, aluAdmitted]; tauto
  | _ => exact ⟨fun _ _ => nofun, fun _ => rfl⟩

/-- An ALU instruction goes on, or traps on the width it is given. -/
theorem alu_steps {i : Nat} {width : Width} {op : AluOp} {dst : Reg} {src : Operand} {slots : List Nat}
    {rev : List (Option Nat)} (imm : ∀ endian, op = .byteSwap endian → ∃ w, src = .imm w) (vm : Vm) :
    (badEnd op (vm.regs.operand src) = false ∧ vm.execute (lowerOne i (.alu width op dst src) slots rev) =
        (vm.assign dst (op.apply (vm.regs dst) (vm.regs.operand src) width), .cont)) ∨
      badEnd op (vm.regs.operand src) = true ∧ vm.execute (lowerOne i (.alu width op dst src) slots rev) =
        (vm, .error (.invalidEndWidth vm.pc (vm.regs.operand src))) := by
  cases bad : badEnd op (vm.regs.operand src) with
  | false => exact Or.inl ⟨rfl, lowerOne_alu_admitted ((badEnd_iff imm vm.regs).mp bad) vm⟩
  | true =>
    refine Or.inr ⟨rfl, ?_⟩
    cases op with
    | byteSwap endian =>
      obtain ⟨w, rfl⟩ := imm endian rfl
      have refused : ¬ (w = 16 ∨ w = 32 ∨ w = 64) := by
        intro valid
        have fine : badEnd (.byteSwap endian) (vm.regs.operand (.imm w)) = !validEndWidth w.toInt64 := rfl
        rw [fine, (validEndWidth_imm w).mpr valid] at bad
        cases bad
      unfold lowerOne
      dsimp only
      rw [if_neg refused]
      rfl
    | _ => cases bad

theorem exec_binOp {m : Machine} {d : SsaValue} {width : Width} {op : AluOp} {lhs rhs : SsaOperand} {l x : Int64}
    (left : env.operand lhs = some l) (right : env.operand rhs = some x) :
    execInsn m (.binOp d width op lhs rhs) env world =
      if badEnd op x then .leave (.ended (.fault (.invalidEndWidth x))) else .next (env.set d (op.apply l x width)) := by
  simp only [execInsn, reading, left, right]

/-- What an instruction that goes on does to the versions and to the registers. -/
inductive Defines (env : Env) (regs : Regs) : Builder.Definition → Env → Regs → Prop where
  | nothing : Defines env regs none env regs
  | written {dst : Reg} {d : SsaValue} {x : Int64} (plain : dst.isFramePtr = false) :
      Defines env regs (some (dst, d)) (env.set d x) (regs.write dst x)

variable {m : Machine} {holds : Reg → SsaValue → Prop}

theorem Builder.Stands.operand {src : Operand} {o : SsaOperand} (stands : Builder.Stands holds src o)
    (serves : ∀ r v, holds r v → env v = some (vm.regs r)) : env.operand o = some (vm.regs.operand src) := by
  cases stands with
  | reg held => exact serves _ _ held
  | imm => rfl

theorem Regs.write_frame {regs : Regs} {x : Int64} (frame : r.isFramePtr = true) : regs.write r x = regs := by
  funext r'
  simp [Regs.write, frame]

/-- The arguments, where versions hold their registers. -/
theorem args_read {regs : Regs} {a₁ a₂ a₃ a₄ a₅ : SsaValue} (first : env a₁ = some (regs 1)) (second : env a₂ = some (regs 2))
    (third : env a₃ = some (regs 3)) (fourth : env a₄ = some (regs 4)) (fifth : env a₅ = some (regs 5)) :
    ∃ regs', env.argRegs #v[a₁, a₂, a₃, a₄, a₅] = some regs' ∧
      ∀ r : Reg, 1 ≤ r.val → r.val ≤ 5 → regs' r = regs r := by
  have read : (#v[a₁, a₂, a₃, a₄, a₅] : Vector SsaValue 5).toList.mapM env =
      some [regs 1, regs 2, regs 3, regs 4, regs 5] := by
    change [a₁, a₂, a₃, a₄, a₅].mapM env = _
    simp only [List.mapM_cons, List.mapM_nil, first, second, third, fourth, fifth]
    rfl
  refine ⟨_, by rw [Env.argRegs, read]; rfl, fun r low high => ?_⟩
  have known : r = 1 ∨ r = 2 ∨ r = 3 ∨ r = 4 ∨ r = 5 := by
    simp only [Fin.ext_iff]
    change r.val = 1 ∨ r.val = 2 ∨ r.val = 3 ∨ r.val = 4 ∨ r.val = 5
    omega
  rcases known with rfl | rfl | rfl | rfl | rfl <;> rfl

/-- What is emitted for a step of the machine goes on as the step does, or fails as it does. -/
def Goes (m : Machine) (vm : Vm) (env : Env) (shown : Bool) (emitted : List SsaInsn) (definition : Builder.Definition)
    (stepped : Vm × StepResult) : Prop :=
  (∃ vm' env', stepped = (vm', .cont) ∧ vm'.pc = vm.pc + 1 ∧ vm'.exec = vm.exec ∧ vm'.helpers = vm.helpers ∧
      execList m emitted env vm.toWorld = ⟨if shown then [vm'.toWorld] else [], env', vm'.toWorld, none⟩ ∧
      Defines env vm.regs definition env' vm'.regs) ∨
    ∃ vm' e, stepped = (vm', .error e) ∧
      execList m emitted env vm.toWorld = ⟨[], env, vm.toWorld, some (.ended (.fault (Fault.of e)))⟩

section Goes

variable {definition : Builder.Definition} {size : MemSize} {dst base : Reg} {offset : Int16} {v d : SsaValue}

/-- A write to the frame pointer is none. -/
theorem goes_skip (frame : dst.isFramePtr = true) (x : Int64) :
    Goes m vm env false [] none (vm.assign dst x, .cont) := by
  refine Or.inl ⟨_, env, rfl, rfl, rfl, rfl, rfl, ?_⟩
  change Defines env vm.regs none env (vm.regs.write dst _)
  rw [Regs.write_frame frame]
  exact .nothing

theorem goes_alu {i : Nat} {width : Width} {op : AluOp} {src : Operand} {slots : List Nat} {rev : List (Option Nat)}
    {l : SsaValue} {rhs : SsaOperand} (imm : ∀ endian, op = .byteSwap endian → ∃ w, src = .imm w)
    (left : env l = some (vm.regs dst)) (right : env.operand rhs = some (vm.regs.operand src))
    (defines : badEnd op (vm.regs.operand src) = false → ∀ x,
      Defines env vm.regs definition (env.set d x) (vm.regs.write dst x)) :
    Goes m vm env false [.binOp d width op (.value l) rhs] definition
      (vm.execute (lowerOne i (.alu width op dst src) slots rev)) := by
  have ran : execInsn m (.binOp d width op (.value l) rhs) env vm.toWorld = _ := exec_binOp left right
  rcases alu_steps imm vm with ⟨fine, stepped⟩ | ⟨bad, stepped⟩
  · rw [fine, if_neg Bool.false_ne_true] at ran
    rw [stepped, Goes, execList_next ran]
    exact Or.inl ⟨_, _, rfl, rfl, rfl, rfl, rfl, defines fine _⟩
  · rw [bad, if_pos rfl] at ran
    rw [stepped, Goes, execList_leave ran]
    exact Or.inr ⟨_, _, rfl, rfl⟩

theorem goes_load {target : Option SsaValue} (held : env v = some (vm.regs base))
    (defines : ∀ x, Defines env vm.regs definition (target.elim env fun d => env.set d x) (vm.regs.write dst x)) :
    Goes m vm env false [.load target size v offset] definition (vm.execute (.load size dst base offset)) := by
  cases read : vm.memory.load (vm.regs base + offset.toInt64) size with
  | ok x =>
    have ran : execInsn m (.load target size v offset) env vm.toWorld = .next (target.elim env fun d => env.set d x) := by
      cases target <;> simp only [execInsn, reading, held, read, Option.elim]
    have stepped : vm.execute (.load size dst base offset) = (vm.assign dst x, .cont) := by
      simp only [Vm.execute, read]
    refine Or.inl ⟨_, _, stepped, rfl, rfl, rfl, ?_, defines x⟩
    rw [execList_next ran]
    rfl
  | error e =>
    have ran : execInsn m (.load target size v offset) env vm.toWorld = .leave (.ended (.fault (.memory e))) := by
      simp only [execInsn, reading, held, read]
    have stepped : vm.execute (.load size dst base offset) = (vm, .error (.memory e)) := by
      simp only [Vm.execute, read]
    exact Or.inr ⟨_, _, stepped, execList_leave ran⟩

theorem goes_store {i : Nat} {src : Operand} {slots : List Nat} {rev : List (Option Nat)} {o : SsaOperand}
    (target : env v = some (vm.regs base)) (held : env.operand o = some (vm.regs.operand src)) :
    Goes m vm env true [.store size v offset o] none (vm.execute (lowerOne i (.store size base offset src) slots rev)) := by
  have lowered : vm.execute (lowerOne i (.store size base offset src) slots rev) =
      vm.storeTo size base offset (vm.regs.operand src) := by
    cases src <;> rfl
  rw [lowered]
  cases stored : vm.memory.store (vm.regs base + offset.toInt64) size (vm.regs.operand src) with
  | ok memory =>
    have ran : execInsn m (.store size v offset o) env vm.toWorld = .effect env { vm.toWorld with memory } := by
      simp only [execInsn, reading, target, held, stored]
    have stepped : vm.storeTo size base offset (vm.regs.operand src) = ({ vm with memory, pc := vm.pc + 1 }, .cont) := by
      simp only [Vm.storeTo, stored]
    refine Or.inl ⟨_, env, stepped, rfl, rfl, rfl, ?_, .nothing⟩
    rw [execList_effect ran]
    rfl
  | error e =>
    have ran : execInsn m (.store size v offset o) env vm.toWorld = .leave (.ended (.fault (.memory e))) := by
      simp only [execInsn, reading, target, held, stored]
    have stepped : vm.storeTo size base offset (vm.regs.operand src) = (vm, .error (.memory e)) := by
      simp only [Vm.storeTo, stored]
    exact Or.inr ⟨_, _, stepped, execList_leave ran⟩

theorem goes_call {func : UInt32} {args : Vector SsaValue 5} {regs : Regs} (helpers : m.helpers = vm.helpers)
    (conventional : ∀ func helper, vm.helpers func = some helper → Conventional helper)
    (arguments : env.argRegs args = some regs) (same : ∀ r : Reg, 1 ≤ r.val → r.val ≤ 5 → regs r = vm.regs r) :
    Goes m vm env true [.call d func args] (some (0, d)) (vm.dispatchHelper func) := by
  cases known : vm.helpers func with
  | none =>
    have ran : execInsn m (.call d func args) env vm.toWorld = .leave (.ended (.fault (.unknownHelper func))) := by
      simp only [execInsn, reading, arguments, helpers, known]
    have stepped : vm.dispatchHelper func = (vm, .error (.unknownHelper func)) := by
      simp only [Vm.dispatchHelper, known]
    exact Or.inr ⟨_, _, stepped, execList_leave ran⟩
  | some helper =>
    have alike : helper regs vm.toWorld = helper vm.regs vm.toWorld := conventional func helper known _ _ _ same
    cases called : helper vm.regs vm.toWorld with
    | error e =>
      have ran : execInsn m (.call d func args) env vm.toWorld = .leave (.ended (.fault (Fault.of e))) := by
        simp only [execInsn, reading, arguments, helpers, known, alike, called]
      have stepped : vm.dispatchHelper func = (vm, .error e) := by
        simp only [Vm.dispatchHelper, known, called]
      exact Or.inr ⟨_, _, stepped, execList_leave ran⟩
    | ok out =>
      have ran : execInsn m (.call d func args) env vm.toWorld = .effect (env.set d out.1) out.2 := by
        simp only [execInsn, reading, arguments, helpers, known, alike, called]
      have stepped : vm.dispatchHelper func =
          ({ vm with toWorld := out.2, regs := vm.regs.write 0 out.1, pc := vm.pc + 1 }, .cont) := by
        simp only [Vm.dispatchHelper, known, called]
      refine Or.inl ⟨_, _, stepped, rfl, rfl, rfl, ?_, .written rfl⟩
      rw [execList_effect ran]
      rfl

end Goes

/-- A rendered instruction goes on as the machine does, or fails as it does. -/
theorem Builder.Renders.goes (renders : Builder.Renders cfg p holds insn emitted definition) (straight : endsBlock insn = false)
    (fetched : insns[vm.pc]? = some insn) (loaded : vm.Loaded insns) (helpers : m.helpers = vm.helpers)
    (conventional : ∀ func helper, vm.helpers func = some helper → Conventional helper) (swaps : SwapsByImm insns)
    (serves : ∀ r v, holds r v → env v = some (vm.regs r)) :
    Goes m vm env (changes insn) emitted definition vm.step := by
  rw [step_eq_execute loaded fetched]
  have imm : ∀ {width : Width} {op : AluOp} {dst : Reg} {src : Operand}, insn = .alu width op dst src →
      ∀ endian, op = .byteSwap endian → ∃ w, src = .imm w := by
    rintro width op dst src rfl endian rfl
    exact swaps width endian dst src (List.mem_of_getElem? fetched)
  cases renders with
  | @aluSkip width op dst src frame safe =>
    rw [lowerOne_alu_admitted (isBadEnd_iff.mp safe)]
    exact goes_skip frame _
  | @copy dst src d v plain source =>
    refine Or.inl ⟨_, env.set d (vm.regs src), rfl, rfl, rfl, rfl, ?_, .written plain⟩
    have ran : execInsn m (.copy d v) env vm.toWorld = .next (env.set d (vm.regs src)) := by
      simp only [execInsn, reading, serves _ _ source]
    rw [execList_next ran]
    rfl
  | @alu width op dst src d l rhs plain left right =>
    exact goes_alu (imm rfl) (serves _ _ left) (right.operand serves) fun _ _ => .written plain
  | @aluTrap width op dst src d l rhs frame bad left right =>
    refine goes_alu (imm rfl) (serves _ _ left) (right.operand serves) fun fine => ?_
    -- only a swap that traps is rendered
    have safe := isBadEnd_iff.mpr ((badEnd_iff (imm rfl) vm.regs).mp fine)
    rw [bad] at safe
    cases safe
  | @wideSkip dst k frame => exact goes_skip frame k
  | @wide dst k d plain => exact Or.inl ⟨_, _, rfl, rfl, rfl, rfl, rfl, .written plain⟩
  | @loadSkip size dst base offset v frame source =>
    refine goes_load (serves _ _ source) fun x => ?_
    rw [Regs.write_frame frame]
    exact .nothing
  | @load size dst base offset d v plain source => exact goes_load (serves _ _ source) fun _ => .written plain
  | @store size base offset src v o target source => exact goes_store (serves _ _ target) (source.operand serves)
  | @call func d a₁ a₂ a₃ a₄ a₅ first second third fourth fifth =>
    obtain ⟨regs, arguments, same⟩ := args_read (serves _ _ first) (serves _ _ second) (serves _ _ third)
      (serves _ _ fourth) (serves _ _ fifth)
    exact goes_call helpers conventional arguments same
  | ja | br | exit => cases straight

/-! ### Leaving a block -/

theorem Succession.unique {i j j' : Nat} {kind : EdgeKind} (first : Succession insns i kind j)
    (second : Succession insns i kind j') : j' = j := by
  cases first <;> cases second <;> first | rfl | simp_all
  all_goals exact JumpsTo.unique (by assumption) (by assumption)

/-- The machine is at the start of a block that the other one leads to. -/
def LandsIn (cfg : Cfg) (p t : Nat) (vm : Vm) : Prop :=
  p ∈ cfg.preds t ∧ ∃ range, cfg.blocks[t]? = some range ∧ vm.pc = range.start

theorem LandsIn.reached (lands : LandsIn cfg p t vm) (reached : cfg.Reaches p) : cfg.Reaches t := by
  obtain ⟨e, listed, source⟩ := List.mem_map.mp lands.1
  obtain ⟨present, target⟩ := Cfg.mem_inEdges.mp listed
  refine reached.step ?_
  simp only [neighbors, List.mem_map, List.mem_reverse, List.mem_filter, beq_iff_eq]
  exact ⟨e, ⟨present, source⟩, target⟩

section

variable {range : BasicBlock} (built : Built insns cfg targets) (here : cfg.blocks[p]? = some range)
include built here

theorem edge_lands {e : Edge} (out : e ∈ cfg.outEdges p) (next : Succession insns (range.stop - 1) e.kind vm.pc) :
    LandsIn cfg p e.target vm := by
  obtain ⟨present, source⟩ := Cfg.mem_outEdges.mp out
  obtain ⟨b, c, at_source, at_target, goes⟩ := built.edge_iff.mp present
  rw [source, here] at at_source
  cases at_source
  refine ⟨?_, c, at_target, Succession.unique goes next⟩
  exact List.mem_map.mpr ⟨e, Cfg.mem_inEdges.mpr ⟨present, rfl⟩, source⟩

theorem succession_edge {kind : EdgeKind} {j : Nat} (next : Succession insns (range.stop - 1) kind j) :
    ∃ e ∈ cfg.outEdges p, e.kind = kind := by
  obtain ⟨c, found, start⟩ := built.successor_start (List.mem_of_getElem? here) next
  exact ⟨⟨p, _, kind⟩, Cfg.mem_outEdges.mpr ⟨built.edge_iff.mpr ⟨range, c, here, found, start ▸ next⟩, rfl⟩, rfl⟩

theorem edge_succession {e : Edge} (out : e ∈ cfg.outEdges p) : ∃ j, Succession insns (range.stop - 1) e.kind j := by
  obtain ⟨present, source⟩ := Cfg.mem_outEdges.mp out
  obtain ⟨b, c, at_source, _, goes⟩ := built.edge_iff.mp present
  rw [source, here] at at_source
  cases at_source
  exact ⟨_, goes⟩

/-- The last edge of a kind is there when the last instruction leads on that way. -/
theorem target_lands {kind : EdgeKind} (next : Succession insns (range.stop - 1) kind vm.pc) :
    ∃ t, ((cfg.outEdges p).filter fun e => e.kind == kind).getLast?.map Edge.target = some t ∧ LandsIn cfg p t vm := by
  obtain ⟨e, out, same⟩ := succession_edge built here next
  have nonempty : (cfg.outEdges p).filter (fun e => e.kind == kind) ≠ [] :=
    List.ne_nil_of_mem (List.mem_filter.mpr ⟨out, by simpa using same⟩)
  have last := List.mem_filter.mp (List.getLast_mem nonempty)
  refine ⟨_, by rw [List.getLast?_eq_some_getLast nonempty]; rfl, edge_lands built here last.1 ?_⟩
  have kind_eq := beq_iff_eq.mp last.2
  rwa [kind_eq]

theorem no_target (kind : EdgeKind) (none_ : ∀ j, ¬ Succession insns (range.stop - 1) kind j) :
    ((cfg.outEdges p).filter fun e => e.kind == kind).getLast?.map Edge.target = none := by
  have empty : (cfg.outEdges p).filter (fun e => e.kind == kind) = [] := by
    refine List.filter_eq_nil_iff.mpr fun e out same => ?_
    obtain ⟨j, next⟩ := edge_succession built here out
    rw [beq_iff_eq.mp same] at next
    exact none_ j next
  rw [empty]
  rfl

/-- Where control falls through to, when the last instruction is plain. -/
theorem falls_lands (edges : prog.edges = cfg.edges) (fetched : insns[range.stop - 1]? = some insn)
    (plain : endsBlock insn = false) (pc : vm.pc = range.stop) :
    (∃ t, prog.fallsTo p = some t ∧ LandsIn cfg p t vm) ∨ prog.fallsTo p = none ∧ insns.length ≤ vm.pc := by
  have positive := (built.tiles.mem (List.mem_of_getElem? here)).2.1
  have same : prog.outEdges p = cfg.outEdges p := by rw [SsaProgram.outEdges, edges]; rfl
  have next : range.stop - 1 + 1 = vm.pc := by omega
  unfold SsaProgram.fallsTo
  rw [same]
  cases found : (cfg.outEdges p).find? fun e => e.kind == .fallthrough with
  | some e =>
    have kind : e.kind = .fallthrough := by simpa using List.find?_some found
    have out := List.mem_of_find?_eq_some found
    obtain ⟨j, goes⟩ := edge_succession built here out
    rw [kind] at goes
    obtain ⟨_, lands, _⟩ := (succession_plain fetched plain).mp goes
    refine Or.inl ⟨e.target, rfl, edge_lands built here out ?_⟩
    rw [kind, ← next, ← lands]
    exact goes
  | none =>
    refine Or.inr ⟨rfl, Nat.not_lt.mp fun more => ?_⟩
    have goes : Succession insns (range.stop - 1) .fallthrough (range.stop - 1 + 1) :=
      .fallthrough fetched plain (next ▸ more)
    obtain ⟨e, out, kind⟩ := succession_edge built here goes
    exact absurd (List.find?_eq_none.mp found e out) (by simp [kind])

/-- The end of a block: it goes on in a block the machine goes on in, or comes to an end as the machine does. -/
theorem Builder.Renders.ends (renders : Builder.Renders cfg p holds insn emitted definition) (closes : endsBlock insn = true)
    (fetched : insns[vm.pc]? = some insn) (last : vm.pc + 1 = range.stop) (loaded : vm.Loaded insns)
    (serves : ∀ r v, holds r v → env v = some (vm.regs r)) :
    definition = none ∧
      ((∃ vm' t, vm.step = (vm', .cont) ∧ vm'.toWorld = vm.toWorld ∧ vm'.regs = vm.regs ∧ vm'.exec = vm.exec ∧
          vm'.helpers = vm.helpers ∧ LandsIn cfg p t vm' ∧
          execList m emitted env vm.toWorld = ⟨[], env, vm.toWorld, some (.goto t)⟩) ∨
        ∃ steps ending, (∀ more, showing (steps + more) vm = ([], .ended ending)) ∧
          execList m emitted env vm.toWorld = ⟨[], env, vm.toWorld, some (.ended ending)⟩) := by
  have place : vm.pc = range.stop - 1 := by omega
  have jumps : ∀ {width : Width} {op : JumpOp} {dst : Reg} {src : Operand} {offset : Int16},
      insn = .jump width op dst src offset → ∃ j, JumpsTo insns vm.pc offset j ∧
        vm.step = (vm.branch (jumpTaken op (vm.regs dst) (vm.regs.operand src) width) j, .cont) := by
    rintro width op dst src offset rfl
    obtain ⟨j, _, lands⟩ := built.resolved.jump fetched
    exact ⟨j, lands, (step_cont_iff loaded built.small).mpr ⟨_, fetched, .jump lands⟩⟩
  cases renders with
  | @ja width dst src offset e edge =>
    obtain ⟨j, lands, stepped⟩ := jumps rfl
    have taken : jumpTaken .always (vm.regs dst) (vm.regs.operand src) width = true := by cases width <;> rfl
    rw [taken] at stepped
    have kind : e.kind = .unconditional := by simpa using List.find?_some edge
    refine ⟨rfl, Or.inl ⟨_, e.target, stepped, rfl, rfl, rfl, rfl,
      edge_lands built here (List.mem_of_find?_eq_some edge) ?_, rfl⟩⟩
    rw [kind, ← place]
    exact .unconditional fetched lands
  | @br width op dst src offset l rhs conditional left right =>
    obtain ⟨j, lands, stepped⟩ := jumps rfl
    have left : env.operand (.value l) = some (vm.regs dst) := serves _ _ left
    have right := right.operand serves
    refine ⟨rfl, ?_⟩
    have ran : execInsn m (.br width op (.value l) rhs (Builder.jumpTargets cfg p).1 (Builder.jumpTargets cfg p).2)
        env vm.toWorld = .leave (goto (if jumpTaken op (vm.regs dst) (vm.regs.operand src) width then
          (Builder.jumpTargets cfg p).1 else (Builder.jumpTargets cfg p).2)) := by
      simp only [execInsn, reading, left, right]
    rw [execList_leave ran]
    by_cases taken : jumpTaken op (vm.regs dst) (vm.regs.operand src) width = true
    · rw [taken] at stepped ⊢
      have next : Succession insns (range.stop - 1) .branchTrue (vm.branch true j).pc :=
        place ▸ .branchTrue fetched conditional lands
      obtain ⟨t, target, there⟩ := target_lands built here next
      have target : (Builder.jumpTargets cfg p).1 = some t := target
      rw [if_pos rfl, target]
      exact Or.inl ⟨_, t, stepped, rfl, rfl, rfl, rfl, there, rfl⟩
    · have missed : jumpTaken op (vm.regs dst) (vm.regs.operand src) width = false := by simpa using taken
      rw [missed] at stepped ⊢
      rw [if_neg Bool.false_ne_true]
      by_cases more : vm.pc + 1 < insns.length
      · have next : Succession insns (range.stop - 1) .branchFalse (vm.branch false j).pc :=
          place ▸ .branchFalse fetched conditional more
        obtain ⟨t, target, there⟩ := target_lands built here next
        have target : (Builder.jumpTargets cfg p).2 = some t := target
        rw [target]
        exact Or.inl ⟨_, t, stepped, rfl, rfl, rfl, rfl, there, rfl⟩
      · -- the branch stands last, and control falls off the end
        have target : (Builder.jumpTargets cfg p).2 = none := by
          refine no_target built here .branchFalse fun j next => ?_
          rw [← place] at next
          rcases (succession_jump fetched conditional).mp next with ⟨other, _⟩ | ⟨_, _, inside⟩
          · cases other
          · exact more inside
        rw [target]
        refine Or.inr ⟨2, .fallOff, fun steps => ?_, rfl⟩
        have past : insns[(vm.branch false j).pc]? = none := List.getElem?_eq_none (Nat.not_lt.mp more)
        have loaded' : (vm.branch false j).Loaded insns := loaded
        have off : (vm.branch false j).exec.length ≤ (vm.branch false j).pc := by
          have size : (Interp.load insns).length = insns.length := by simp [Interp.load]
          rw [show (vm.branch false j).exec = Interp.load insns from loaded', size]
          exact Nat.not_lt.mp more
        have still : ((vm.exec[vm.pc]?).any shows) = false := shows_fetched loaded fetched
        rw [Nat.add_comm]
        simp only [showing, stepped, still, step_past_end loaded' past, if_pos off]
        rfl
  | @exit v source =>
    have ran : execInsn m (.exit v) env vm.toWorld = .leave (.ended (.exit (vm.regs 0))) := by
      simp only [execInsn, reading, serves _ _ source]
    have stepped : vm.step = (vm, .exit (vm.regs 0)) := step_eq_execute loaded fetched
    refine ⟨rfl, Or.inr ⟨1, _, fun more => ?_, execList_leave ran⟩⟩
    rw [Nat.add_comm]
    simp only [showing, stepped]
  | _ => cases closes

/-! ### The body of a block -/

/-- The machine and the versions behind some steps: the versions hold the registers again. -/
structure Carries (vm : Vm) (env : Env) (holds : Reg → SsaValue → Prop) (vm' : Vm) (env' : Env) : Prop where
  exec : vm'.exec = vm.exec
  helpers : vm'.helpers = vm.helpers
  frame : vm'.regs 10 = vm.regs 10
  fixed : ∀ v < 3, env' v = env v
  serves : ∀ r v, holds r v → env' v = some (vm'.regs r)

variable {inbound : Reg → SsaValue → Prop} {held after : Reg → Option SsaValue} {regOf : SsaValue → Reg} {bound : Nat}

omit built here in
theorem Defines.carries {env' : Env} (defines : Defines env vm.regs definition env' vm'.regs)
    (names : ∀ dst d, definition = some (dst, d) → regOf d = dst ∧ 3 ≤ d ∧ d < bound)
    (low : ∀ r v, inbound r v → v < 3 ∨ regOf v = r) (own : ∀ r v, held r = some v → regOf v = r)
    (serves : ∀ r v, Builder.Held inbound held r v → env v = some (vm.regs r))
    (exec : vm'.exec = vm.exec) (helpers : vm'.helpers = vm.helpers) :
    Carries vm env (Builder.Held inbound (Builder.redefine held definition)) vm' env' ∧
      ∀ r v, Builder.redefine held definition r = some v → regOf v = r := by
  generalize regs_eq : vm'.regs = regs' at defines
  cases defines with
  | nothing => exact ⟨⟨exec, helpers, by rw [regs_eq], fun _ _ => rfl, by rw [regs_eq]; exact serves⟩, own⟩
  | @written dst d x plain =>
    obtain ⟨named, above, _⟩ := names dst d rfl
    refine ⟨⟨exec, helpers, ?_, fun v below => ?_, fun r v holds => ?_⟩, fun r v owns => ?_⟩
    · have away : (10 : Reg) ≠ dst := by
        rintro rfl
        cases plain
      rw [regs_eq]
      simp [Regs.write, away]
    · exact if_neg (Nat.ne_of_lt (below.trans_le above))
    · change Function.update held dst (some d) r = some v ∨ Function.update held dst (some d) r = none ∧ _ at holds
      rw [regs_eq]
      by_cases here : r = dst
      · subst here
        rw [Function.update_self] at holds
        rcases holds with same | ⟨absurd_, _⟩
        · cases same
          simp [Env.set, Regs.write, plain]
        · cases absurd_
      · rw [Function.update_of_ne here] at holds
        have other : v ≠ d := by
          rintro rfl
          rcases holds with owns | ⟨_, came⟩
          · exact here ((own r v owns).symm.trans named)
          · rcases low r v came with small | same
            · exact absurd small (Nat.not_lt.mpr above)
            · exact here (same.symm.trans named)
        simp [Env.set, Regs.write, other, here, serves r v holds]
    · change Function.update held dst (some d) r = some v at owns
      rw [Function.update_apply] at owns
      split at owns
      · rename_i same
        cases owns
        exact named.trans same.symm
      · exact own r v owns

omit built here in
theorem Carries.trans {holds₁ holds₂ : Reg → SsaValue → Prop} {env₁ env₂ : Env} (first : Carries vm env holds₁ vm' env₁)
    (second : Carries vm' env₁ holds₂ vm'' env₂) : Carries vm env holds₂ vm'' env₂ where
  exec := second.exec.trans first.exec
  helpers := second.helpers.trans first.helpers
  frame := second.frame.trans first.frame
  fixed v low := (second.fixed v low).trans (first.fixed v low)
  serves := second.serves

/-- A rendered body runs as the machine does on the instructions. -/
theorem Builder.RendersAll.runs (renders : Builder.RendersAll cfg p regOf bound inbound held list body after)
    (low : ∀ r v, inbound r v → v < 3 ∨ regOf v = r) (own : ∀ r v, held r = some v → regOf v = r)
    (conventional : ∀ func helper, vm.helpers func = some helper → Conventional helper) (swaps : SwapsByImm insns)
    (loaded : vm.Loaded insns) (helpers : m.helpers = vm.helpers)
    (start : range.start ≤ vm.pc) (stop : vm.pc + list.length = range.stop)
    (fetched : ∀ i < list.length, insns[vm.pc + i]? = list[i]?)
    (serves : ∀ r v, Builder.Held inbound held r v → env v = some (vm.regs r)) :
    (∃ steps vm', list.length ≤ steps ∧ Gets steps vm (execList m body env vm.toWorld).effects vm' ∧
        vm'.toWorld = (execList m body env vm.toWorld).world ∧
        Carries vm env (Builder.Held inbound after) vm' (execList m body env vm.toWorld).env ∧
        ((execList m body env vm.toWorld).how = none ∧ vm'.pc = range.stop ∧
            (list ≠ [] → ∃ insn, insns[range.stop - 1]? = some insn ∧ endsBlock insn = false) ∨
          ∃ t, (execList m body env vm.toWorld).how = some (.goto t) ∧ LandsIn cfg p t vm')) ∨
      ∃ steps ending,
        (∀ more, showing (steps + more) vm = ((execList m body env vm.toWorld).effects, .ended ending)) ∧
        (execList m body env vm.toWorld).how = some (.ended ending) := by
  induction renders generalizing vm env with
  | nil =>
    exact Or.inl ⟨0, vm, Nat.le_refl _, Gets.refl vm, rfl, ⟨rfl, rfl, rfl, fun _ _ => rfl, serves⟩,
      Or.inl ⟨rfl, stop, fun nonempty => absurd rfl nonempty⟩⟩
  | @cons held after insn list emitted body definition first names rest ih =>
    have at_ : insns[vm.pc]? = some insn := by simpa using fetched 0 (Nat.succ_pos _)
    have inside := (List.getElem?_eq_some_iff.mp at_).1
    have length : (insn :: list).length = list.length + 1 := rfl
    cases closes : endsBlock insn with
    | true =>
      -- the block ends here, so nothing of it is left
      have last := built.ends_last (List.mem_of_getElem? here) start (by omega) at_ closes
      obtain rfl : list = [] := List.length_eq_zero_iff.mp (by omega)
      cases rest
      rw [List.append_nil]
      obtain ⟨rfl, outcome⟩ := first.ends built here closes at_ last loaded serves
      rcases outcome with ⟨vm', t, stepped, world, regs, exec, helpers, lands, ran⟩ | ⟨steps, ending, shown, ran⟩
      · rw [ran]
        have still : (vm.exec[vm.pc]?).any shows = false := by
          rw [shows_fetched loaded at_]
          cases insn <;> first | rfl | cases closes
        have gets := Gets.step stepped
        rw [still, if_neg Bool.false_ne_true] at gets
        exact Or.inl ⟨1, vm', Nat.le_refl _, gets, world, ⟨exec, helpers, by rw [regs], fun _ _ => rfl, by rw [regs]; exact serves⟩,
          Or.inr ⟨t, rfl, lands⟩⟩
      · rw [ran]
        exact Or.inr ⟨steps, ending, shown, rfl⟩
    | false =>
      rcases first.goes closes at_ loaded helpers conventional swaps serves with
        ⟨vm', env', stepped, pc, exec, helpers', ran, defines⟩ | ⟨vm', e, stepped, ran⟩
      · obtain ⟨carries, own'⟩ := defines.carries names low own serves exec helpers'
        have gets := Gets.step stepped
        rw [shows_fetched loaded at_] at gets
        have ended : (execList m emitted env vm.toWorld).how = none := by rw [ran]
        have split : execList m (emitted ++ body) env vm.toWorld = _ := execList_append ended
        rw [ran] at split
        rw [split]
        have conventional' : ∀ func helper, vm'.helpers func = some helper → Conventional helper := by rwa [helpers']
        have fetched' : ∀ i < list.length, insns[vm'.pc + i]? = list[i]? := by
          intro i short
          rw [pc, Nat.add_assoc, Nat.add_comm 1]
          simpa using fetched (i + 1) (by omega)
        have next := ih own' conventional' (exec.trans loaded) (helpers.trans helpers'.symm) (by omega) (by omega) fetched'
          carries.serves
        rcases next with ⟨steps, vm'', enough, later, world, after, ends⟩ | ⟨steps, ending, shown, how⟩
        · refine Or.inl ⟨1 + steps, vm'', by omega, gets.trans later, world, carries.trans after, ends.imp ?_ id⟩
          rintro ⟨how, stopped, plain⟩
          refine ⟨how, stopped, fun _ => ?_⟩
          by_cases none_ : list = []
          · subst none_
            exact ⟨insn, by rw [← stop]; simpa using at_, closes⟩
          · exact plain none_
        · refine Or.inr ⟨1 + steps, ending, fun more => ?_, how⟩
          rw [Nat.add_assoc, gets, shown]
      · have left : (execList m emitted env vm.toWorld).how ≠ none := by rw [ran]; exact Option.some_ne_none _
        have split : execList m (emitted ++ body) env vm.toWorld = _ := execList_append_left left
        rw [split, ran]
        refine Or.inr ⟨1, _, fun more => ?_, rfl⟩
        have within : ¬ vm.exec.length ≤ vm.pc := by
          rw [show vm.exec = Interp.load insns from loaded]
          simpa [Interp.load] using inside
        rw [Nat.add_comm]
        simp only [showing, stepped, if_neg within]

end

/-! ### Entering a block -/

open Builder

variable {own : Builder.Owned} {b : Builder} {pred : Pred} {phis : List SsaInsn}

/-- A block is entered from the start, or from a block whose outbound versions hold the registers. -/
inductive Enters (cfg : Cfg) (regOf : SsaValue → Reg) (own : Builder.Owned) (b : Builder) (m : Machine) :
    Pred → Nat → Env → Vm → Prop where
  | start {env : Env} {vm : Vm} (regs : vm.regs = Regs.zeroedWithFramePointer.write 1 m.ctx) :
      Enters cfg regOf own b m none cfg.entry env vm
  | edge {p q : Nat} {env : Env} {vm : Vm} (flows : q ∈ cfg.preds p) (reached : cfg.Reaches q)
      (frame : vm.regs 10 = stackBase) (zero : env 0 = some 0) (ptr : env 1 = some stackBase) (ctx : env 2 = some m.ctx)
      (serves : ∀ r v, Outbound cfg regOf own b q r v → env v = some (vm.regs r)) : Enters cfg regOf own b m (some q) p env vm

theorem entryVersion_lt (r : Reg) : entryVersion r < 3 := by
  unfold entryVersion
  split
  · decide
  · split <;> decide

theorem Builder.Assembled.low (assembled : Assembled insns cfg regOf own b prog) (inbound : Inbound cfg regOf own b p r v) :
    v < 3 ∨ regOf v = r := by
  induction inbound with
  | phi => exact Or.inr rfl
  | entry => exact Or.inl (entryVersion_lt _)
  | alone => exact Or.inl (entryVersion_lt _)
  | owned _ _ _ owns => exact Or.inr (assembled.owned _ _ _ owns).1
  | through _ _ _ _ _ ih => exact ih

/-- The entry versions are set where the entry begins, and stay. -/
theorem Enters.begins (enters : Enters cfg regOf own b m pred p env vm) (world : World) :
    ∃ env₀, execList m (pseudo cfg p) env world = ⟨[], env₀, world, none⟩ ∧
      env₀ 0 = some 0 ∧ env₀ 1 = some stackBase ∧ env₀ 2 = some m.ctx ∧ ∀ v, pred ≠ none → env₀ v = env v := by
  unfold pseudo
  split
  · refine ⟨((env.set 0 0).set 1 stackBase).set 2 m.ctx, rfl, rfl, rfl, rfl, fun v moved => ?_⟩
    cases enters with
    | start => exact absurd rfl moved
    | edge _ _ _ zero ptr ctx =>
      unfold Env.set
      split
      · rename_i same
        rw [same, ctx]
      · split
        · rename_i same
          rw [same, ptr]
        · split
          · rename_i same
            rw [same, zero]
          · rfl
  · rename_i away
    cases enters with
    | start => exact absurd rfl away
    | edge _ _ _ zero ptr ctx => exact ⟨env, rfl, zero, ptr, ctx, fun _ _ => rfl⟩

theorem phiInput_of_mem {inputs : List (Pred × SsaValue)} (listed : pred ∈ inputs.map Prod.fst) :
    ∃ w, phiInput pred inputs = some w ∧ (pred, w) ∈ inputs := by
  obtain ⟨input, among, same⟩ := List.mem_map.mp listed
  have found : (inputs.find? fun input => input.1 == pred).isSome := by
    rw [List.find?_isSome]
    exact ⟨input, among, by simpa using same⟩
  obtain ⟨first, is⟩ := Option.isSome_iff_exists.mp found
  have key : first.1 = pred := by simpa using List.find?_some is
  refine ⟨first.2, by rw [phiInput, is]; rfl, ?_⟩
  rw [← key]
  exact List.mem_of_find?_eq_some is

theorem Enters.frame (enters : Enters cfg regOf own b m pred p env vm) : vm.regs 10 = stackBase := by
  cases enters with
  | start regs => rw [regs]; rfl
  | edge _ _ frame => exact frame

/-- At the start the entry versions hold the registers. -/
theorem Enters.entryVersions (enters : Enters cfg regOf own b m none p env vm) {env₀ : Env} (zero : env₀ 0 = some 0)
    (ptr : env₀ 1 = some stackBase) (ctx : env₀ 2 = some m.ctx) (r : Reg) :
    env₀ (entryVersion r) = some (vm.regs r) := by
  cases enters with
  | start regs =>
    rw [regs]
    unfold entryVersion Regs.write Regs.zeroedWithFramePointer
    by_cases frame : r.isFramePtr = true
    · have away : r ≠ 1 := by
        rintro rfl
        cases frame
      simp [frame, away, ptr]
    · by_cases first : r = 1
      · subst first
        simp [ctx]
      · simp [frame, first, zero]

/-- A block with one predecessor is entered from there, unless it is the entry. -/
theorem Enters.from_single {q : Nat} (enters : Enters cfg regOf own b m pred p env vm) (away : p ≠ cfg.entry)
    (single : cfg.preds p = [q]) :
    pred ≠ none ∧ ∀ r v, Outbound cfg regOf own b q r v → env v = some (vm.regs r) := by
  cases enters with
  | start => exact absurd rfl away
  | @edge _ q' _ _ flows _ _ _ _ _ serves =>
    rw [single] at flows
    obtain rfl := List.mem_singleton.mp flows
    exact ⟨nofun, serves⟩

namespace Builder.Parts

variable {env₀ env₁ : Env} {inputs : List (Pred × SsaValue)}

section

variable (parts : Parts insns cfg regOf own b p phis body)
include parts

/-- A phi takes what its register holds where the block is entered. -/
theorem given (assembled : Assembled insns cfg regOf own b prog) (enters : Enters cfg regOf own b m pred p env vm)
    (zero : env₀ 0 = some 0) (ptr : env₀ 1 = some stackBase) (ctx : env₀ 2 = some m.ctx)
    (kept : ∀ v, pred ≠ none → env₀ v = env v) (among : .phi v inputs ∈ phis) :
    (phiInput pred inputs).bind env₀ = some (vm.regs (regOf v)) := by
  have edges := parts.edges v inputs among
  have entering := enters
  cases enters with
  | start regs =>
    cases loops : entryLoop cfg with
    | false =>
      rw [parts.first rfl loops] at among
      cases among
    | true =>
      have listed : none ∈ inputs.map Prod.fst := by
        rw [edges, if_pos ⟨rfl, loops⟩]
        exact List.mem_append_left _ List.mem_cons_self
      obtain ⟨w, found, input⟩ := phiInput_of_mem listed
      rw [found, parts.starts v inputs w among input]
      exact entering.entryVersions zero ptr ctx (regOf v)
  | @edge _ q _ _ flows reached _ _ _ _ serves =>
    have listed : some q ∈ inputs.map Prod.fst := by
      rw [edges]
      exact List.mem_append_right _ (List.mem_map_of_mem flows)
    obtain ⟨w, found, input⟩ := phiInput_of_mem listed
    rw [found]
    change env₀ w = _
    rw [kept w nofun]
    exact serves _ _ (parts.sends v inputs q w among input ((assembled.filled q).mpr reached))

/-- A version that a phi defines is the phi's. -/
theorem phi_of_defs (merges : v ∈ defs phis) : ∃ inputs, .phi v inputs ∈ phis := by
  obtain ⟨i, among, defines⟩ := mem_defs.mp merges
  have phi := parts.merges i among
  cases i with
  | phi dst inputs =>
    cases defines
    exact ⟨inputs, among⟩
  | _ => cases phi

variable (others : ∀ v, v ∉ defs phis → env₁ v = env₀ v)
include others

theorem early (low : v < 3) : env₁ v = env₀ v := by
  refine others v fun merges => ?_
  obtain ⟨inputs, among⟩ := parts.phi_of_defs merges
  exact absurd low (Nat.not_lt.mpr (parts.above v inputs among))

/-- A version from before is the register's also where a phi takes it anew. -/
theorem again {r : Reg} (assigned : ∀ v inputs, .phi v inputs ∈ phis → env₁ v = some (vm.regs (regOf v)))
    (low : v < 3 ∨ regOf v = r) (before : env₀ v = some (vm.regs r)) : env₁ v = some (vm.regs r) := by
  by_cases merges : v ∈ defs phis
  · obtain ⟨inputs, among⟩ := parts.phi_of_defs merges
    rcases low with small | same
    · exact absurd small (Nat.not_lt.mpr (parts.above v inputs among))
    · rw [assigned v inputs among, same]
  · rw [others v merges, before]

/-- Behind the phis an inbound version holds its register. -/
theorem serves {r : Reg} (assembled : Assembled insns cfg regOf own b prog)
    (open_entry : ∀ q, cfg.preds cfg.entry = [q] → q = cfg.entry) (enters : Enters cfg regOf own b m pred p env vm)
    (zero : env₀ 0 = some 0) (ptr : env₀ 1 = some stackBase) (ctx : env₀ 2 = some m.ctx)
    (kept : ∀ v, pred ≠ none → env₀ v = env v)
    (assigned : ∀ v inputs, .phi v inputs ∈ phis → env₁ v = some (vm.regs (regOf v)))
    (inbound : Inbound cfg regOf own b p r v) : env₁ v = some (vm.regs r) := by
  have low := assembled.low inbound
  have entering := enters
  -- what the only predecessor sends out
  have sent : ∀ {q}, q ≠ p → cfg.preds p = [q] → Outbound cfg regOf own b q r v → env₁ v = some (vm.regs r) := by
    intro q other single out
    obtain ⟨moved, serves⟩ := enters.from_single (ne_entry open_entry other single) single
    exact parts.again others assigned low ((kept v moved).trans (serves r v out))
  cases inbound with
  | phi there =>
    obtain ⟨inputs', among⟩ := parts.stands _ v _ there
    exact assigned v inputs' among
  | entry once =>
    rw [parts.early others (entryVersion_lt r)]
    cases enters with
    | start regs => exact entering.entryVersions zero ptr ctx r
    | edge flows =>
      have loops : entryLoop cfg = true := by
        unfold entryLoop
        cases listed : cfg.preds cfg.entry with
        | nil => rw [listed] at flows; cases flows
        | cons => rfl
      have framePtr : r.isFramePtr = true := by
        rcases once with never | framePtr
        · rw [loops] at never; cases never
        · exact framePtr
      obtain rfl : r = Reg.framePtr := by simpa [Reg.isFramePtr] using framePtr
      exact ptr.trans (congrArg some entering.frame.symm)
  | alone only done unowned =>
    cases enters with
    | start regs =>
      rw [parts.early others (entryVersion_lt r)]
      exact entering.entryVersions zero ptr ctx r
    | @edge _ q _ _ flows reached _ _ _ _ serves =>
      rw [only] at flows
      obtain rfl := List.mem_singleton.mp flows
      have before := serves r _ ⟨done, Or.inr ⟨unowned, .alone only done unowned⟩⟩
      exact parts.again others assigned low ((kept _ (Option.some_ne_none _)).trans before)
  | owned other single done owns => exact sent other single ⟨done, Or.inl owns⟩
  | through other single done unowned before => exact sent other single ⟨done, Or.inr ⟨unowned, before⟩⟩

end

/-- Where a block has its phis, the inbound versions hold the registers. -/
theorem enters (assembled : Assembled insns cfg regOf own b prog)
    (open_entry : ∀ q, cfg.preds cfg.entry = [q] → q = cfg.entry) (parts : Parts insns cfg regOf own b p phis body)
    (distinct : (defs phis).Nodup) (enters : Enters cfg regOf own b m pred p env vm) (world : World) :
    ∃ env₀ env₁, execList m (pseudo cfg p) env world = ⟨[], env₀, world, none⟩ ∧ evalPhis pred env₀ phis env₀ = some env₁ ∧
      env₁ 0 = some 0 ∧ env₁ 1 = some stackBase ∧ env₁ 2 = some m.ctx ∧ vm.regs 10 = stackBase ∧
      ∀ r v, Inbound cfg regOf own b p r v → env₁ v = some (vm.regs r) := by
  obtain ⟨env₀, started, zero, ptr, ctx, kept⟩ := enters.begins world
  have given : ∀ v inputs, .phi v inputs ∈ phis → (phiInput pred inputs).bind env₀ = some (vm.regs (regOf v)) :=
    fun v inputs => parts.given assembled enters zero ptr ctx kept
  obtain ⟨env₁, merged, others, assigned⟩ := evalPhis_spec pred env₀ env₀ parts.merges distinct
    fun dst inputs among => ⟨_, given dst inputs among⟩
  have taken : ∀ v inputs, .phi v inputs ∈ phis → env₁ v = some (vm.regs (regOf v)) :=
    fun v inputs among => (assigned v inputs among).trans (given v inputs among)
  exact ⟨env₀, env₁, started, merged, (parts.early others (by decide)).trans zero,
    (parts.early others (by decide)).trans ptr, (parts.early others (by decide)).trans ctx, enters.frame,
    fun r v => parts.serves others assembled open_entry enters zero ptr ctx kept taken⟩

end Builder.Parts

/-! ### Runs -/

theorem codeOf_getElem? {range : BasicBlock} {i : Nat} (here : cfg.blocks[p]? = some range) (low : i < range.stop - range.start) :
    (codeOf insns cfg p)[i]? = insns[range.start + i]? := by
  have found : cfg.blocks.getD p ⟨0, 0⟩ = range := by rw [List.getD_eq_getElem?_getD, here]; rfl
  rw [codeOf, found, List.getElem?_take, if_pos low, List.getElem?_drop]

theorem runFrom_goto {found : SsaBlock} {r : ListResult} (here : prog.blocks[p]? = some found)
    (ran : execBlock m prog pred p found env world = r.close prog p) (how : r.how.getD (goto (prog.fallsTo p)) = .goto t) :
    runFrom m prog (fuel + 1) pred p env world = (r.effects ++ (runFrom m prog fuel (some p) t r.env r.world).1,
      (runFrom m prog fuel (some p) t r.env r.world).2) := by
  simp only [runFrom, here, ran, ListResult.close, how]

theorem runFrom_ended {found : SsaBlock} {r : ListResult} {ending : Ending} (here : prog.blocks[p]? = some found)
    (ran : execBlock m prog pred p found env world = r.close prog p)
    (how : r.how.getD (goto (prog.fallsTo p)) = .ended ending) :
    runFrom m prog (fuel + 1) pred p env world = (r.effects, .ended ending) := by
  simp only [runFrom, here, ran, ListResult.close, how]

theorem Parts.phis_distinct {live : Bool} (distinct : Distinct prog.code)
    (found : prog.blocks[p]? = some ⟨pseudo cfg p ++ phis ++ body, live⟩) : (defs phis).Nodup := by
  have whole : prog.insnsOf p = pseudo cfg p ++ phis ++ body := by rw [SsaProgram.insnsOf_eq found]
  have single : (defs (prog.insnsOf p)).Nodup := by
    refine defs_nodup ?_ p
    have code := distinct.single
    unfold SsaProgram.code defs at code
    rwa [List.filterMap_flatMap] at code
  rw [whole] at single
  unfold defs at single ⊢
  rw [List.filterMap_append, List.filterMap_append] at single
  exact (List.nodup_append.mp (List.nodup_append.mp single).1).2.1

/-- From wherever a block is entered, a run of the program shows what a run of the machine shows. -/
theorem Builder.Assembled.shows (built : Built insns cfg targets) (assembled : Assembled insns cfg regOf own b prog)
    (open_entry : ∀ q, cfg.preds cfg.entry = [q] → q = cfg.entry)
    (distinct : Distinct prog.code) (swaps : SwapsByImm insns) (fuel : Nat) {range : BasicBlock}
    (here : cfg.blocks[p]? = some range) (place : vm.pc = range.start) (reached : cfg.Reaches p)
    (enters : Enters cfg regOf own b m pred p env vm) (loaded : vm.Loaded insns) (helpers : m.helpers = vm.helpers)
    (conventional : ∀ func helper, vm.helpers func = some helper → Conventional helper) :
    ∃ steps, fuel ≤ steps ∧ showing steps vm = runFrom m prog fuel pred p env vm.toWorld := by
  induction fuel generalizing pred p env vm range with
  | zero => exact ⟨0, Nat.le_refl _, rfl⟩
  | succ fuel ih =>
    obtain ⟨phis, body, live, found, parts⟩ := assembled.blocks p reached
    obtain ⟨env₀, env₁, started, merged, zero, ptr, ctx, frame, serves⟩ :=
      parts.enters assembled open_entry (Parts.phis_distinct distinct found) enters vm.toWorld
    have plainHead : ∀ i ∈ pseudo cfg p, i.isPhi = false := by
      unfold pseudo
      split <;> simp [SsaInsn.isPhi]
    have block := execBlock_eq (b := ⟨pseudo cfg p ++ phis ++ body, live⟩) prog p rfl plainHead parts.merges
      parts.code.plain started merged
    obtain ⟨_, nonempty, bound⟩ := built.tiles.mem (List.mem_of_getElem? here)
    have found' : cfg.blocks.getD p ⟨0, 0⟩ = range := by rw [List.getD_eq_getElem?_getD, here]; rfl
    have length : (codeOf insns cfg p).length = range.stop - range.start := by
      rw [codeOf, found', List.length_take, List.length_drop]
      omega
    have fetched : ∀ i < (codeOf insns cfg p).length, insns[vm.pc + i]? = (codeOf insns cfg p)[i]? := by
      intro i low
      rw [place, codeOf_getElem? here (length ▸ low)]
    have begin_ : ∀ r v, Held (Inbound cfg regOf own b p) (fun _ => none) r v → env₁ v = some (vm.regs r) := by
      rintro r v (owns | ⟨_, inbound⟩)
      · cases owns
      · exact serves r v inbound
    have outcome := parts.code.runs built here (fun r v => assembled.low) (fun r v owns => by cases owns) conventional swaps
      loaded helpers place.ge (by omega) fetched begin_
    rcases outcome with ⟨steps, vm', enough, gets, same, carries, leaves⟩ | ⟨steps, ending, shown, how⟩
    · -- the machine is behind the block: at the start of the next one, or past the end
      have on : ∀ t, (execList m body env₁ vm.toWorld).how.getD (goto (prog.fallsTo p)) = .goto t → LandsIn cfg p t vm' →
          ∃ steps, fuel + 1 ≤ steps ∧ showing steps vm = runFrom m prog (fuel + 1) pred p env vm.toWorld := by
        intro t how lands
        obtain ⟨next, there, pc⟩ := lands.2
        obtain ⟨more, enough', rest⟩ := ih there pc (lands.reached reached)
          (.edge lands.1 reached (carries.frame.trans frame) ((carries.fixed 0 (by decide)).trans zero)
            ((carries.fixed 1 (by decide)).trans ptr) ((carries.fixed 2 (by decide)).trans ctx)
            fun r v out => carries.serves r v out.2)
          (carries.exec.trans loaded) (helpers.trans carries.helpers.symm) (by rwa [carries.helpers])
        refine ⟨steps + more, by omega, ?_⟩
        rw [gets, rest, runFrom_goto found block how, same]
      rcases leaves with ⟨how, stopped, plain⟩ | ⟨t, how, lands⟩
      · have falling : (execList m body env₁ vm.toWorld).how.getD (goto (prog.fallsTo p)) = goto (prog.fallsTo p) := by
          rw [how]
          rfl
        obtain ⟨insn, last, open_⟩ := plain (List.ne_nil_of_length_pos (by omega))
        rcases falls_lands built here assembled.edges last open_ stopped with ⟨t, falls, lands⟩ | ⟨falls, past⟩
        · refine on t ?_ lands
          rw [falling, falls]
          rfl
        · refine ⟨steps + (fuel + 1), by omega, ?_⟩
          have laden : vm'.Loaded insns := carries.exec.trans loaded
          have off : vm'.exec.length ≤ vm'.pc := by
            rw [laden]
            simpa [Interp.load] using past
          rw [gets, runFrom_ended found block (falling.trans (congrArg goto falls))]
          simp only [showing, step_past_end laden (List.getElem?_eq_none past), if_pos off, List.append_nil]
      · exact on t (by rw [how]; rfl) lands
    · refine ⟨steps + (fuel + 1), by omega, ?_⟩
      rw [shown, runFrom_ended found block (by rw [how]; rfl)]

theorem decoded_swaps {bytes : List UInt8} (decoded : decodeProgram bytes = .ok insns) : SwapsByImm insns := by
  intro width endian dst src there
  obtain ⟨i, inside, fetched⟩ := List.mem_iff_getElem.mp there
  have words := readAll_words decoded
  obtain ⟨rest, consumed, read⟩ := words.get (words.length_eq ▸ inside) inside
  have same : insns.get ⟨i, inside⟩ = .alu width (.byteSwap endian) dst src := fetched
  rw [same] at read
  rcases (decodeOne_cases read).2 with ⟨_, _, _, _, jump, _⟩ | ⟨_, unknown | kept⟩
  · cases jump
  · cases unknown
  · cases src with
    | reg r => cases kept.1
    | imm w => exact ⟨w, rfl⟩

/-- A run of the built program shows what a run of the machine shows. -/
theorem buildSsa_shows (documented : petgraph.Documented) (graph : buildCfg petgraph insns = .ok cfg)
    (open_entry : ∀ q, cfg.preds cfg.entry = [q] → q = cfg.entry)
    (built : buildSsa insns cfg = some (.ok prog)) (swaps : SwapsByImm insns) (loaded : vm.Loaded insns) (start : vm.pc = 0)
    {ctx : Int64} (regs : vm.regs = Regs.zeroedWithFramePointer.write 1 ctx)
    (conventional : ∀ func helper, vm.helpers func = some helper → Conventional helper) (fuel : Nat) :
    ∃ steps, fuel ≤ steps ∧ showing steps vm = run ⟨vm.helpers, ctx⟩ prog vm.toWorld fuel := by
  obtain ⟨targets, parts⟩ := buildCfg_built graph
  obtain ⟨b, regOf, own, assembled⟩ := buildSsaWith_assembled documented graph (Nat.lt_add_of_pos_right (by decide)) built
  have regular := buildSsaWith_regular documented graph built
  obtain ⟨first, rest, blocks⟩ := List.exists_cons_of_length_pos parts.blocks_pos
  have here : cfg.blocks[cfg.entry]? = some first := by rw [parts.entry_eq, blocks]; rfl
  have begins : first.start = 0 := by
    have tiles := parts.tiles
    rw [blocks] at tiles
    exact tiles.1
  have enters : Enters cfg regOf own b ⟨vm.helpers, ctx⟩ none cfg.entry (fun _ => none) vm := .start regs
  have shown := assembled.shows parts open_entry regular.distinct swaps fuel here (start.trans begins.symm) .root enters loaded rfl
    conventional
  rw [← assembled.entry] at shown
  exact shown

/-- SSA construction preserves what a program means: a machine that runs decoded code and a run of the built
program have the same effects and the same end, unless the only edge into the entry comes from another block.
The source does so for programs of fewer than 2^32 versions: `fresh` counts on. -/
theorem buildSsa_means {bytes : List UInt8} (decoded : decodeProgram bytes = .ok insns)
    (documented : petgraph.Documented) (graph : buildCfg petgraph insns = .ok cfg)
    (open_entry : ∀ q, cfg.preds cfg.entry = [q] → q = cfg.entry) (built : buildSsa insns cfg = some (.ok prog))
    (loaded : vm.Loaded insns) (start : vm.pc = 0) {ctx : Int64} (regs : vm.regs = Regs.zeroedWithFramePointer.write 1 ctx)
    (conventional : ∀ func helper, vm.helpers func = some helper → Conventional helper) :
    (∀ fuel, ∃ steps, fuel ≤ steps ∧ showing steps vm = run ⟨vm.helpers, ctx⟩ prog vm.toWorld fuel) ∧
      ∀ limit code, (vm.run limit).2 = .ok code → (run ⟨vm.helpers, ctx⟩ prog vm.toWorld limit).2 = .ended (.exit code) := by
  have shows := buildSsa_shows documented graph open_entry built (decoded_swaps decoded) loaded start regs conventional
  refine ⟨shows, fun limit code exits => ?_⟩
  obtain ⟨steps, enough, same⟩ := shows limit
  have ended : (showing limit vm).2 = .ended (.exit code) := showing_exit.mpr exits
  obtain ⟨more, rfl⟩ := Nat.exists_eq_add_of_le enough
  rw [← same, showing_ended ended, ended]

/-- `r1 = 2; do *(r10 - 8) = r1; r1 -= 1 while r1 != 0; r0 = *(r10 - 8); exit`. -/
def spilling : List Insn :=
  [.alu .b64 .mov 1 (.imm 2), .store .dw 10 (-8) (.reg 1), .alu .b64 .sub 1 (.imm 1),
    .jump .b64 .ne 1 (.imm 0) (-3), .load .dw 0 10 (-8), .exit]

def spillingBytes : List UInt8 :=
  [183, 1, 0, 0, 2, 0, 0, 0, 123, 26, 248, 255, 0, 0, 0, 0, 23, 1, 0, 0, 1, 0, 0, 0, 85, 1, 253, 255, 0, 0, 0, 0,
    121, 160, 248, 255, 0, 0, 0, 0, 149, 0, 0, 0, 0, 0, 0, 0]

def spillingCfg : Cfg where
  blocks := [⟨0, 1⟩, ⟨1, 4⟩, ⟨4, 6⟩]
  edges := [⟨0, 1, .fallthrough⟩, ⟨1, 1, .branchTrue⟩, ⟨1, 2, .branchFalse⟩]
  entry := 0
  blockOfPc := [0, 1, 1, 1, 2, 2]
  slotOf := [0, 1, 2, 3, 4, 5]
  rpo := [0, 1, 2]

def spillingSsa : SsaProgram where
  blocks := [
    { insns := [.const 0 0, .framePtr 1, .entryCtx 2, .binOp 3 .b64 .mov (.value 2) (.imm 2)], live := true },
    { insns := [.phi 4 [(some 1, 4), (some 0, 1)], .phi 5 [(some 1, 6), (some 0, 3)], .store .dw 4 (-8) (.value 5),
        .binOp 6 .b64 .sub (.value 5) (.imm 1), .br .b64 .ne (.value 6) (.imm 0) (some 1) (some 2)]
      live := true },
    { insns := [.load (some 7) .dw 4 (-8), .exit 7], live := true }]
  edges := spillingCfg.edges
  entry := 0
  defSites := [some (0, 0), some (0, 1), some (0, 2), some (0, 3), some (1, 0), some (1, 1), some (1, 3), some (2, 0)]

theorem buildSsa_means_spilling :
    (∀ fuel, ∃ steps, fuel ≤ steps ∧
        showing steps (Vm.new spilling) = run ⟨.empty, 0⟩ spillingSsa (Vm.new spilling).toWorld fuel) ∧
      ∀ limit code, ((Vm.new spilling).run limit).2 = .ok code →
        (run ⟨.empty, 0⟩ spillingSsa (Vm.new spilling).toWorld limit).2 = .ended (.exit code) := by
  have decoded : decodeProgram spillingBytes = .ok spilling := by decide +kernel
  have graph : buildCfg searching spilling = .ok spillingCfg := by rfl
  have built : buildSsa spilling spillingCfg = some (.ok spillingSsa) := by decide +kernel
  have loaded : (Vm.new spilling).Loaded spilling := rfl
  have regs : (Vm.new spilling).regs = Regs.zeroedWithFramePointer.write 1 0 := by
    funext r
    by_cases first : r = 1
    · subst first
      rfl
    · simp [Vm.new, Regs.write, first]
  exact buildSsa_means decoded searching_documented graph (fun q single => by cases single) built loaded rfl regs
    fun _ _ known => by cases known

end EbpfLab.Ssa
