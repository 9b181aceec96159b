import EbpfLab.Cfg.Searching
import EbpfLab.Ssa.Prepare
import EbpfLab.Ssa.Semantics
import EbpfLab.Vm.Straight

/-!
# Emitted data operations

What the code emitted for a data operation does to the homes, compared with what the operation
computes from what its operands' homes hold.
-/

namespace EbpfLab.Ssa
open Isa FlowGraph Library Interp

variable {petgraph : Petgraph} {prog : SsaProgram} {lower : Lower} {block pos : Nat} {insn : SsaInsn} {u v : SsaValue}
  {home src : Reg} {code : List Insn} {width : Width} {op : AluOp} {lhs rhs : SsaOperand} {x : Int64}
  {vm vm' : Vm} {regs : Regs} {m : PlacedMove}

/-! ### Values of homes -/

def MoveSrc.eval (regs : Regs) : MoveSrc → Int64
  | .reg r => regs r
  | .imm k => k.toInt64
  | .wide k => k

namespace Lower

variable (lower : Lower)

/-- What a version stands for: its home, or its constant. Emission refuses to read another one. -/
def valueOf (regs : Regs) (v : SsaValue) : Int64 :=
  match lower.homeOf v with
  | some home => regs home
  | none =>
    match lower.prog.defOf v with
    | some (.const _ k) => k
    | _ => 0

def env (regs : Regs) : Env := fun v => some (lower.valueOf regs v)

def operandValue (regs : Regs) : SsaOperand → Int64
  | .value v => lower.valueOf regs v
  | .imm k => k.toInt64

def operandHome : SsaOperand → Option Reg
  | .value v => lower.homeOf v
  | .imm _ => none

end Lower

/-- The operations that compute a version from registers alone. -/
def SsaInsn.isData : SsaInsn → Bool
  | .binOp .. | .copy .. | .const .. | .loadImm64 .. => true
  | _ => false

/-- The code puts a value in a home and changes nothing else. -/
def Puts (vm : Vm) (code : List Insn) (home : Reg) (x : Int64) : Prop :=
  vm.executeAll (load code) =
    ({ vm with regs := Function.update vm.regs home x, pc := vm.pc + code.length }, .cont)

/-- From all registers the code leaves the operation's value in the home of its result and changes
nothing else, or ends with the operation's fault and the other registers as they were. -/
def Faithful (lower : Lower) (insn : SsaInsn) (v : SsaValue) (home : Reg) (code : List Insn) : Prop :=
  ∀ (m : Machine) (vm : Vm),
    (∀ env x, execInsn m insn (lower.env vm.regs) vm.toWorld = .next env → env v = some x →
      Puts vm code home x) ∧
    ∀ kind, execInsn m insn (lower.env vm.regs) vm.toWorld = .leave (.ended (.fault kind)) →
      ∃ vm' e, vm.executeAll (load code) = (vm', .error e) ∧ Fault.of e = kind ∧
        ∀ r, r ≠ home → vm'.regs r = vm.regs r

/-- The condition under which a data operation is emitted faithfully: a 32-bit move is not from its own
home, a byte swap has an immediate width, and no other operation finds its right operand in the home
of the result while the left one is elsewhere. -/
def DataFits (lower : Lower) (home : Reg) : SsaInsn → Prop
  | .binOp _ width op lhs rhs =>
    match op with
    | .mov => width = .b32 → lower.operandHome rhs ≠ some home
    | .neg => True
    | .byteSwap _ => ∃ k, rhs = .imm k
    | _ => lower.operandHome rhs = some home → lower.operandHome lhs = some home
  | _ => True

/-! ### Moves -/

theorem write_home (plain : home ≠ 10) (x : Int64) : regs.write home x = Function.update regs home x := by
  funext r
  have named : home.isFramePtr = false := by
    revert plain
    revert home
    decide
  unfold Regs.write
  rw [Function.update_apply]
  simp [named]

theorem narrow_eq {k : Int64} {n : Int32} (fits : narrow k = some n) : n.toInt64 = k := by
  unfold narrow at fits
  split at fits
  · rename_i range
    cases fits
    refine Int64.toInt_inj.mp ?_
    rw [Int32.toInt_toInt64, Int64.toInt_toInt32, Int.bmod_eq_of_le (by omega) (by omega)]
  · cases fits

theorem Puts.empty (same : x = vm.regs home) : Puts vm [] home x := by
  subst same
  unfold Puts
  rw [Function.update_eq_self]
  rfl

theorem Puts.single {insn : Insn} (straight : isJump insn = false) (plain : home ≠ 10)
    (executes : vm.execute (loadStraight insn) = (vm.assign home x, .cont)) : Puts vm [insn] home x := by
  unfold Puts
  rw [load_straight (fun i present => (List.mem_singleton.mp present) ▸ straight), List.map_singleton,
    Vm.executeAll_single, executes, Vm.assign, write_home plain]
  rfl

/-- A later value of a home replaces an earlier one. -/
theorem Puts.append {before : List Insn} {y : Int64} (straight : ∀ i ∈ before, isJump i = false)
    (straight' : ∀ i ∈ code, isJump i = false) (first : Puts vm before home y)
    (second : Puts { vm with regs := Function.update vm.regs home y, pc := vm.pc + before.length } code home x) :
    Puts vm (before ++ code) home x := by
  unfold Puts at *
  rw [executeAll_straight straight straight' first, second]
  simp [Nat.add_assoc]

theorem emitMove_straight : ∀ i ∈ emitMove m, isJump i = false := by
  intro i present
  unfold emitMove at present
  split at present
  · split at present
    · cases present
    · rw [List.mem_singleton.mp present]
      rfl
  · rw [List.mem_singleton.mp present]
    rfl
  · rw [List.mem_singleton.mp present]
    rfl

theorem emitMove_puts (plain : m.dst ≠ 10) : Puts vm (emitMove m) m.dst (m.src.eval vm.regs) := by
  obtain ⟨dst, src⟩ := m
  cases src with
  | reg r =>
    unfold emitMove
    dsimp only
    split
    · rename_i same
      exact Puts.empty (by rw [same]; rfl)
    · exact Puts.single rfl plain rfl
  | imm k => exact Puts.single rfl plain rfl
  | wide k => exact Puts.single rfl plain rfl

theorem emitConst_puts (plain : home ≠ 10) (k : Int64) : Puts vm (emitConst home k) home k := by
  unfold emitConst
  split
  · rename_i n fits
    have value := narrow_eq fits
    subst value
    exact Puts.single rfl plain rfl
  · exact Puts.single rfl plain rfl

theorem moveSrc_eval {src : MoveSrc} (ok : lower.moveSrc v = .ok src) : src.eval regs = lower.valueOf regs v := by
  unfold Lower.moveSrc at ok
  unfold Lower.valueOf
  cases homed : lower.homeOf v with
  | some home =>
    rw [homed] at ok
    cases ok
    rfl
  | none =>
    rw [homed] at ok
    dsimp only at ok ⊢
    cases defined : lower.prog.defOf v with
    | none =>
      rw [defined] at ok
      cases ok
    | some insn =>
      rw [defined] at ok
      cases insn with
      | const dst k =>
        cases ok
        cases fits : narrow k with
        | none => rfl
        | some n => exact narrow_eq fits
      | _ => cases ok

theorem moveSrcOf_eval {src : MoveSrc} (ok : lower.moveSrcOf rhs = .ok src) :
    src.eval regs = lower.operandValue regs rhs := by
  cases rhs with
  | value v => exact moveSrc_eval ok
  | imm k =>
    cases ok
    rfl

theorem moveSrcOf_reads {src : MoveSrc} (ok : lower.moveSrcOf rhs = .ok src) :
    src.reads = lower.operandHome rhs := by
  cases rhs with
  | value v =>
    have moved : lower.moveSrc v = .ok src := ok
    have located : lower.operandHome (.value v) = lower.homeOf v := rfl
    rw [located]
    unfold Lower.moveSrc at moved
    split at moved
    · rename_i home homed
      cases moved
      exact homed.symm
    · rename_i homed
      rw [homed]
      split at moved
      · rename_i dst k _
        cases moved
        cases narrow k <;> rfl
      · cases moved
  | imm k =>
    cases ok
    rfl

theorem operandOf_cases {o : Operand} (ok : lower.operandOf rhs = .ok o) :
    (∃ r, o = .reg r ∧ lower.operandHome rhs = some r ∧ ∀ regs, lower.operandValue regs rhs = regs r) ∨
      ∃ k, o = .imm k ∧ rhs = .imm k := by
  cases rhs with
  | value v =>
    left
    unfold Lower.operandOf Lower.requireHome at ok
    dsimp only at ok
    split at ok
    · rename_i home homed
      cases ok
      refine ⟨home, rfl, homed, fun regs => ?_⟩
      simp only [Lower.operandValue, Lower.valueOf, homed]
    · cases ok
  | imm k =>
    cases ok
    exact Or.inr ⟨k, rfl, rfl⟩

/-! ### Faithful code -/

theorem puts_unique {y : Int64} (left : Puts vm code home x) (right : Puts vm code home y) : x = y := by
  have same := congrArg (fun ran => ran.1.regs home) (left.symm.trans right)
  simpa using same

/-- An operation that always computes is emitted faithfully when its value is put in the home. -/
theorem faithful_iff_puts (value : Regs → Int64)
    (computes : ∀ m regs world, execInsn m insn (lower.env regs) world =
      .next ((lower.env regs).set v (value regs))) :
    Faithful lower insn v home code ↔ ∀ vm : Vm, Puts vm code home (value vm.regs) := by
  constructor
  · intro faithful vm
    exact (faithful ⟨.empty, 0⟩ vm).1 _ _ (computes _ _ _) (by simp [Env.set])
  · intro puts m vm
    refine ⟨fun env x next held => ?_, fun kind faulted => ?_⟩
    · rw [computes] at next
      cases next
      have same : value vm.regs = x := by simpa [Env.set] using held
      rw [← same]
      exact puts vm
    · rw [computes] at faulted
      cases faulted

theorem env_operand (o : SsaOperand) : (lower.env regs).operand o = some (lower.operandValue regs o) := by
  cases o <;> rfl

theorem execInsn_binOp (m : Machine) (world : World) :
    execInsn m (.binOp v width op lhs rhs) (lower.env regs) world =
      if badEnd op (lower.operandValue regs rhs) then
        .leave (.ended (.fault (.invalidEndWidth (lower.operandValue regs rhs))))
      else .next ((lower.env regs).set v
        (op.apply (lower.operandValue regs lhs) (lower.operandValue regs rhs) width)) := by
  simp only [execInsn, env_operand]
  rfl

/-! ### Moves at a width -/

theorem emitMov_iff (plain : home ≠ 10) (emitted : lower.emitMov width home rhs = .ok code) :
    (∀ vm : Vm, Puts vm code home
        (AluOp.apply .mov (lower.operandValue vm.regs lhs) (lower.operandValue vm.regs rhs) width)) ↔
      (width = .b32 → lower.operandHome rhs ≠ some home) := by
  obtain ⟨src, ok, made⟩ := bind_eq_ok.mp emitted
  clear emitted
  have reads := moveSrcOf_reads ok
  have eval : ∀ regs, src.eval regs = lower.operandValue regs rhs := fun _ => moveSrcOf_eval ok
  cases src with
  | wide k => cases made
  | imm k =>
    cases made
    rw [← reads]
    refine iff_of_true (fun vm => ?_) fun _ => by simp [MoveSrc.reads]
    rw [← eval, AluOp.apply_mov_left _ (vm.regs home)]
    exact Puts.single rfl plain rfl
  | reg r =>
    rw [← reads]
    dsimp only at made
    split at made
    · rename_i same
      subst same
      cases made
      constructor
      · rintro puts rfl
        -- the elided copy keeps the high half
        have kept := puts { Vm.new [] with regs := fun _ => 2 ^ 32 }
        have value := puts_unique kept (Puts.empty rfl)
        rw [← eval, AluOp.apply_mov_left _ 0] at value
        have high : AluOp.apply .mov 0 (2 ^ 32) .b32 = 2 ^ 32 := value
        exact absurd high (by decide)
      · intro fits vm
        refine Puts.empty ?_
        rw [← eval]
        cases width with
        | b64 => rfl
        | b32 => exact absurd rfl (fits rfl)
    · rename_i apart
      cases made
      refine iff_of_true (fun vm => ?_) fun _ same => apart (Option.some.inj same)
      rw [← eval, AluOp.apply_mov_left _ (vm.regs home)]
      exact Puts.single rfl plain rfl

/-! ### Two-operand code -/

/-- The operations that read both operands and always compute. -/
def isBinary : AluOp → Bool
  | .mov | .neg | .byteSwap _ => false
  | _ => true

/-- The right operand as the code finds it once the left one is in the home. -/
def Lower.movedValue (lower : Lower) (regs : Regs) (home : Reg) (lhs rhs : SsaOperand) : Int64 :=
  if lower.operandHome rhs = some home then lower.operandValue regs lhs else lower.operandValue regs rhs

/-- An immediate width the loader admits is one `BPF_END` accepts. -/
theorem validEndWidth_imm (w : Int32) : validEndWidth w.toInt64 = true ↔ w = 16 ∨ w = 32 ∨ w = 64 := by
  have same : ∀ n : Int32, (w.toInt64 == n.toInt64) = true ↔ w = n := fun n => by
    rw [beq_iff_eq, ← Int64.toInt_inj, Int32.toInt_toInt64, Int32.toInt_toInt64, Int32.toInt_inj]
  unfold validEndWidth
  rw [Bool.or_eq_true, Bool.or_eq_true]
  exact (or_congr (or_congr (same 16) (same 32)) (same 64)).trans or_assoc

theorem emitAlu_code (emitted : lower.emitAlu width op home lhs rhs = .ok code) :
    ∃ src o, (∀ regs, src.eval regs = lower.operandValue regs lhs) ∧ lower.operandOf rhs = .ok o ∧
      code = emitMove { dst := home, src } ++ [.alu width op home o] := by
  unfold Lower.emitAlu at emitted
  cases lhs with
  | imm k => cases emitted
  | value v =>
    obtain ⟨src, moved, made⟩ := bind_eq_ok.mp emitted
    obtain ⟨o, read, made⟩ := bind_eq_ok.mp made
    cases made
    exact ⟨src, o, fun _ => moveSrc_eval moved, read, rfl⟩

/-- The code for an operation that computes puts what it makes of the left operand and of what it
then finds of the right one. -/
theorem emitAlu_puts (plain : home ≠ 10) (emitted : lower.emitAlu width op home lhs rhs = .ok code)
    (loads : ∀ endian, op = .byteSwap endian → ∃ k, rhs = .imm k ∧ validEndWidth k.toInt64 = true) (vm : Vm) :
    Puts vm code home (op.apply (lower.operandValue vm.regs lhs) (lower.movedValue vm.regs home lhs rhs) width) := by
  obtain ⟨src, o, eval, read, rfl⟩ := emitAlu_code emitted
  have moves : Puts vm (emitMove { dst := home, src }) home (lower.operandValue vm.regs lhs) := by
    rw [← eval]
    exact emitMove_puts plain
  refine Puts.append emitMove_straight (fun i present => (List.mem_singleton.mp present) ▸ rfl)
    moves (Puts.single rfl plain ?_)
  rcases operandOf_cases read with ⟨r, rfl, homed, value⟩ | ⟨k, rfl, rfl⟩
  · have regular : loadStraight (.alu width op home (.reg r)) = .aluReg width op home r := by
      cases op with
      | byteSwap endian =>
        obtain ⟨k, same, _⟩ := loads endian rfl
        rw [same] at homed
        cases homed
      | _ => rfl
    rw [regular]
    simp only [Vm.execute, Function.update_self, Lower.movedValue, homed, Option.some.injEq]
    split
    · rename_i same
      subst same
      simp
    · rename_i apart
      rw [Function.update_of_ne apart, value]
  · have regular : loadStraight (.alu width op home (.imm k)) = .aluImm width op home k := by
      cases op with
      | byteSwap endian =>
        obtain ⟨w, same, valid⟩ := loads endian rfl
        cases same
        exact if_pos ((validEndWidth_imm k).mp valid)
      | _ => rfl
    rw [regular]
    simp [Vm.execute, Lower.movedValue, Lower.operandHome, Lower.operandValue]

/-- Operand values that an operation tells apart from the left one taken twice. -/
def probe : AluOp → Int64 × Int64
  | .mod => (1, 2)
  | .add | .sub | .or | .xor => (0, 1)
  | _ => (1, 0)

theorem probe_differs (binary : isBinary op = true) :
    op.apply (probe op).1 (probe op).1 width ≠ op.apply (probe op).1 (probe op).2 width := by
  cases op with
  | mov | neg | byteSwap => cases binary
  | _ => cases width <;> decide

theorem operandValue_home (homed : lower.operandHome rhs = some src) (regs : Regs) :
    lower.operandValue regs rhs = regs src := by
  cases rhs with
  | value v =>
    have homed : lower.homeOf v = some src := homed
    simp only [Lower.operandValue, Lower.valueOf, homed]
  | imm k => cases homed

/-- The values differ when the right operand is clobbered by the left one's move. -/
theorem emitAlu_iff (binary : isBinary op) (plain : home ≠ 10)
    (emitted : lower.emitAlu width op home lhs rhs = .ok code) (located : lower.operandHome lhs = some src) :
    (∀ vm : Vm, Puts vm code home
        (op.apply (lower.operandValue vm.regs lhs) (lower.operandValue vm.regs rhs) width)) ↔
      (lower.operandHome rhs = some home → lower.operandHome lhs = some home) := by
  have loads : ∀ endian, op = .byteSwap endian → ∃ k, rhs = .imm k ∧ validEndWidth k.toInt64 = true := by
    rintro endian rfl
    cases binary
  constructor
  · intro puts shared
    by_contra elsewhere
    have apart : src ≠ home := fun same => elsewhere (by rw [located, same])
    have clash := puts_unique
      (emitAlu_puts plain emitted loads
        { Vm.new [] with regs := fun r => if r = home then (probe op).2 else (probe op).1 }) (puts _)
    unfold Lower.movedValue at clash
    rw [if_pos shared, operandValue_home located, operandValue_home shared] at clash
    dsimp only at clash
    rw [if_neg apart, if_pos rfl] at clash
    exact probe_differs binary clash
  · intro fits vm
    have moved : lower.movedValue vm.regs home lhs rhs = lower.operandValue vm.regs rhs := by
      unfold Lower.movedValue
      split
      · rename_i shared
        rw [operandValue_home (fits shared), operandValue_home shared]
      · rfl
    rw [← moved]
    exact emitAlu_puts plain emitted loads vm

theorem emitNeg_puts (plain : home ≠ 10) (emitted : lower.emitAlu width .neg home lhs rhs = .ok code) (vm : Vm) :
    Puts vm code home
      (AluOp.apply .neg (lower.operandValue vm.regs lhs) (lower.operandValue vm.regs rhs) width) := by
  rw [AluOp.apply_neg_right _ _ (lower.movedValue vm.regs home lhs rhs)]
  exact emitAlu_puts plain emitted (fun _ same => by cases same) vm

/-- A trap behind the move of the left operand. -/
theorem emitAlu_traps (kind : TrapKind) (emitted : lower.emitAlu width op home lhs rhs = .ok code)
    (plain : home ≠ 10) (traps : ∀ o, lower.operandOf rhs = .ok o → loadStraight (.alu width op home o) = .trap kind)
    (vm : Vm) : ∃ vm' pc, vm.executeAll (load code) = (vm', .error (kind.intoError pc)) ∧
      ∀ r, r ≠ home → vm'.regs r = vm.regs r := by
  obtain ⟨src, o, _, read, rfl⟩ := emitAlu_code emitted
  have moves : Puts vm (emitMove { dst := home, src }) home (src.eval vm.regs) := emitMove_puts plain
  have last : ∀ i ∈ [Insn.alu width op home o], isJump i = false := fun i present => List.mem_singleton.mp present ▸ rfl
  rw [executeAll_straight emitMove_straight last moves, load_straight last, List.map_singleton, Vm.executeAll_single,
    traps o read]
  exact ⟨_, _, rfl, fun r apart => Function.update_of_ne apart _ _⟩

/-- A byte swap is emitted faithfully when its width is an immediate: a register width always traps. -/
theorem emitSwap_iff {endian : Endian} (plain : home ≠ 10)
    (emitted : lower.emitAlu width (.byteSwap endian) home lhs rhs = .ok code) :
    Faithful lower (.binOp v width (.byteSwap endian) lhs rhs) v home code ↔ ∃ k, rhs = .imm k := by
  obtain ⟨_, o, _, read, _⟩ := emitAlu_code emitted
  rcases operandOf_cases read with ⟨r, rfl, homed, value⟩ | ⟨k, rfl, rfl⟩
  · refine iff_of_false (fun faithful => ?_) ?_
    · have traps := emitAlu_traps .illegal emitted plain
        (fun o' read' => by cases read.symm.trans read'; rfl) { Vm.new [] with regs := fun _ => 16 }
      obtain ⟨vm', pc, ran, _⟩ := traps
      have swaps := (faithful ⟨.empty, 0⟩ { Vm.new [] with regs := fun _ => 16 }).1
      rw [execInsn_binOp, value] at swaps
      have fine : ¬badEnd (.byteSwap endian) 16 = true := by
        cases endian <;> decide
      have puts := swaps _ _ (if_neg fine) (if_pos rfl)
      have clash := congrArg Prod.snd (puts.symm.trans ran)
      cases clash
    · rintro ⟨k, rfl⟩
      cases homed
  · refine iff_of_true ?_ ⟨k, rfl⟩
    by_cases valid : validEndWidth k.toInt64 = true
    · refine (faithful_iff_puts (fun regs =>
        AluOp.apply (.byteSwap endian) (lower.operandValue regs lhs) k.toInt64 width)
          fun m regs world => ?_).mpr (emitAlu_puts plain emitted fun _ _ => ⟨k, rfl, valid⟩)
      rw [execInsn_binOp]
      exact if_neg (by simp [badEnd, Lower.operandValue, valid])
    · intro m vm
      rw [execInsn_binOp, if_pos (by simpa [badEnd, Lower.operandValue] using valid)]
      refine ⟨fun env x next => (by cases next), fun kind faulted => ?_⟩
      cases faulted
      have refused : ¬(k = 16 ∨ k = 32 ∨ k = 64) := fun admitted => valid ((validEndWidth_imm k).mpr admitted)
      obtain ⟨vm', pc, ran, kept⟩ := emitAlu_traps (.badEndWidth k.toInt64) emitted plain
        (fun o' read' => by cases read.symm.trans read'; exact if_neg refused) vm
      exact ⟨vm', _, ran, rfl, kept⟩

/-! ### Every data operation -/

/-- A home of a version that an operation defines is not that of the frame pointer. -/
theorem Prepared.plain (prepared : Prepared petgraph prog lower) (regular : Regular prog)
    (there : insn ∈ prog.code) (dst : insn.defDst = some v) (pseudo : insn.isPseudo = false)
    (homed : lower.homeOf v = some home) : home ≠ 10 := by
  rintro rfl
  rcases allocate_home prepared.allocated homed with (⟨_, frame⟩ | ⟨absurd_, _⟩) | ⟨plain, _⟩
  · -- the version would be defined twice
    obtain ⟨pre, post, split⟩ := List.append_of_mem there
    have single := regular.distinct.single
    rw [split] at frame single
    simp only [defs, List.filterMap_append, List.filterMap_cons, dst] at single
    have apart := List.nodup_middle.mp single
    have unlisted := (List.nodup_cons.mp apart).1
    rcases List.mem_append.mp frame with earlier | later
    · exact unlisted (List.mem_append_left _ (mem_defs.mpr ⟨_, earlier, rfl⟩))
    · rcases List.mem_cons.mp later with rfl | later
      · cases pseudo
      · exact unlisted (List.mem_append_right _ (mem_defs.mpr ⟨_, later, rfl⟩))
  · cases absurd_
  · exact plain rfl

/-- A left operand that emission reads has a home. -/
theorem Prepared.lhs_home (prepared : Prepared petgraph prog lower) {site : Site}
    (there : (site, .binOp v width op lhs rhs) ∈ prog.liveSites)
    (emitted : lower.emitAlu width op home lhs rhs = .ok code) : ∃ src, lower.operandHome lhs = some src := by
  cases lhs with
  | imm k => cases emitted
  | value u =>
    have named : lower.operandHome (.value u) = lower.homeOf u := rfl
    rw [named]
    obtain ⟨src, moved, _⟩ := bind_eq_ok.mp emitted
    cases homed : lower.homeOf u with
    | some h => exact ⟨h, rfl⟩
    | none =>
      -- a constant in range that is read has a home after all
      unfold Lower.moveSrc at moved
      rw [homed] at moved
      dsimp only at moved
      split at moved
      · rename_i dst k defined
        have inside : u < prog.defSites.length := by
          by_contra beyond
          rw [prepared.prog_eq, SsaProgram.defOf, List.getElem?_eq_none (Nat.le_of_not_lt beyond)] at defined
          cases defined
        have read : (prog.flat site, u) ∈ prog.regUses :=
          mem_regUses there rfl (List.mem_append_left _ (List.mem_singleton.mpr rfl))
        obtain ⟨h, located⟩ := allocate_read prepared.allocated inside
          ⟨_, List.mem_append_left _ read, rfl⟩
        exact absurd homed (by rw [Lower.homeOf, located]; simp)
      · cases moved

theorem mem_code_of_site {site : Site} (there : (site, insn) ∈ prog.liveSites) : insn ∈ prog.code := by
  obtain ⟨_, found⟩ := mem_liveSites.mp there
  have present := List.mem_of_getElem? found
  unfold SsaProgram.insnsOf at present
  cases block : prog.blocks[site.1]? with
  | none =>
    rw [block] at present
    cases present
  | some b =>
    rw [block] at present
    exact List.mem_flatMap.mpr ⟨b, List.mem_of_getElem? block, present⟩

/-- What lowering emits for a data operation with a home is faithful exactly when the operation fits. -/
theorem dataOp_faithful_iff (produced : Produced prog) (prepared : prepare petgraph prog = .ok lower)
    (emits : lower.isLive block = true) (there : (insn, pos) ∈ lower.straightLine block)
    (data : insn.isData = true) (dst : insn.defDst = some v) (homed : lower.homeOf v = some home)
    (emitted : lower.emitInsn pos insn = .ok code) : Faithful lower insn v home code ↔ DataFits lower home insn := by
  have prepared := prepare_prepared prepared
  have regular := produced.regular
  obtain ⟨i, there, _⟩ := prepared.place regular emits there
  have pseudo : insn.isPseudo = false := by
    cases insn <;> first | rfl | cases data
  have plain := prepared.plain regular (mem_code_of_site there) dst pseudo homed
  cases insn with
  | const d k =>
    cases dst
    simp only [Lower.emitInsn, homed] at emitted
    cases emitted
    exact iff_of_true ((faithful_iff_puts (fun _ => k) fun _ _ _ => rfl).mpr fun vm => emitConst_puts plain k) trivial
  | loadImm64 d k =>
    cases dst
    simp only [Lower.emitInsn, homed] at emitted
    cases emitted
    exact iff_of_true ((faithful_iff_puts (fun _ => k) fun _ _ _ => rfl).mpr fun vm => Puts.single rfl plain rfl) trivial
  | copy d u =>
    cases dst
    simp only [Lower.emitInsn, homed] at emitted
    obtain ⟨src, moved, made⟩ := bind_eq_ok.mp emitted
    cases made
    refine iff_of_true ((faithful_iff_puts (lower.valueOf · u) fun _ _ _ => rfl).mpr
      fun vm => ?_) trivial
    rw [← moveSrc_eval moved]
    exact emitMove_puts plain
  | binOp d width op lhs rhs =>
    cases dst
    simp only [Lower.emitInsn, homed] at emitted
    have computes : (∀ endian, op ≠ .byteSwap endian) → ∀ (m : Machine) (regs : Regs) (world : World),
        execInsn m (.binOp v width op lhs rhs) (lower.env regs) world = .next ((lower.env regs).set v
          (op.apply (lower.operandValue regs lhs) (lower.operandValue regs rhs) width)) := by
      intro total m regs world
      rw [execInsn_binOp]
      refine if_neg ?_
      cases op <;> first | exact Bool.false_ne_true | exact absurd rfl (total _)
    cases op with
    | mov => exact (faithful_iff_puts _ (computes fun _ same => by cases same)).trans (emitMov_iff plain emitted)
    | neg =>
      exact iff_of_true ((faithful_iff_puts _ (computes fun _ same => by cases same)).mpr
        (emitNeg_puts plain emitted)) trivial
    | byteSwap endian => exact emitSwap_iff plain emitted
    | _ =>
      obtain ⟨src, located⟩ := prepared.lhs_home there emitted
      exact (faithful_iff_puts _ (computes fun _ same => by cases same)).trans
        (emitAlu_iff rfl plain emitted located)
  | _ => cases data

/-- `r2 = r1; r2 += r1; r0 = r2; exit`. -/
def doubled : SsaProgram where
  blocks := [{
    insns := [.const 0 0, .framePtr 1, .entryCtx 2, .copy 3 2, .binOp 4 .b64 .add (.value 3) (.value 2), .copy 5 4, .exit 5]
    live := true }]
  edges := []
  entry := 0
  defSites := [some (0, 0), some (0, 1), some (0, 2), some (0, 3), some (0, 4), some (0, 5)]

/-- The sum takes over the home of its left operand, `r0`. -/
def doubledLower : Lower where
  prog := doubled
  homes := [none, none, some 1, some 0, some 0, some 2]
  ranges := [(0, 0), (1, 1), (2, 5), (3, 5), (4, 6), (5, 7)]
  live := [true]
  layout := [0]
  endMoves := [[]]
  tramps := []
  trampOf := []

theorem dataOp_faithful_iff_doubled :
    Faithful doubledLower (.binOp 4 .b64 .add (.value 3) (.value 2)) 4 0 [.alu .b64 .add 0 (.reg 1)] := by
  have produced : Produced doubled :=
    @Produced.built searching
      [.alu .b64 .mov 2 (.reg 1), .alu .b64 .add 2 (.reg 1), .alu .b64 .mov 0 (.reg 2), .exit]
      ⟨[⟨0, 4⟩], [], 0, [0, 0, 0, 0], [0, 1, 2, 3], [0]⟩ 4 doubled searching_documented (by rfl) (by rfl)
  have prepared : prepare searching doubled = .ok doubledLower := rfl
  have there : (SsaInsn.binOp 4 .b64 .add (.value 3) (.value 2), 4) ∈ doubledLower.straightLine 0 := by decide
  have elsewhere : doubledLower.operandHome (.value 2) ≠ some 0 := by decide
  exact (dataOp_faithful_iff produced prepared rfl there rfl rfl rfl rfl).mpr fun same => absurd same elsewhere

/-! ### A constant narrowed in its own home -/

/-- `r2 = 0xFFFFFFFF00000001; w2 = w2; r0 = r2; exit`. -/
def narrowed : SsaProgram where
  blocks := [{
    insns := [.const 0 0, .framePtr 1, .entryCtx 2, .loadImm64 3 0xFFFFFFFF00000001,
      .binOp 4 .b32 .mov (.value 3) (.value 3), .copy 5 4, .exit 5]
    live := true }]
  edges := []
  entry := 0
  defSites := [some (0, 0), some (0, 1), some (0, 2), some (0, 3), some (0, 4), some (0, 5)]

/-- Both the constant and the narrowed version are at home in `r0`. -/
def narrowedLower : Lower where
  prog := narrowed
  homes := [none, none, none, some 0, some 0, some 2]
  ranges := [(0, 0), (1, 1), (2, 2), (3, 5), (4, 6), (5, 7)]
  live := [true]
  layout := [0]
  endMoves := [[]]
  tramps := []
  trampOf := []

theorem narrowed_produced : Produced narrowed :=
  @Produced.built searching
    [.loadImm64 2 0xFFFFFFFF00000001, .alu .b32 .mov 2 (.reg 2), .alu .b64 .mov 0 (.reg 2), .exit]
    ⟨[⟨0, 4⟩], [], 0, [0, 0, 0, 0], [0, 2, 3, 4], [0]⟩ 4 narrowed searching_documented (by rfl) (by rfl)

/-- The move is taken for a copy to its own home, which keeps the high half. -/
theorem narrowed_not_faithful :
    ¬∀ (petgraph : Petgraph) (prog : SsaProgram) (lower : Lower) (insns : List Insn) (block pos : Nat) (insn : SsaInsn)
      (v : SsaValue) (home : Reg) (code : List Insn), petgraph.Documented → Produced prog →
      prepare petgraph prog = .ok lower → Ssa.lower petgraph prog = .ok insns →
      lower.isLive block = true → (insn, pos) ∈ lower.straightLine block →
      insn.isData = true → insn.defDst = some v → lower.homeOf v = some home →
      lower.emitInsn pos insn = .ok code → Faithful lower insn v home code := by
  intro faithful
  have there : (SsaInsn.binOp 4 .b32 .mov (.value 3) (.value 3), 4) ∈ narrowedLower.straightLine 0 := by decide
  have lowered : Ssa.lower searching narrowed =
      .ok [.loadImm64 0 0xFFFFFFFF00000001, .alu .b64 .mov 2 (.reg 0), .alu .b64 .mov 0 (.reg 2), .exit] := rfl
  have moved := faithful searching narrowed narrowedLower _ 0 4 _ 4 0 [] searching_documented narrowed_produced rfl
    lowered rfl there rfl rfl rfl rfl
  have computes : ∀ m regs world, execInsn m (.binOp 4 .b32 .mov (.value 3) (.value 3)) (narrowedLower.env regs) world =
      .next ((narrowedLower.env regs).set 4 (AluOp.apply .mov (regs 0) (regs 0) .b32)) := fun m _ world =>
    (execInsn_binOp m world).trans (if_neg Bool.false_ne_true)
  have puts := (faithful_iff_puts _ computes).mp moved { Vm.new [] with regs := fun _ => -1 }
  have clash : (-1 : Int64) = AluOp.apply .mov (-1) (-1) .b32 :=
    congrFun (congrArg (fun result => result.1.regs) puts) 0
  exact absurd clash (by decide)

end EbpfLab.Ssa
