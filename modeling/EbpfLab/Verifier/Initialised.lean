import EbpfLab.Verifier.Annotation
import EbpfLab.Verifier.Frame

/-!
# Uninitialised registers

An annotated register that is not `notInit` was written on the path. The transfers check every
operand they read but two: the left-hand side of an ALU operation, and the key and value pointers of
a map helper whose descriptor is not known exactly.
-/

namespace EbpfLab.Verifier
open Isa FlowGraph Interp Library

variable {petgraph : Petgraph} {insns : List Insn} {cfg : Cfg} {config : VerifyConfig} {pc : Nat} {insn : Insn}
  {s s' : VerifierState} {r : Reg}

/-! ### Operands -/

/-- The register an instruction assigns. -/
def written : Insn → Option Reg
  | .alu _ _ dst _ | .load _ dst _ _ | .loadImm64 dst _ => some dst
  | .call _ => some 0
  | .store .. | .jump .. | .exit | .unknown _ => none

def operandRegs : Operand → List Reg
  | .reg r => [r]
  | .imm _ => []

/-- The left-hand side of an ALU operation; `mov` has none. -/
def leftHandSide (op : AluOp) (dst : Reg) : List Reg := if op = .mov then [] else [dst]

/-- The key and value pointers a map helper's signature lists after its descriptor. -/
def helperPointers (func : UInt32) : List Reg :=
  if func = 1 then [2] else if func = 2 then [2, 3] else if func = 3 then [2] else []

/-- The arguments a helper's signature lists: the map helpers take their descriptor in `r1`. -/
def helperArguments (func : UInt32) : List Reg :=
  if func = 1 ∨ func = 2 ∨ func = 3 then 1 :: helperPointers func else []

/-- The registers an instruction uses as operands. -/
def operandsOf : Insn → List Reg
  | .alu _ op dst src => leftHandSide op dst ++ operandRegs src
  | .load _ _ base _ => [base]
  | .store _ base _ src => base :: operandRegs src
  | .loadImm64 .. | .unknown _ | .jump _ .always _ _ _ => []
  | .jump _ _ dst src _ => dst :: operandRegs src
  | .call func => helperArguments func
  | .exit => [0]

/-- The operands a transfer may leave unchecked. -/
def uncheckedOperands : Insn → List Reg
  | .alu _ op dst _ => leftHandSide op dst
  | .call func => helperPointers func
  | _ => []

/-- `r` was written before step `k`: at the start, or by an earlier step of the run. -/
def WrittenBefore (insns : List Insn) (config : VerifyConfig) (vm : Vm) (k : Nat) (r : Reg) : Prop :=
  r = 10 ∨ (r = 1 ∧ config.packetLen.isSome = true) ∨
    ∃ j u insn, j < k ∧ vm.after j = some u ∧ insns[u.pc]? = some insn ∧ written insn = some r

theorem uncheckedOperands_subset (unchecked : r ∈ uncheckedOperands insn) : r ∈ operandsOf insn := by
  cases insn with
  | alu width op dst src => exact List.mem_append_left _ unchecked
  | call func =>
    simp only [uncheckedOperands, helperPointers] at unchecked
    simp only [operandsOf, helperArguments, helperPointers]
    grind
  | _ => cases unchecked

/-! ### What transfers check -/

theorem ensureOperandInit_ok {src : Operand} (passed : ensureOperandInit s src pc = .ok ())
    (used : r ∈ operandRegs src) : s.reg r ≠ .notInit := by
  cases src with
  | reg q =>
    obtain rfl : r = q := by simpa [operandRegs] using used
    exact ensureInit_ok passed
  | imm k => simp [operandRegs] at used

theorem LoadAllowed.init {size : MemSize} {base : Reg} {offset : Int16} {t : RegType}
    (allowed : LoadAllowed pc s size base offset t) : s.reg base ≠ .notInit := by
  cases allowed with
  | mapValue held _ | context held _ | packet held _ | data held _ => simp [held]
  | stack access _ =>
    obtain ⟨o, start, held, _⟩ := access.pointer
    simp [held]

theorem StoreAllowed.init {size : MemSize} {base : Reg} {offset : Int16}
    (allowed : StoreAllowed pc s size base offset s') : s.reg base ≠ .notInit := by
  cases allowed with
  | mapValue held _ => simp [held]
  | stack access =>
    obtain ⟨o, start, held, _⟩ := access.pointer
    simp [held]

theorem mapHelperEffect_init {pointers : MapDesc → List (Reg × Nat)} {result : Int64 → RegType}
    {t : RegType} (passed : mapHelperEffect pointers result s pc = .ok t) :
    s.reg 1 ≠ .notInit := by
  intro unwritten
  obtain ⟨_, fd, _⟩ := bind_eq_ok.mp passed
  simp [mapFd, unwritten] at fd

/-- A transfer checks the operands it is not known to leave unchecked. -/
theorem checked_operand (checked : checkAndTransfer pc insn s = .ok s') (used : r ∈ operandsOf insn) :
    r ∈ uncheckedOperands insn ∨ s.reg r ≠ .notInit := by
  cases checkAndTransfer_ok checked with
  | alu _ operand =>
    rcases List.mem_append.mp used with left | right
    · exact Or.inl left
    · exact Or.inr (ensureOperandInit_ok operand right)
  | load allowed =>
    rw [List.mem_singleton.mp used]
    exact Or.inr allowed.init
  | store operand allowed =>
    rcases List.mem_cons.mp used with rfl | stored
    · exact Or.inr allowed.init
    · exact Or.inr (ensureOperandInit_ok operand stored)
  | loadImm64 | always => cases used
  | @jump width op dst src offset conditional left operand =>
    have used : r ∈ dst :: operandRegs src := by
      cases op <;> first | exact absurd rfl conditional | exact used
    rcases List.mem_cons.mp used with rfl | right
    · exact Or.inr (ensureInit_ok left)
    · exact Or.inr (ensureOperandInit_ok operand right)
  | @call func effect t known result =>
    simp only [operandsOf, helperArguments] at used
    split at used
    · rename_i mapHelper
      rcases List.mem_cons.mp used with rfl | pointer
      · right
        rcases mapHelper with rfl | rfl | rfl <;>
          (cases known; exact mapHelperEffect_init result)
      · exact Or.inl pointer
    · cases used
  | exit result =>
    rw [List.mem_singleton.mp used]
    exact Or.inr (ensureInit_ok result)

/-! ### Initialised registers -/

theorem notInit_of_le (below : s ≤ s') (unwritten : s.reg r = .notInit) : s'.reg r = .notInit := by
  obtain ⟨regs, _, _, _, _⟩ := below
  have entry := regs r
  rw [unwritten] at entry
  generalize s'.reg r = t at *
  cases entry with
  | notInit => rfl
  | scalarTop written => exact absurd rfl written

/-- A transfer initialises no register but the one it writes. -/
theorem init_of_transfer (checked : checkAndTransfer pc insn s = .ok s')
    (init : s'.reg r ≠ .notInit) : s.reg r ≠ .notInit ∨ written insn = some r := by
  have assigned : ∀ dst t, s' = s.assign dst t → s.reg r ≠ .notInit ∨ dst = r := by
    rintro dst t rfl
    rw [VerifierState.reg_assign] at init
    split at init
    · rename_i here
      exact Or.inr here.1.symm
    · exact Or.inl init
  cases checkAndTransfer_ok checked with
  | alu _ _ | load _ | loadImm64 => exact (assigned _ _ rfl).imp_right (congrArg some)
  | store _ allowed =>
    cases allowed with
    | mapValue _ _ => exact Or.inl init
    | stack _ => exact Or.inl (by rwa [VerifierState.reg_markStackRange] at init)
  | always | jump _ _ _ | exit _ => exact Or.inl init
  | call _ _ =>
    rw [VerifierState.reg_setReg] at init
    split at init
    · rename_i here
      exact Or.inr (congrArg some here.symm)
    · exact Or.inl init

/-- A packet refinement moves packet pointers only. -/
theorem refinePacketEdge_reg (s : VerifierState) (op : JumpOp) (dst src : Reg) (taken : Bool)
    (r : Reg) : (refinePacketEdge s op dst src taken).reg r = s.reg r ∨
      ∃ o, s.reg r = .packetPtr o := by
  have moved : ∀ q o t, s.reg q = .packetPtr o →
      (s.setReg q t).reg r = s.reg r ∨ ∃ o, s.reg r = .packetPtr o := by
    intro q o t packet
    by_cases here : r = q
    · exact Or.inr ⟨o, here ▸ packet⟩
    · exact Or.inl (by simp [here])
  unfold refinePacketEdge
  split
  · rename_i packet
    split
    · exact moved dst _ _ packet
    · exact Or.inl rfl
  · rename_i packet _
    split
    · exact moved src _ _ packet
    · exact Or.inl rfl
  · exact Or.inl rfl

/-- Refining an edge initialises no register. -/
theorem init_of_refine {regs : Regs} (checked : checkAndTransfer pc insn s = .ok s')
    (init : (refineEdge s' (flowKind regs insn) (some insn)).reg r ≠ .notInit) :
    s'.reg r ≠ .notInit := by
  cases checkAndTransfer_ok checked with
  | @jump width op dst src offset conditional left operand =>
    intro unwritten
    apply init
    have other : r ≠ dst := by
      rintro rfl
      exact ensureInit_ok left unwritten
    unfold refineEdge
    split
    · rename_i same
      cases same
      simp [other, unwritten]
    · rename_i same
      cases same
      rcases refinePacketEdge_reg s op dst _ _ r with kept | ⟨o, packet⟩
      · exact kept.trans unwritten
      · rw [unwritten] at packet
        cases packet
    · exact unwritten
  | _ => exact init

/-! ### Runs -/

theorem WrittenBefore.later {vm : Vm} {k : Nat} (held : WrittenBefore insns config vm k r) :
    WrittenBefore insns config vm (k + 1) r := by
  rcases held with frame | context | ⟨j, u, insn, less, reached, fetched, writes⟩
  · exact Or.inl frame
  · exact Or.inr (Or.inl context)
  · exact Or.inr (Or.inr ⟨j, u, insn, by omega, reached, fetched, writes⟩)

theorem entryState_init (init : (entryState config).reg r ≠ .notInit) (vm : Vm) :
    WrittenBefore insns config vm 0 r := by
  rw [reg_entryState] at init
  split at init
  · rename_i frame
    exact Or.inl frame
  · split at init
    · rename_i context
      exact Or.inr (Or.inl context)
    · exact absurd rfl init

/-- The registers an annotation calls initialised were written on the path. -/
theorem initialised_at {targets : List (Option Nat)} {states : Nat → Option VerifierState}
    (built : Built insns cfg targets) (fixed : PostFixpoint insns cfg config states) {vm u : Vm}
    {k : Nat} (loaded : vm.Loaded insns) (starts : vm.pc = 0) (reached : vm.after k = some u)
    (inside : u.pc < insns.length) :
    ∃ s, At insns cfg states u.pc s ∧
      ∀ r, s.reg r ≠ .notInit → WrittenBefore insns config vm k r := by
  apply annotated_run fixed built loaded starts
    (fun k s _ => ∀ r, s.reg r ≠ .notInit → WrittenBefore insns config vm k r) ?_ ?_ ?_ reached inside
  · intro r init
    exact entryState_init init vm
  · intro k s s' u below held r init
    exact held r fun unwritten => init (notInit_of_le below unwritten)
  · intro k s s' u u' insn reached _ held fetched checked _ r init
    rcases init_of_transfer checked (init_of_refine checked init) with before | writes
    · exact (held r before).later
    · exact Or.inr (Or.inr ⟨k, u, insn, Nat.lt_succ_self k, reached, fetched, writes⟩)

/-- An accepted program reads only written registers exactly when the operands its transfers leave
unchecked are written. -/
theorem reads_written_iff (documented : petgraph.Documented) (accepted : buildCfg petgraph insns = .ok cfg)
    (accepts : Accepts petgraph insns cfg config) (setup : Setup config) :
    (∀ k u insn, (setup.vm insns).after k = some u → insns[u.pc]? = some insn →
      ∀ r ∈ operandsOf insn, WrittenBefore insns config (setup.vm insns) k r) ↔
    (∀ k u insn, (setup.vm insns).after k = some u → insns[u.pc]? = some insn →
      ∀ r ∈ uncheckedOperands insn, WrittenBefore insns config (setup.vm insns) k r) := by
  obtain ⟨targets, ordered⟩ := buildCfg_ordered documented accepted
  have built := ordered.toBuilt
  obtain ⟨states, fixed⟩ := accepts.postFixpoint ordered
  constructor
  · intro reads k u insn reached fetched r unchecked
    exact reads k u insn reached fetched r (uncheckedOperands_subset unchecked)
  · intro written k u insn reached fetched r used
    obtain ⟨s, annotated, initialised⟩ := initialised_at built fixed (setup.loaded insns)
      (setup.pc_vm insns) reached (List.getElem?_eq_some_iff.mp fetched).1
    obtain ⟨s', checked⟩ := annotated.checked fixed fetched
    rcases checked_operand checked used with unchecked | init
    · exact written k u insn reached fetched r unchecked
    · exact initialised r init

theorem reads_written_iff_counter :
    (∀ k u insn, (Setup.bare.vm counter).after k = some u → counter[u.pc]? = some insn →
      ∀ r ∈ operandsOf insn, WrittenBefore counter .default (Setup.bare.vm counter) k r) ↔
    (∀ k u insn, (Setup.bare.vm counter).after k = some u → counter[u.pc]? = some insn →
      ∀ r ∈ uncheckedOperands insn,
        WrittenBefore counter .default (Setup.bare.vm counter) k r) := by
  have accepted : buildCfg searching counter = .ok counterCfg := by decide +kernel
  have accepts : Accepts searching counter counterCfg .default := ⟨20, ⟨4⟩, by decide +kernel⟩
  exact reads_written_iff searching_documented accepted accepts Setup.bare

/-- Adds to a register nothing wrote: `r0 += 1; exit`. -/
def unwrittenSum : List Insn := [.alu .b64 .add 0 (.imm 1), .exit]

def unwrittenSumCfg : Cfg :=
  { blocks := [⟨0, 2⟩], edges := [], entry := 0, blockOfPc := [0, 0], slotOf := [0, 1], rpo := [0] }

/-- The verifier accepts it, yet its first step reads `r0`. -/
theorem unwrittenSum_reads :
    buildCfg searching unwrittenSum = .ok unwrittenSumCfg ∧ Accepts searching unwrittenSum unwrittenSumCfg .default ∧
      ¬ ∀ k u insn, (Setup.bare.vm unwrittenSum).after k = some u → unwrittenSum[u.pc]? = some insn →
        ∀ r ∈ operandsOf insn,
          WrittenBefore unwrittenSum .default (Setup.bare.vm unwrittenSum) k r := by
  refine ⟨by decide +kernel, ⟨20, ⟨2⟩, by decide +kernel⟩, ?_⟩
  intro reads
  rcases reads 0 _ (.alu .b64 .add 0 (.imm 1)) rfl rfl 0 (by decide) with
    frame | context | ⟨j, _, _, early, _⟩
  · cases frame
  · cases context.1
  · exact absurd early (Nat.not_lt_zero j)

end EbpfLab.Verifier
