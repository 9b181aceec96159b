import EbpfLab.Verifier.Initialised
import EbpfLab.Verifier.MemorySafe
import EbpfLab.Verifier.RangeKept

/-!
# Steps keep the model

The transfers of ALU operations, branches and helper calls, each under the condition that the step
avoids the corners where the abstract result need not contain the concrete one.
-/

namespace EbpfLab.Verifier
open Isa FlowGraph Interp Library

variable {config : VerifyConfig} {setup : Setup config} {s s' : VerifierState} {u u' : Vm} {r : Reg}
  {t : RegType} {v : Int64} {window window' : Int64 → Prop} {pc : Nat}

/-! ### ALU operations -/

/-- The operations whose range is empty when the left-hand side was never written. -/
def strict : AluOp → Bool
  | .add | .and | .or | .xor | .lsh | .rsh | .arsh => true
  | _ => false

/-- The range of the left-hand side, for the operations that read it. -/
def leftRange (s : VerifierState) (op : AluOp) (dst : Reg) : Range :=
  if strict op then (s.reg dst).scalarRange else .top

/-- The left-hand side is written, and the ranges of the operands keep every result. -/
structure AluAgrees (s : VerifierState) (width : Width) (op : AluOp) (dst : Reg) (src : Operand) :
    Prop where
  left : strict op = true → s.reg dst ≠ .notInit
  result : Range.Keeps width op (leftRange s op dst) (operandRange s src)

theorem contains_operandRange {src : Operand} (models : Models config s u)
    (operand : ensureOperandInit s src pc = .ok ()) :
    (operandRange s src).contains (u.regs.operand src) := by
  cases src with
  | imm k => exact Range.contains_exact.mpr rfl
  | reg q => exact (models.regs q).scalarRange (ensureInit_ok operand)

theorem exactOperand_eq {src : Operand} {k : Int64} (models : Models config s u)
    (exact_eq : exactOperand s src = some k) : u.regs.operand src = k := by
  cases src with
  | imm i => exact Option.some.inj exact_eq
  | reg q =>
    simp only [exactOperand] at exact_eq
    split at exact_eq
    · rename_i lo hi held
      split at exact_eq
      · rename_i same
        cases exact_eq
        subst same
        have value := models.regs q
        rw [held] at value
        exact Range.contains_exact.mp value
      · cases exact_eq
    · cases exact_eq

theorem resultRange_left {width : Width} {op : AluOp} (free : strict op = false) (r r' l : Range) :
    resultRange width op l r = resultRange width op r' r := by
  cases op <;> first | rfl | cases free

/-- The range of a scalar result has the value the machine computes. -/
theorem contains_result {width : Width} {op : AluOp} {dst : Reg} {src : Operand}
    (models : Models config s u) (operand : ensureOperandInit s src pc = .ok ())
    (agrees : AluAgrees s width op dst src) :
    (resultRange width op (s.reg dst).scalarRange (operandRange s src)).contains
      (op.apply (u.regs dst) (u.regs.operand src) width) := by
  have right := contains_operandRange models operand
  have left : (leftRange s op dst).contains (u.regs dst) := by
    unfold leftRange
    split
    · rename_i needed
      exact (models.regs dst).scalarRange (agrees.left needed)
    · trivial
  have same : resultRange width op (s.reg dst).scalarRange (operandRange s src) =
      resultRange width op (leftRange s op dst) (operandRange s src) := by
    unfold leftRange
    split
    · rfl
    · rename_i free
      exact resultRange_left (by simpa using free) _ _ _
  rw [same]
  exact (Range.sound_iff_keeps (Range.wellFormed_of_contains left) (Range.wellFormed_of_contains right)).mpr
    agrees.result _ _ left right

theorem shiftStack_sub {o k k' : Int32} (negated : checkedI32 (-k.toInt) = some k') :
    shiftStack .sub o k = shiftStack .add o k' := by
  unfold shiftStack
  rw [negated]

/-- Adding or subtracting a constant shifts a stack pointer exactly. -/
theorem holds_shiftStack {op : AluOp} {o k : Int32} {lhs rhs : Int64}
    (shift : op = .add ∨ op = .sub) (pointer : lhs.toInt = 0x10000 + o.toInt)
    (constant : rhs.toInt = k.toInt) :
    Holds window r (op.apply lhs rhs .b64) (shiftStack op o k) := by
  have low := k.le_toInt
  have high := k.toInt_lt
  have shifted : ∀ k' : Int32, ∀ x : Int64, x.toInt = 0x10000 + o.toInt + k'.toInt →
      Holds window r x (shiftStack .add o k') := by
    intro k' x value
    unfold shiftStack
    dsimp only [Option.bind_some]
    cases fits : checkedI32 (o.toInt + k'.toInt) with
    | none => trivial
    | some o' =>
      have := checkedI32_eq_some.mp fits
      exact show x.toInt = 0x10000 + o'.toInt by omega
  have oLow := o.le_toInt
  have oHigh := o.toInt_lt
  rcases shift with rfl | rfl
  · apply shifted
    rw [show AluOp.apply .add lhs rhs .b64 = lhs + rhs from rfl, toInt_add (by omega) (by omega)]
    omega
  · cases negated : checkedI32 (-k.toInt) with
    | none =>
      unfold shiftStack
      rw [negated]
      trivial
    | some k' =>
      have := checkedI32_eq_some.mp negated
      rw [shiftStack_sub negated]
      apply shifted
      rw [show AluOp.apply .sub lhs rhs .b64 = lhs - rhs from rfl, toInt_sub (by omega) (by omega)]
      omega

/-- Adding or subtracting a constant shifts an offset range. -/
theorem contains_shiftRange {op : AluOp} {range : Range} {lhs k b : Int64}
    (shift : op = .add ∨ op = .sub) (held : range.contains (lhs - b)) :
    (shiftRange op range k).contains (op.apply lhs k .b64 - b) := by
  have constant : (Range.exact k).contains k := Range.contains_exact.mpr rfl
  rcases shift with rfl | rfl
  · have moved := Range.contains_add held constant
    rwa [show lhs - b + k = AluOp.apply .add lhs k .b64 - b by
      rw [show AluOp.apply .add lhs k .b64 = lhs + k from rfl]; grind] at moved
  · have moved := Range.contains_sub held constant
    rwa [show lhs - b - k = AluOp.apply .sub lhs k .b64 - b by
      rw [show AluOp.apply .sub lhs k .b64 = lhs - k from rfl]; grind] at moved

/-- The pointer types a move copies do not mention the register. -/
theorem Holds.copied {q : Reg} (held : Holds window q v t) (free : ∀ fd, t ≠ .mapPtr fd)
    (free' : ∀ fd, t ≠ .maybeMapPtr fd) : Holds window r v t := by
  cases t with
  | mapPtr fd => exact absurd rfl (free fd)
  | maybeMapPtr fd => exact absurd rfl (free' fd)
  | _ => exact held

/-- Pointer arithmetic and pointer moves keep the pointer. -/
theorem holds_ptrAlu {op : AluOp} {dst : Reg} {src : Operand} (models : Models config s u)
    (transfer : ptrAluTransfer s op dst src = some t) :
    Holds (Window config u.memory.mapScratch) dst (op.apply (u.regs dst) (u.regs.operand src) .b64)
      t := by
  have shifted : op = .add ∨ op = .sub → Holds (Window config u.memory.mapScratch) dst
      (op.apply (u.regs dst) (u.regs.operand src) .b64) t := by
    intro shift
    have pointer := models.regs dst
    cases held : s.reg dst with
    | stackPtr o =>
      have moved : ((exactOperand s src).bind fun k => checkedI32 k.toInt).map (shiftStack op o) =
          some t := by
        rw [← transfer]
        rcases shift with rfl | rfl <;> (unfold ptrAluTransfer; rw [held])
      rw [held] at pointer
      obtain ⟨k, constant, rfl⟩ := Option.map_eq_some_iff.mp moved
      obtain ⟨k64, exact_eq, narrow⟩ := Option.bind_eq_some_iff.mp constant
      refine holds_shiftStack shift pointer ?_
      rw [exactOperand_eq models exact_eq, checkedI32_eq_some.mp narrow]
    | packetPtr range =>
      have moved : (exactOperand s src).map (fun k => .packetPtr (shiftRange op range k)) =
          some t := by
        rw [← transfer]
        rcases shift with rfl | rfl <;> (unfold ptrAluTransfer; rw [held])
      rw [held] at pointer
      obtain ⟨k, exact_eq, rfl⟩ := Option.map_eq_some_iff.mp moved
      rw [exactOperand_eq models exact_eq]
      exact contains_shiftRange shift pointer
    | dataPtr range =>
      have moved : (exactOperand s src).map (fun k => .dataPtr (shiftRange op range k)) =
          some t := by
        rw [← transfer]
        rcases shift with rfl | rfl <;> (unfold ptrAluTransfer; rw [held])
      rw [held] at pointer
      obtain ⟨k, exact_eq, rfl⟩ := Option.map_eq_some_iff.mp moved
      rw [exactOperand_eq models exact_eq]
      exact contains_shiftRange shift pointer
    | _ =>
      have unmoved : (none : Option RegType) = some t := by
        rw [← transfer]
        rcases shift with rfl | rfl <;> (unfold ptrAluTransfer; rw [held])
      cases unmoved
  cases op with
  | add => exact shifted (Or.inl rfl)
  | sub => exact shifted (Or.inr rfl)
  | mov =>
    cases src with
    | imm k => cases transfer
    | reg q =>
      unfold ptrAluTransfer at transfer
      dsimp only at transfer
      split at transfer
      · cases transfer
      · have moved := models.regs q
        cases held : s.reg q <;> rw [held] at transfer moved <;> cases transfer
        all_goals exact moved.copied (by simp) (by simp)
  | _ => cases transfer

/-- The assigned register holds its new type. -/
theorem alu_holds {width : Width} {op : AluOp} {dst : Reg} {src : Operand}
    (models : Models config s u) (operand : ensureOperandInit s src pc = .ok ())
    (agrees : AluAgrees s width op dst src) :
    Holds (Window config u.memory.mapScratch) dst (op.apply (u.regs dst) (u.regs.operand src) width)
      (aluResult s width op dst src) := by
  have scalar := contains_result models operand agrees
  cases width with
  | b32 => exact scalar
  | b64 =>
    simp only [aluResult]
    cases transfer : ptrAluTransfer s op dst src with
    | some t => exact holds_ptrAlu models transfer
    | none => exact scalar

/-! ### Branches -/

/-- The comparison came out as the signed 64-bit one the refinement takes it for. -/
structure JumpAgrees (s : VerifierState) (u : Vm) (width : Width) (op : JumpOp) (dst : Reg)
    (src : Operand) : Prop where
  scalar : ∀ k, src = .imm k → (∀ fd, s.reg dst ≠ .mapPtr fd) → (∀ fd, s.reg dst ≠ .maybeMapPtr fd) →
    op ≠ .set → jumpTaken op (u.regs dst) k.toInt64 width = Range.signedTaken op (u.regs dst) k.toInt64
  packet : ∀ q, src = .reg q →
    ((∃ o, s.reg dst = .packetPtr o) ∧ (exactPacketOffset (s.reg q)).isSome = true ∨
      (∃ o, s.reg q = .packetPtr o) ∧ (exactPacketOffset (s.reg dst)).isSome = true) →
    op ≠ .set → jumpTaken op (u.regs dst) (u.regs q) width =
      Range.signedTaken op (u.regs dst - packetBase) (u.regs q - packetBase)

theorem Models.setReg {dst : Reg} (models : Models config s u)
    (held : Holds (Window config u.memory.mapScratch) dst (u.regs dst) t) :
    Models config (s.setReg dst t) u := by
  refine ⟨?_, models.stack, models.maps, models.packetLen, models.dataLen⟩
  intro r
  rw [VerifierState.reg_setReg]
  split
  · rename_i here
    rw [here]
    exact held
  · exact models.regs r

/-- Comparing a nullable map pointer with zero tells which it is, at either width. -/
theorem jumpTaken_null (width : Width) (v : Int64) (pointer : v = 0 ∨ v = mapScratchBase) :
    jumpTaken .eq v 0 width = decide (v = 0) ∧ jumpTaken .ne v 0 width = !decide (v = 0) := by
  rcases pointer with rfl | rfl <;> cases width <;> decide

/-- What refining a nullable map pointer by a comparison the machine made yields. -/
theorem refineReg_maybe {width : Width} {op : JumpOp} {k v : Int64} {fd : Int64}
    (pointer : v = 0 ∨ v = mapScratchBase) :
    let refined := refineReg (.maybeMapPtr fd) op k (jumpTaken op v k width)
    v = 0 ∧ refined = .scalar (.exact 0) ∨ v ≠ 0 ∧ refined = .mapPtr fd ∨
      refined = .maybeMapPtr fd := by
  have null := jumpTaken_null width v pointer
  by_cases compared : (op = .eq ∨ op = .ne) ∧ k = 0
  · obtain ⟨which, rfl⟩ := compared
    by_cases empty : v = 0
    · refine .inl ⟨empty, ?_⟩
      rcases which with rfl | rfl <;> simp [refineReg, null, decide_eq_true empty]
    · refine .inr (.inl ⟨empty, ?_⟩)
      rcases which with rfl | rfl <;> simp [refineReg, null, empty]
  · refine .inr (.inr ?_)
    cases op <;> simp_all [refineReg]

theorem refineReg_holds {width : Width} {op : JumpOp} {dst : Reg} {k : Int64} {v : Int64}
    (written : t ≠ .notInit) (held : Holds window dst v t)
    (agrees : (∀ fd, t ≠ .mapPtr fd) → (∀ fd, t ≠ .maybeMapPtr fd) → op ≠ .set →
      jumpTaken op v k width = Range.signedTaken op v k) :
    Holds window dst v (refineReg t op k (jumpTaken op v k width)) := by
  have scalar : (∀ fd, t ≠ .mapPtr fd) → (∀ fd, t ≠ .maybeMapPtr fd) →
      (t.scalarRange.refine op k (jumpTaken op v k width)).contains v := by
    intro free free'
    exact Range.contains_refine (held.scalarRange written)
      fun compared => (agrees free free' compared).symm
  cases t with
  | notInit => exact absurd rfl written
  | mapPtr fd => exact held
  | maybeMapPtr fd =>
    obtain ⟨zero, value⟩ := held
    rcases refineReg_maybe (value.imp_right And.left) with ⟨empty, refined⟩ | ⟨found, refined⟩ | kept
    · rw [refined]
      exact Range.contains_exact.mpr empty
    · rw [refined]
      exact ⟨zero, value.resolve_left found⟩
    · rw [kept]
      exact ⟨zero, value⟩
  | _ => exact scalar (by simp) (by simp)

/-- Swapping the sides of a comparison. -/
theorem signedTaken_swap {op swapped : JumpOp} (swap : swapOp op = some swapped) (a b : Int64) :
    Range.signedTaken swapped b a = Range.signedTaken op a b := by
  cases op <;> cases swap <;>
    simp [Range.signedTaken, Range.signedOp, jumpTaken, jumpTaken64, BEq.comm, bne, ge_iff_le,
      gt_iff_lt]

theorem exactPacketOffset_contains {k v : Int64} (held : t.scalarRange.contains v)
    (constant : exactPacketOffset t = some k) : v - packetBase = k := by
  unfold exactPacketOffset at constant
  split at constant
  · split at constant
    · rename_i same
      subst same
      have value := Range.contains_exact.mp held
      have difference := checkedI64_eq_some.mp constant
      have low := toInt_lower k
      have high := toInt_upper k
      rw [← Int64.toInt_inj, value, toInt_sub (by omega) (by omega)]
      exact difference.symm
    · cases constant
  · cases constant

theorem exactPacketOffset_ne_notInit {k : Int64} (constant : exactPacketOffset t = some k) :
    t ≠ .notInit := by
  rintro rfl
  cases constant

theorem exactPacketOffset_eq {q : Reg} {k : Int64} (models : Models config s u)
    (exact_eq : exactPacketOffset (s.reg q) = some k) : u.regs q - packetBase = k :=
  exactPacketOffset_contains ((models.regs q).scalarRange (exactPacketOffset_ne_notInit exact_eq))
    exact_eq

theorem refinePacketEdge_models {width : Width} {op : JumpOp} {dst q : Reg}
    (models : Models config s u) (agrees : JumpAgrees s u width op dst (.reg q)) :
    Models config (refinePacketEdge s op dst q (jumpTaken op (u.regs dst) (u.regs q) width)) u := by
  have compared := agrees.packet q rfl
  unfold refinePacketEdge
  split
  · rename_i o held
    split
    · rename_i k constant
      refine models.setReg ?_
      have pointer := models.regs dst
      rw [held] at pointer
      refine Range.contains_refine pointer fun ordered => ?_
      rw [compared (Or.inl ⟨⟨o, held⟩, by simp [constant]⟩) ordered,
        exactPacketOffset_eq models constant]
    · exact models
  · rename_i o held _
    split
    · rename_i k swapped constant swap
      refine models.setReg ?_
      have pointer := models.regs q
      rw [held] at pointer
      refine Range.contains_refine pointer fun _ => ?_
      have ordered : op ≠ .set := by
        rintro rfl
        cases swap
      rw [compared (Or.inr ⟨⟨o, held⟩, by simp [constant]⟩) ordered,
        exactPacketOffset_eq models constant, signedTaken_swap swap]
    · exact models
  · exact models

/-- Refining along the edge a jump takes keeps the model. -/
theorem refineEdge_models {width : Width} {op : JumpOp} {dst : Reg} {src : Operand} {offset : Int16}
    (models : Models config s u) (left : s.reg dst ≠ .notInit)
    (agrees : JumpAgrees s u width op dst src) :
    Models config (refineEdge s (flowKind u.regs (.jump width op dst src offset))
      (some (.jump width op dst src offset))) u := by
  by_cases always : op = .always
  · subst always
    exact models
  · have kind : edgeTaken (flowKind u.regs (.jump width op dst src offset)) =
        some (jumpTaken op (u.regs dst) (u.regs.operand src) width) := by
      have flow : flowKind u.regs (.jump width op dst src offset) =
          if jumpTaken op (u.regs dst) (u.regs.operand src) width then .branchTrue
          else .branchFalse := by
        cases op <;> first | rfl | exact absurd rfl always
      rw [flow]
      cases jumpTaken op (u.regs dst) (u.regs.operand src) width <;> rfl
    cases src with
    | imm k =>
      simp only [refineEdge, kind]
      exact models.setReg (refineReg_holds left (models.regs dst) (agrees.scalar k rfl))
    | reg q =>
      simp only [refineEdge, kind]
      exact refinePacketEdge_models models agrees

end EbpfLab.Verifier
