import EbpfLab.Library.Outcome
import EbpfLab.Verifier.Lattice
import EbpfLab.Verifier.Transfer

/-!
# What a passed check establishes

One lemma a check of the transfer functions: which register types pass it, and which bounds it proved
on the way.
-/

namespace EbpfLab.Verifier
open Isa Interp Library

variable {pc : Nat} {insn : Insn} {s s' : VerifierState} {r base : Reg} {size : MemSize}
  {offset : Int16} {src : Operand}

theorem ensureInit_ok (passed : ensureInit s r pc = .ok ()) : s.reg r ≠ .notInit := by
  unfold ensureInit at passed
  split at passed
  · cases passed
  · assumption

theorem ensureStackPtr_ok (passed : ensureStackPtr s r pc = .ok ()) :
    ∃ o, s.reg r = .stackPtr o := by
  unfold ensureStackPtr at passed
  cases held : s.reg r with
  | stackPtr o => exact ⟨o, rfl⟩
  | _ =>
    rw [held] at passed
    cases passed

/-- A stack access: the bytes it touches, aligned from the frame pointer. -/
structure StackAccess (s : VerifierState) (base : Reg) (offset : Int16) (width : Nat)
    (pc lo hi : Nat) : Prop where
  pointer : ∃ o start, s.reg base = .stackPtr o ∧
    byteRange o offset width pc = .ok (start, lo, hi) ∧
    ¬ (width > 1 ∧ (o.toInt + offset.toInt) % width ≠ 0)

theorem checkMemAccess_ok {out : Int32 × Nat × Nat}
    (passed : checkMemAccess s base offset size pc = .ok out) :
    StackAccess s base offset size.bytes pc out.2.1 out.2.2 := by
  obtain ⟨_, pointer, passed⟩ := bind_eq_ok.mp passed
  obtain ⟨o, held⟩ := ensureStackPtr_ok pointer
  simp only [held, RegType.stackOffset, Option.getD_some] at passed
  obtain ⟨⟨start, lo, hi⟩, range, passed⟩ := bind_eq_ok.mp passed
  split at passed
  · simp at passed
  · rename_i aligned
    cases passed
    exact ⟨o, start, held, range, aligned⟩

/-- The five kinds of load that pass. -/
inductive LoadAllowed (pc : Nat) (s : VerifierState) (size : MemSize) (base : Reg) (offset : Int16) :
    RegType → Prop where
  | mapValue {fd : Int64} (held : s.reg base = .mapPtr fd)
      (bounds : checkMapValueBounds s fd offset size pc = .ok ()) :
      LoadAllowed pc s size base offset (.scalar .top)
  | context {t : RegType} (held : s.reg base = .xdpMdPtr)
      (bounds : checkCtxLoad s offset size pc = .ok t) : LoadAllowed pc s size base offset t
  | packet {range : Range} (held : s.reg base = .packetPtr range)
      (bounds : checkPacketBounds s range offset size pc = .ok ()) :
      LoadAllowed pc s size base offset (.scalar .top)
  | data {range : Range} (held : s.reg base = .dataPtr range)
      (bounds : checkDataBounds s range offset size pc = .ok ()) :
      LoadAllowed pc s size base offset (.scalar .top)
  | stack {lo hi : Nat} (access : StackAccess s base offset size.bytes pc lo hi)
      (written : s.stackRangeInit lo hi = true) : LoadAllowed pc s size base offset (.scalar .top)

theorem loadType_ok {t : RegType} (passed : loadType pc s size base offset = .ok t) :
    LoadAllowed pc s size base offset t := by
  unfold loadType mapValueFd at passed
  cases held : s.reg base with
  | mapPtr fd =>
    simp only [held, ok_bind] at passed
    obtain ⟨_, bounds, passed⟩ := bind_eq_ok.mp passed
    cases passed
    exact .mapValue held bounds
  | maybeMapPtr fd =>
    simp only [held] at passed
    cases passed
  | xdpMdPtr =>
    simp only [held, ok_bind] at passed
    exact .context held passed
  | packetPtr range =>
    simp only [held, ok_bind] at passed
    obtain ⟨_, bounds, passed⟩ := bind_eq_ok.mp passed
    cases passed
    exact .packet held bounds
  | dataPtr range =>
    simp only [held, ok_bind] at passed
    obtain ⟨_, bounds, passed⟩ := bind_eq_ok.mp passed
    cases passed
    exact .data held bounds
  | _ =>
    simp only [held, ok_bind] at passed
    obtain ⟨⟨start, lo, hi⟩, access, passed⟩ := bind_eq_ok.mp passed
    simp only at passed
    split at passed
    · rename_i written
      cases passed
      exact .stack (checkMemAccess_ok access) written
    · cases passed

/-- The two kinds of store that pass, with the states they leave. -/
inductive StoreAllowed (pc : Nat) (s : VerifierState) (size : MemSize) (base : Reg)
    (offset : Int16) : VerifierState → Prop where
  | mapValue {fd : Int64} (held : s.reg base = .mapPtr fd)
      (bounds : checkMapValueBounds s fd offset size pc = .ok ()) :
      StoreAllowed pc s size base offset s
  | stack {lo hi : Nat} (access : StackAccess s base offset size.bytes pc lo hi) :
      StoreAllowed pc s size base offset (s.markStackRange lo hi)

theorem storeTransfer_ok (passed : storeTransfer pc s size base offset src = .ok s') :
    ensureOperandInit s src pc = .ok () ∧ StoreAllowed pc s size base offset s' := by
  obtain ⟨_, stored, passed⟩ := bind_eq_ok.mp passed
  refine ⟨stored, ?_⟩
  unfold mapValueFd at passed
  cases held : s.reg base with
  | mapPtr fd =>
    simp only [held, ok_bind] at passed
    obtain ⟨_, bounds, passed⟩ := bind_eq_ok.mp passed
    cases passed
    exact .mapValue held bounds
  | maybeMapPtr fd =>
    simp only [held] at passed
    cases passed
  | xdpMdPtr | packetPtr _ | dataPtr _ =>
    simp only [held, ok_bind] at passed
    cases passed
  | _ =>
    simp only [held, ok_bind] at passed
    obtain ⟨⟨start, lo, hi⟩, access, passed⟩ := bind_eq_ok.mp passed
    cases passed
    exact .stack (checkMemAccess_ok access)

/-- The checked transfers, one constructor an instruction form. -/
inductive Transferred (pc : Nat) (s : VerifierState) : Insn → VerifierState → Prop where
  | alu {width : Width} {op : AluOp} {dst : Reg} {src : Operand}
      (width_ok : checkEnd op src pc = .ok ()) (operand : ensureOperandInit s src pc = .ok ()) :
      Transferred pc s (.alu width op dst src) (s.assign dst (aluResult s width op dst src))
  | load {size : MemSize} {dst base : Reg} {offset : Int16} {t : RegType}
      (allowed : LoadAllowed pc s size base offset t) :
      Transferred pc s (.load size dst base offset) (s.assign dst t)
  | store {size : MemSize} {base : Reg} {offset : Int16} {src : Operand} {s' : VerifierState}
      (operand : ensureOperandInit s src pc = .ok ())
      (allowed : StoreAllowed pc s size base offset s') :
      Transferred pc s (.store size base offset src) s'
  | loadImm64 {dst : Reg} {imm : Int64} :
      Transferred pc s (.loadImm64 dst imm) (s.assign dst (loadImmType s imm))
  | always {width : Width} {dst : Reg} {src : Operand} {offset : Int16} :
      Transferred pc s (.jump width .always dst src offset) s
  | jump {width : Width} {op : JumpOp} {dst : Reg} {src : Operand} {offset : Int16}
      (conditional : op ≠ .always) (left : ensureInit s dst pc = .ok ())
      (operand : ensureOperandInit s src pc = .ok ()) :
      Transferred pc s (.jump width op dst src offset) s
  | call {func : UInt32} {effect : HelperSignature} {t : RegType}
      (known : builtInHelper func = some effect) (result : effect s pc = .ok t) :
      Transferred pc s (.call func) (s.setReg 0 t)
  | exit (result : ensureInit s 0 pc = .ok ()) : Transferred pc s .exit s

theorem checkAndTransfer_ok (checked : checkAndTransfer pc insn s = .ok s') :
    Transferred pc s insn s' := by
  cases insn with
  | alu width op dst src =>
    obtain ⟨_, width_ok, checked⟩ := bind_eq_ok.mp checked
    obtain ⟨_, operand, checked⟩ := bind_eq_ok.mp checked
    cases checked
    exact .alu width_ok operand
  | load size dst base offset =>
    obtain ⟨_, loaded, checked⟩ := bind_eq_ok.mp checked
    cases checked
    exact .load (loadType_ok loaded)
  | store size base offset src =>
    obtain ⟨operand, allowed⟩ := storeTransfer_ok checked
    exact .store operand allowed
  | loadImm64 dst imm =>
    cases checked
    exact .loadImm64
  | jump width op dst src offset =>
    by_cases always : op = .always
    · subst always
      cases checked
      exact .always
    · have both : (do ensureInit s dst pc; ensureOperandInit s src pc; .ok s) =
          (.ok s' : Except VerifyError VerifierState) := by
        cases op <;> first | exact absurd rfl always | exact checked
      obtain ⟨_, left, both⟩ := bind_eq_ok.mp both
      obtain ⟨_, right, both⟩ := bind_eq_ok.mp both
      cases both
      exact .jump always left right
  | call func =>
    simp only [checkAndTransfer] at checked
    cases known : builtInHelper func with
    | none =>
      rw [known] at checked
      cases checked
    | some effect =>
      rw [known] at checked
      obtain ⟨t, result, checked⟩ := bind_eq_ok.mp checked
      cases checked
      exact .call known result
  | exit =>
    obtain ⟨_, result, checked⟩ := bind_eq_ok.mp checked
    cases checked
    exact .exit result
  | unknown raw => cases checked

end EbpfLab.Verifier
