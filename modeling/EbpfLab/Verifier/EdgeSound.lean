import EbpfLab.Verifier.StepSound

/-!
# Refinement against the jumps of the machine

When the state refined along an edge still describes the registers that took it. The refinement
reads every comparison as the signed one of 64-bit values, so it is right exactly where the
comparison the machine made came out the same way.
-/

namespace EbpfLab.Verifier
open Isa FlowGraph Interp

variable {r : Range} {v k x y : Int64} {op : JumpOp} {taken : Bool} {width : Width}

namespace Range

theorem normalize_not (op : JumpOp) (taken : Bool) :
    normalize op (!taken) = ((normalize op taken).1, !(normalize op taken).2) := by
  cases op <;> rfl

theorem normalize_agrees_iff :
    signedTaken (normalize op taken).1 v k = (normalize op taken).2 ↔ signedTaken op v k = taken := by
  refine ⟨fun normal => ?_, normalize_agrees⟩
  by_contra differs
  have other := normalize_agrees (Bool.eq_not.mpr differs)
  rw [normalize_not] at other
  rw [normal] at other
  simp at other

/-- Whether a jump compares its operands. -/
abbrev Compares (op : JumpOp) : Prop := op ≠ .always ∧ op ≠ .call ∧ op ≠ .exit

theorem contains_refine_iff (compares : Compares op) (held : r.contains v)
    (same : v = k → op ≠ .set → signedTaken op v k = taken) :
    (r.refine op k taken).contains v ↔ op = .set ∨ signedTaken op v k = taken := by
  refine ⟨fun inside => ?_, fun agrees => contains_refine held fun ordered =>
    agrees.resolve_left ordered⟩
  by_contra differs
  obtain ⟨ordered, differs⟩ := not_or.mp differs
  have apart : v ≠ k := fun equal => differs (same equal ordered)
  have apart : v.toInt ≠ k.toInt := fun equal => apart (Int64.toInt_inj.mp equal)
  have differs := mt normalize_agrees_iff.mp differs
  have lowest := toInt_lower v
  have highest := toInt_upper v
  have lowest' := toInt_lower k
  have highest' := toInt_upper k
  -- a saturated bound admits `k` itself, and nothing else wrong
  have below : v.toInt ≤ (saturatingSub k 1).toInt → v.toInt < k.toInt := by
    rw [saturatingSub, saturatingI64_toInt, show (1 : Int64).toInt = 1 from rfl]
    split <;> omega
  have above : (saturatingAdd k 1).toInt ≤ v.toInt → k.toInt < v.toInt := by
    rw [saturatingAdd, saturatingI64_toInt, show (1 : Int64).toInt = 1 from rfl]
    split <;> omega
  have kept : (normalize op taken).1 ∈ [JumpOp.eq, .lt, .le, .slt, .sle] := by
    obtain ⟨always, call, exit⟩ := compares
    cases op <;> simp_all [normalize]
  unfold refine at inside
  generalize normalize op taken = normal at inside differs kept
  obtain ⟨op', taken'⟩ := normal
  have unequal : v ≠ k := fun equal => apart (congrArg _ equal)
  simp only [List.mem_cons, List.not_mem_nil, or_false] at kept
  rcases kept with rfl | rfl | rfl | rfl | rfl <;> cases taken' <;>
    simp only [contains_meet, held, true_and, contains_exact, contains_interval, signedTaken_eq,
      signedTaken_lt, signedTaken_le, signedTaken_slt, signedTaken_sle, decide_eq_true_eq,
      decide_eq_false_iff_not, Decidable.not_not] at inside differs
  · exact unequal differs
  · exact unequal inside
  · omega
  · exact differs (below inside.2)
  · exact absurd (above inside.1) (by omega)
  · exact differs inside.2
  · omega
  · exact differs (below inside.2)
  · exact absurd (above inside.1) (by omega)
  · exact differs inside.2

end Range

/-- A comparison of a value with itself does not depend on how it is read. -/
theorem jumpTaken_self (ordered : op ≠ .set) :
    Range.signedTaken op x x = jumpTaken op y y width := by
  cases width <;> cases op <;>
    simp_all [Range.signedTaken, Range.signedOp, jumpTaken, jumpTaken64, jumpTaken32]

/-! ### Described registers -/

/-- A value of the type. -/
def Denotes (v : Int64) : RegType → Prop
  | .notInit => True
  | .scalar range => range.contains v
  | .stackPtr o => v.toInt = stackBase.toInt + o.toInt
  | .mapPtr _ => v = mapScratchBase
  | .maybeMapPtr _ => v = 0 ∨ v = mapScratchBase
  | .xdpMdPtr => v = xdpMdBase
  | .packetPtr range => range.contains (v - packetBase)
  | .dataPtr range => range.contains (v - rodataBase)

instance (v : Int64) (t : RegType) : Decidable (Denotes v t) := by
  cases t <;> unfold Denotes <;> infer_instance

/-- The state describes a register file and the lengths of the packet and the staged data. -/
structure Describes (s : VerifierState) (regs : Regs) (packetLen dataLen : Option Nat) : Prop where
  regs : ∀ r, Denotes (regs r) (s.reg r)
  packetLen : s.packetLen = none ∨ s.packetLen = packetLen
  dataLen : s.dataLen = none ∨ s.dataLen = dataLen

variable {s : VerifierState} {regs : Regs} {packetLen dataLen : Option Nat} {t : RegType}
  {dst q : Reg}

theorem Denotes.scalarRange (held : Denotes v t) (written : t ≠ .notInit) :
    t.scalarRange.contains v := by
  cases t with
  | notInit => exact absurd rfl written
  | scalar range => exact held
  | _ => trivial

theorem Describes.setReg_iff (described : Describes s regs packetLen dataLen) :
    Describes (s.setReg dst t) regs packetLen dataLen ↔ Denotes (regs dst) t := by
  constructor
  · intro after
    simpa using after.regs dst
  · intro held
    refine ⟨fun r => ?_, described.packetLen, described.dataLen⟩
    rw [VerifierState.reg_setReg]
    split
    · rename_i here
      rw [here]
      exact held
    · exact described.regs r

/-! ### Comparisons with an immediate -/

/-- A pointer into a map value, proven or nullable: refinement knows how to read it. -/
def RegType.IsMapPtr : RegType → Prop
  | .mapPtr _ | .maybeMapPtr _ => True
  | _ => False

theorem refineReg_mapPtr (pointer : t.IsMapPtr) (held : Denotes v t) :
    Denotes v (refineReg t op k (jumpTaken op v k width)) := by
  cases t with
  | mapPtr fd => exact held
  | maybeMapPtr fd =>
    rcases refineReg_maybe held with ⟨empty, refined⟩ | ⟨found, refined⟩ | kept
    · rw [refined]
      exact Range.contains_exact.mpr empty
    · rw [refined]
      exact held.resolve_left found
    · rw [kept]
      exact held
  | _ => exact absurd pointer id

theorem refineReg_iff (compares : Range.Compares op) (held : Denotes v t) (free : ¬t.IsMapPtr) :
    Denotes v (refineReg t op k (jumpTaken op v k width)) ↔
      t ≠ .notInit ∧ (op = .set ∨ Range.signedTaken op v k = jumpTaken op v k width) := by
  have scalar : refineReg t op k (jumpTaken op v k width) =
      .scalar (t.scalarRange.refine op k (jumpTaken op v k width)) := by
    cases t <;> first | rfl | exact absurd trivial free
  rw [scalar]
  by_cases written : t = .notInit
  · subst written
    refine iff_of_false ?_ fun kept => kept.1 rfl
    show ¬(Range.bottom.refine op k _).contains v
    unfold Range.refine
    split <;> exact id
  · rw [and_iff_right written]
    exact Range.contains_refine_iff compares (held.scalarRange written) fun equal ordered =>
      equal ▸ jumpTaken_self ordered

/-! ### Comparisons of a packet pointer -/

theorem Denotes.exactPacketOffset (held : Denotes v t) (constant : exactPacketOffset t = some k) :
    v - packetBase = k :=
  exactPacketOffset_contains (held.scalarRange (exactPacketOffset_ne_notInit constant)) constant

/-- A packet pointer compared with an exact scalar, on either side. -/
def PacketCheck (t t' : RegType) : Prop :=
  (∃ o, t = .packetPtr o) ∧ (exactPacketOffset t').isSome = true ∨
    (∃ o, t' = .packetPtr o) ∧ (exactPacketOffset t).isSome = true

theorem refinePacketEdge_iff (compares : Range.Compares op)
    (described : Describes s regs packetLen dataLen) :
    Describes (refinePacketEdge s op dst q (jumpTaken op (regs dst) (regs q) width)) regs packetLen
        dataLen ↔
      (PacketCheck (s.reg dst) (s.reg q) → op = .set ∨
        Range.signedTaken op (regs dst - packetBase) (regs q - packetBase) =
          jumpTaken op (regs dst) (regs q) width) := by
  have pointer := described.regs dst
  have pointer' := described.regs q
  -- at equal offsets the two values are equal, and the comparison does not depend on its reading
  have same : regs dst - packetBase = regs q - packetBase → op ≠ .set →
      Range.signedTaken op (regs dst - packetBase) (regs q - packetBase) =
        jumpTaken op (regs dst) (regs q) width := by
    intro equal ordered
    have values : regs dst = regs q := by grind
    rw [values]
    exact jumpTaken_self ordered
  unfold refinePacketEdge
  split
  · rename_i o held
    rw [held] at pointer ⊢
    split
    · rename_i k constant
      have offset := pointer'.exactPacketOffset constant
      have check : PacketCheck (.packetPtr o) (s.reg q) := .inl ⟨⟨o, rfl⟩, by simp [constant]⟩
      rw [described.setReg_iff, imp_iff_right check, ← offset]
      exact Range.contains_refine_iff compares pointer same
    · rename_i inexact
      refine iff_of_true described fun check => ?_
      rcases check with ⟨_, constant⟩ | ⟨_, constant⟩
      · simp [inexact] at constant
      · cases constant
  · rename_i o held other
    rw [held] at pointer' ⊢
    split
    · rename_i k swapped constant swap
      have offset := pointer.exactPacketOffset constant
      have ordered : op ≠ .set := by
        rintro rfl
        cases swap
      have swaps : Range.Compares swapped ∧ swapped ≠ .set := by
        cases op <;> cases swap <;> simp [Range.Compares]
      have check : PacketCheck (s.reg dst) (.packetPtr o) := .inr ⟨⟨o, rfl⟩, by simp [constant]⟩
      rw [described.setReg_iff, imp_iff_right check, ← signedTaken_swap swap, ← offset,
        or_iff_right ordered]
      refine (Range.contains_refine_iff swaps.1 pointer' fun equal _ => ?_).trans
        (or_iff_right swaps.2)
      rw [signedTaken_swap swap]
      exact same equal.symm ordered
    · rename_i inexact
      refine iff_of_true described fun check => ?_
      rcases check with ⟨⟨o', here⟩, _⟩ | ⟨_, constant⟩
      · exact absurd here (other o')
      · obtain ⟨k, constant⟩ := Option.isSome_iff_exists.mp constant
        have unordered : op = .set := by
          by_contra ordered
          obtain ⟨always, call, exit⟩ := compares
          cases op <;> simp_all [swapOp]
        exact .inl unordered
  · rename_i left right
    refine iff_of_true described fun check => ?_
    rcases check with ⟨⟨o, here⟩, _⟩ | ⟨⟨o, here⟩, _⟩
    · exact absurd here (left o)
    · exact absurd here (right o)

/-! ### Edges -/

/-- The comparison comes out as the signed 64-bit one the refinement takes it for, wherever the
refinement draws a conclusion from it. -/
def ReadRight (s : VerifierState) (regs : Regs) (width : Width) (op : JumpOp) (dst : Reg) :
    Operand → Prop
  | .imm k => (s.reg dst).IsMapPtr ∨ s.reg dst ≠ .notInit ∧ (op = .set ∨
      Range.signedTaken op (regs dst) k.toInt64 = jumpTaken op (regs dst) k.toInt64 width)
  | .reg q => PacketCheck (s.reg dst) (s.reg q) → op = .set ∨
      Range.signedTaken op (regs dst - packetBase) (regs q - packetBase) =
        jumpTaken op (regs dst) (regs q) width

/-- Along the edge a jump takes, the refined state describes the registers exactly when the
comparison is read right. -/
theorem refineEdge_sound_iff (s : VerifierState) (regs : Regs) (packetLen dataLen : Option Nat)
    (width : Width) (op : JumpOp) (dst : Reg) (src : Operand) (offset : Int16) (kind : EdgeKind)
    (compares : Range.Compares op) (described : Describes s regs packetLen dataLen)
    (edge : edgeTaken kind = some (jumpTaken op (regs dst) (regs.operand src) width)) :
    Describes (refineEdge s kind (some (.jump width op dst src offset))) regs packetLen dataLen ↔
      ReadRight s regs width op dst src := by
  cases src with
  | imm k =>
    simp only [refineEdge, edge, ReadRight, described.setReg_iff]
    by_cases pointer : (s.reg dst).IsMapPtr
    · exact iff_of_true (refineReg_mapPtr pointer (described.regs dst)) (.inl pointer)
    · rw [or_iff_right pointer]
      exact refineReg_iff compares (described.regs dst) pointer
  | reg q =>
    simp only [refineEdge, edge]
    exact refinePacketEdge_iff compares described

/-- Any scalar in `r1`. -/
def anyScalar : VerifierState := (VerifierState.initialWithMaps []).setReg 1 (.scalar .top)

/-- A frame pointer, and one value in every other register. -/
def fileOf (v : Int64) : Regs := fun r => if r = 10 then stackBase else v

/-- `jgt r1, 5` is taken by `-1`, the largest unsigned value, and the taken edge drops it. -/
theorem unsigned_misread :
    ¬∀ (s : VerifierState) (regs : Regs) (packetLen dataLen : Option Nat) (width : Width)
      (op : JumpOp) (dst : Reg) (src : Operand) (offset : Int16) (kind : EdgeKind),
      Range.Compares op → Describes s regs packetLen dataLen →
      edgeTaken kind = some (jumpTaken op (regs dst) (regs.operand src) width) →
      Describes (refineEdge s kind (some (.jump width op dst src offset))) regs packetLen dataLen := by
  intro sound
  have after := (sound anyScalar (fileOf (-1)) none none .b64 .gt 1 (.imm 5) 0 .branchTrue
    (by decide) ⟨by decide, .inl rfl, .inl rfl⟩ (by decide)).regs 1
  exact absurd after (by decide)

theorem signed_read : Describes (refineEdge anyScalar .branchFalse
    (some (.jump .b64 .sgt 1 (.imm 5) 0))) (fileOf (-1)) none none :=
  (refineEdge_sound_iff anyScalar (fileOf (-1)) none none .b64 .sgt 1 (.imm 5) 0 .branchFalse
    (by decide) ⟨by decide, .inl rfl, .inl rfl⟩ (by decide)).mpr (.inr (by decide))

end EbpfLab.Verifier
