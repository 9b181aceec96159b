import EbpfLab.Ssa.Inbound

/-!
# How instructions are rendered

Filling a block renders its instructions one after another: each reads versions that hold its registers
and defines the version that holds the register it writes. Writes to the frame pointer are dropped, but
for those that trap.
-/

namespace EbpfLab.Ssa
open Isa FlowGraph

variable {insns : List Insn} {cfg : Cfg} {b b' b'' : Builder} {block p pos k fuel pc bound bound' : Nat} {reg r : Reg}
  {v dst : SsaValue} {regOf regOf' regOf'' : SsaValue → Reg} {own own' : Builder.Owned}

namespace Builder

/-- The version an instruction defines, with the register it holds. -/
abbrev Definition := Option (Reg × SsaValue)

/-- The versions the body defined last, behind one more instruction. -/
def redefine (held : Reg → Option SsaValue) (definition : Definition) : Reg → Option SsaValue :=
  definition.elim held fun d => Function.update held d.1 (some d.2)

/-- A version holds the register: the body's own, or else an inbound one. -/
def Held (inbound : Reg → SsaValue → Prop) (held : Reg → Option SsaValue) (reg : Reg) (v : SsaValue) : Prop :=
  held reg = some v ∨ held reg = none ∧ inbound reg v

/-- An operand and what stands for it. -/
inductive Stands (holds : Reg → SsaValue → Prop) : Operand → SsaOperand → Prop where
  | reg {r : Reg} {v : SsaValue} (holds_ : holds r v) : Stands holds (.reg r) (.value v)
  | imm {k : Int32} : Stands holds (.imm k) (.imm k)

/-- How one instruction is rendered. -/
inductive Renders (cfg : Cfg) (block : Nat) (holds : Reg → SsaValue → Prop) :
    Insn → List SsaInsn → Definition → Prop where
  | aluSkip {width : Width} {op : AluOp} {dst : Reg} {src : Operand} (frame : dst.isFramePtr = true)
      (safe : isBadEnd op src = false) : Renders cfg block holds (.alu width op dst src) [] none
  | copy {dst src : Reg} {d v : SsaValue} (plain : dst.isFramePtr = false) (source : holds src v) :
      Renders cfg block holds (.alu .b64 .mov dst (.reg src)) [.copy d v] (some (dst, d))
  | alu {width : Width} {op : AluOp} {dst : Reg} {src : Operand} {d l : SsaValue} {rhs : SsaOperand}
      (plain : dst.isFramePtr = false) (left : holds dst l) (right : Stands holds src rhs) :
      Renders cfg block holds (.alu width op dst src) [.binOp d width op (.value l) rhs] (some (dst, d))
  | aluTrap {width : Width} {op : AluOp} {dst : Reg} {src : Operand} {d l : SsaValue} {rhs : SsaOperand}
      (frame : dst.isFramePtr = true) (bad : isBadEnd op src = true) (left : holds dst l) (right : Stands holds src rhs) :
      Renders cfg block holds (.alu width op dst src) [.binOp d width op (.value l) rhs] none
  | wideSkip {dst : Reg} {imm : Int64} (frame : dst.isFramePtr = true) :
      Renders cfg block holds (.loadImm64 dst imm) [] none
  | wide {dst : Reg} {imm : Int64} {d : SsaValue} (plain : dst.isFramePtr = false) :
      Renders cfg block holds (.loadImm64 dst imm) [.loadImm64 d imm] (some (dst, d))
  | loadSkip {size : MemSize} {dst base : Reg} {offset : Int16} {v : SsaValue} (frame : dst.isFramePtr = true)
      (source : holds base v) : Renders cfg block holds (.load size dst base offset) [.load none size v offset] none
  | load {size : MemSize} {dst base : Reg} {offset : Int16} {d v : SsaValue} (plain : dst.isFramePtr = false)
      (source : holds base v) :
      Renders cfg block holds (.load size dst base offset) [.load (some d) size v offset] (some (dst, d))
  | store {size : MemSize} {base : Reg} {offset : Int16} {src : Operand} {v : SsaValue} {o : SsaOperand}
      (target : holds base v) (source : Stands holds src o) :
      Renders cfg block holds (.store size base offset src) [.store size v offset o] none
  | ja {width : Width} {dst : Reg} {src : Operand} {offset : Int16} {e : Edge}
      (edge : (cfg.outEdges block).find? (fun e => e.kind == .unconditional) = some e) :
      Renders cfg block holds (.jump width .always dst src offset) [.ja e.target] none
  | br {width : Width} {op : JumpOp} {dst : Reg} {src : Operand} {offset : Int16} {l : SsaValue} {rhs : SsaOperand}
      (conditional : op ≠ .always) (left : holds dst l) (right : Stands holds src rhs) :
      Renders cfg block holds (.jump width op dst src offset)
        [.br width op (.value l) rhs (jumpTargets cfg block).1 (jumpTargets cfg block).2] none
  | call {func : UInt32} {d a₁ a₂ a₃ a₄ a₅ : SsaValue} (first : holds 1 a₁) (second : holds 2 a₂) (third : holds 3 a₃)
      (fourth : holds 4 a₄) (fifth : holds 5 a₅) :
      Renders cfg block holds (.call func) [.call d func #v[a₁, a₂, a₃, a₄, a₅]] (some (0, d))
  | exit {v : SsaValue} (source : holds 0 v) : Renders cfg block holds .exit [.exit v] none

/-- How the instructions of a block are rendered, from the versions its body holds on. -/
inductive RendersAll (cfg : Cfg) (block : Nat) (regOf : SsaValue → Reg) (bound : Nat)
    (inbound : Reg → SsaValue → Prop) : (Reg → Option SsaValue) → List Insn → List SsaInsn → (Reg → Option SsaValue) → Prop where
  | nil {held : Reg → Option SsaValue} : RendersAll cfg block regOf bound inbound held [] [] held
  | cons {held after : Reg → Option SsaValue} {insn : Insn} {code : List Insn} {emitted body : List SsaInsn}
      {definition : Definition} (first : Renders cfg block (Held inbound held) insn emitted definition)
      (names : ∀ dst d, definition = some (dst, d) → regOf d = dst ∧ 3 ≤ d ∧ d < bound)
      (rest : RendersAll cfg block regOf bound inbound (redefine held definition) code body after) :
      RendersAll cfg block regOf bound inbound held (insn :: code) (emitted ++ body) after

variable {holds holds' inbound inbound' : Reg → SsaValue → Prop} {held after : Reg → Option SsaValue} {insn : Insn}
  {code : List Insn} {emitted body : List SsaInsn} {definition : Definition} {src : Operand} {o : SsaOperand}

theorem Stands.mono (wider : ∀ r v, holds r v → holds' r v) (stands : Stands holds src o) : Stands holds' src o := by
  cases stands with
  | reg holds_ => exact .reg (wider _ _ holds_)
  | imm => exact .imm

theorem Renders.mono (wider : ∀ r v, holds r v → holds' r v) (renders : Renders cfg block holds insn emitted definition) :
    Renders cfg block holds' insn emitted definition := by
  cases renders with
  | aluSkip frame safe => exact .aluSkip frame safe
  | copy plain source => exact .copy plain (wider _ _ source)
  | alu plain left right => exact .alu plain (wider _ _ left) (right.mono wider)
  | aluTrap frame bad left right => exact .aluTrap frame bad (wider _ _ left) (right.mono wider)
  | wideSkip frame => exact .wideSkip frame
  | wide plain => exact .wide plain
  | loadSkip frame source => exact .loadSkip frame (wider _ _ source)
  | load plain source => exact .load plain (wider _ _ source)
  | store target source => exact .store (wider _ _ target) (source.mono wider)
  | ja edge => exact .ja edge
  | br conditional left right => exact .br conditional (wider _ _ left) (right.mono wider)
  | call first second third fourth fifth =>
    exact .call (wider _ _ first) (wider _ _ second) (wider _ _ third) (wider _ _ fourth) (wider _ _ fifth)
  | exit source => exact .exit (wider _ _ source)

theorem RendersAll.mono (wider : ∀ r v, inbound r v → inbound' r v) (agree : ∀ v < bound, regOf' v = regOf v)
    (more : bound ≤ bound') (renders : RendersAll cfg block regOf bound inbound held code body after) :
    RendersAll cfg block regOf' bound' inbound' held code body after := by
  induction renders with
  | nil => exact .nil
  | cons first names _ ih =>
    refine .cons (first.mono fun r v => ?_) (fun dst d defines => ?_) ih
    · exact Or.imp id fun before => ⟨before.1, wider r v before.2⟩
    · obtain ⟨named, lower, upper⟩ := names dst d defines
      exact ⟨(agree d upper).trans named, lower, upper.trans_le more⟩

theorem RendersAll.snoc (renders : RendersAll cfg block regOf bound inbound held code body after)
    (last : Renders cfg block (Held inbound after) insn emitted definition)
    (names : ∀ dst d, definition = some (dst, d) → regOf d = dst ∧ 3 ≤ d ∧ d < bound) :
    RendersAll cfg block regOf bound inbound held (code ++ [insn]) (body ++ emitted) (redefine after definition) := by
  induction renders with
  | nil =>
    have single : RendersAll cfg block regOf bound inbound _ [insn] (emitted ++ []) _ := .cons last names .nil
    rwa [List.append_nil] at single
  | cons first named _ ih =>
    rw [List.cons_append, List.append_assoc]
    exact .cons first named (ih last)

theorem Renders.plain (renders : Renders cfg block holds insn emitted definition) : ∀ i ∈ emitted, i.isPhi = false := by
  cases renders <;> simp [SsaInsn.isPhi]

theorem RendersAll.plain (renders : RendersAll cfg block regOf bound inbound held code body after) :
    ∀ i ∈ body, i.isPhi = false := by
  induction renders with
  | nil => exact fun i among => absurd among List.not_mem_nil
  | cons first _ _ ih => exact fun i among => (List.mem_append.mp among).elim (first.plain i) (ih i)

/-- What is true while blocks are filled: `code` is what of each block has been rendered. -/
structure Rendered (cfg : Cfg) (regOf : SsaValue → Reg) (own : Owned) (code : Nat → List Insn) (b : Builder) : Prop
    extends Grounded cfg regOf own b where
  rows : b.bodies.length = cfg.blocks.length
  bodies : ∀ p, RendersAll cfg p regOf b.next (Inbound cfg regOf own b p) (fun _ => none) (code p)
    (b.bodies.getD p []) (own p)

variable {code code' : Nat → List Insn}

theorem Rendered.later (rendered : Rendered cfg regOf own code b) (grounds : Grounds cfg own regOf b regOf' b') :
    Rendered cfg regOf' own code b' := by
  obtain ⟨later, grounded, _⟩ := grounds
  refine { grounded with rows := by rw [later.bodies, rendered.rows], bodies := fun p => ?_ }
  rw [later.bodies]
  exact (rendered.bodies p).mono (fun r v => later.inbound rendered.toGrounded) later.agree later.next

/-- A step that changes flags alone. -/
theorem Rendered.same (rendered : Rendered cfg regOf own code b) (grounded : Grounded cfg regOf own b')
    (heads : b'.heads = b.heads) (bodies : b'.bodies = b.bodies) (next : b'.next = b.next)
    (filled : ∀ p, b.isFilled p → b'.isFilled p) : Rendered cfg regOf own code b' := by
  refine { grounded with rows := by rw [bodies, rendered.rows], bodies := fun p => ?_ }
  rw [bodies, next]
  refine (rendered.bodies p).mono (fun r v => ?_) (fun _ _ => rfl) (Nat.le_refl _)
  exact Inbound.mono (b := b) (fun p k v inputs there => ⟨rfl, inputs, by rwa [headOf, heads]⟩) filled fun _ _ => rfl

/-! ### Writes -/

/-- What a write to the body of a block that is being filled changes. -/
structure Writes (cfg : Cfg) (regOf regOf' : SsaValue → Reg) (block : Nat) (definition : Definition)
    (emitted : List SsaInsn) (b b' : Builder) : Prop where
  unfilled : b.isFilled block = false
  inside : block < cfg.blocks.length
  agree : ∀ v < b.next, regOf' v = regOf v
  next : b.next ≤ b'.next
  names : ∀ dst d, definition = some (dst, d) → regOf' d = dst ∧ b.next ≤ d ∧ d < b'.next
  sized : Sized cfg b'
  current : ∀ p r, b'.current p r = if p = block then redefine (b.current block) definition r else b.current p r
  heads : b'.heads = b.heads
  bodies : b'.bodies = b.bodies.modify block (· ++ emitted)
  incomplete : b'.incomplete = b.incomplete
  stale : b'.stale = b.stale
  shut : b'.sealed = b.sealed
  filled : b'.filled = b.filled
  entryEnv : b'.entryEnv = b.entryEnv

namespace Writes

variable (writes : Writes cfg regOf regOf' block definition emitted b b')
include writes

/-- What the block defined last, behind the write. -/
theorem unchanged (done : b.isFilled p) : Function.update own block (redefine (own block) definition) p = own p := by
  refine Function.update_of_ne ?_ _ _
  rintro rfl
  rw [writes.unfilled] at done
  cases done

theorem headOf : b'.headOf = b.headOf := by
  funext p
  rw [Builder.headOf, writes.heads]
  rfl

theorem isFilled : b'.isFilled = b.isFilled := by
  funext p
  rw [Builder.isFilled, writes.filled]
  rfl

/-- A version of the block is the one defined, or one it had. -/
theorem current_of_ne {r : Reg} (other : ∀ d, definition = some (r, d) → p ≠ block) :
    b'.current p r = b.current p r := by
  rw [writes.current]
  split
  · rename_i same
    subst same
    cases definition with
    | none => rfl
    | some d =>
      refine Function.update_of_ne ?_ _ _
      rintro rfl
      exact other d.2 rfl rfl
  · rfl

theorem named (before : (b.current p r).isSome) : (b'.current p r).isSome := by
  rw [writes.current]
  split
  · rename_i same
    subst same
    cases definition with
    | none => exact before
    | some d =>
      change (Function.update (b.current p) d.1 (some d.2) r).isSome
      rw [Function.update_apply]
      split
      · rfl
      · exact before
  · exact before

variable (grounded : Grounded cfg regOf own b)
include grounded

theorem phis {inputs : List (Pred × SsaValue)} (there : (b.headOf p)[k]? = some (.phi v inputs)) :
    regOf' v = regOf v ∧ ∃ inputs', (b'.headOf p)[k]? = some (.phi v inputs') :=
  ⟨writes.agree v (grounded.phis p k v inputs there).2, inputs, by rwa [writes.headOf]⟩

theorem stays_inbound (held : Inbound cfg regOf own b p r v) :
    Inbound cfg regOf' (Function.update own block (redefine (own block) definition)) b' p r v :=
  Inbound.mono (b := b) (fun _ _ _ _ there => writes.phis grounded there) (fun p => by rw [writes.isFilled]; exact id)
    (fun _ done => writes.unchanged done) held

theorem stays_outbound (held : Outbound cfg regOf own b p r v) :
    Outbound cfg regOf' (Function.update own block (redefine (own block) definition)) b' p r v :=
  Outbound.mono (b := b) (fun _ _ _ _ there => writes.phis grounded there) (fun p => by rw [writes.isFilled]; exact id)
    (fun _ done => writes.unchanged done) held

/-- What a filled block supplies stays. -/
theorem supplies (done : b.isFilled p) (held : Supplies cfg regOf b p r v) : Supplies cfg regOf' b' p r v := by
  refine held.mono (fun _ _ _ _ there => writes.phis grounded there) fun found => ?_
  rw [writes.current_of_ne, found]
  rintro _ _ rfl
  rw [writes.unfilled] at done
  cases done

/-- The block owns what it defined. -/
theorem owned (owns : Function.update own block (redefine (own block) definition) p r = some v) :
    b'.current p r = some v ∧ regOf' v = r ∧ 3 ≤ v ∧ v < b'.next := by
  have old : own p r = some v → b'.current p r = b.current p r → b'.current p r = some v ∧ regOf' v = r ∧ 3 ≤ v ∧ v < b'.next := by
    intro owned same
    obtain ⟨found, names, lower, upper⟩ := grounded.owned p r v owned
    exact ⟨same.trans found, (writes.agree v upper).trans names, lower, upper.trans_le writes.next⟩
  by_cases here : p = block
  · subst here
    rw [Function.update_self] at owns
    cases definition with
    | none => exact old owns (writes.current_of_ne fun _ defines => by cases defines)
    | some d =>
      change Function.update (own p) d.1 (some d.2) r = some v at owns
      rw [Function.update_apply] at owns
      split at owns
      · rename_i same
        cases owns
        obtain ⟨names, lower, upper⟩ := writes.names d.1 d.2 rfl
        refine ⟨?_, names.trans same.symm, grounded.next.trans lower, upper⟩
        rw [writes.current, if_pos rfl, same]
        exact Function.update_self ..
      · rename_i other
        refine old owns (writes.current_of_ne fun _ defines => ?_)
        cases defines
        exact absurd rfl other
  · rw [Function.update_of_ne here] at owns
    exact old owns (writes.current_of_ne fun _ _ => here)

/-- A version that a block does not own is inbound. -/
theorem unowned (found : b'.current p r = some v)
    (free : Function.update own block (redefine (own block) definition) p r = none) :
    Inbound cfg regOf' (Function.update own block (redefine (own block) definition)) b' p r v := by
  by_cases here : p = block
  · subst here
    rw [Function.update_self] at free
    cases definition with
    | none =>
      rw [writes.current_of_ne fun _ defines => by cases defines] at found
      exact writes.stays_inbound grounded (grounded.current p r v found free)
    | some d =>
      change Function.update (own p) d.1 (some d.2) r = none at free
      rw [Function.update_apply] at free
      split at free
      · cases free
      · rename_i other
        rw [writes.current_of_ne fun _ defines => by cases defines; exact absurd rfl other] at found
        exact writes.stays_inbound grounded (grounded.current p r v found free)
  · rw [Function.update_of_ne here] at free
    rw [writes.current_of_ne fun _ _ => here] at found
    exact writes.stays_inbound grounded (grounded.current p r v found free)

theorem grounds :
    Grounded cfg regOf' (Function.update own block (redefine (own block) definition)) b' where
  sized := writes.sized
  entryEnv := writes.entryEnv.trans grounded.entryEnv
  next := grounded.next.trans writes.next
  phis p k v inputs there := by
    rw [writes.headOf] at there
    obtain ⟨lower, upper⟩ := grounded.phis p k v inputs there
    exact ⟨lower, upper.trans_le writes.next⟩
  owned _ _ _ := writes.owned grounded
  current _ _ _ := writes.unowned grounded
  given p k v inputs there idx q w input := by
    rw [writes.headOf] at there
    rw [(writes.phis grounded there).1]
    refine (grounded.given p k v inputs there idx q w input).imp (fun listed => ⟨?_, writes.named listed.2⟩) fun out =>
      ⟨writes.stays_outbound grounded out.1, writes.supplies grounded out.1.1 out.2⟩
    rw [writes.stale]
    exact listed.1
  starts p k v inputs there w input := by
    rw [writes.headOf] at there
    rw [(writes.phis grounded there).1]
    exact grounded.starts p k v inputs there w input
  shut p closed := by
    rw [writes.isFilled]
    refine grounded.shut p ?_
    rwa [isSealed, writes.shut] at closed
  pend p entry waits := by
    rw [pendOf, writes.incomplete] at waits
    obtain ⟨v, inputs, there, names⟩ := grounded.pend p entry waits
    exact ⟨v, inputs, by rw [writes.headOf, there], (writes.phis grounded there).1.trans names⟩
  recorded s present := by
    rw [writes.stale] at present
    obtain ⟨v, inputs, w, there, names, input⟩ := grounded.recorded s present
    exact ⟨v, inputs, w, by rw [writes.headOf, there], (writes.phis grounded there).1.trans names, input⟩
  named once r := writes.named (grounded.named once r)
  heads p := by
    rw [writes.headOf]
    exact grounded.heads p

end Writes

/-- An instruction is rendered at the end of a block that is being filled. -/
theorem Rendered.write (rendered : Rendered cfg regOf own code b)
    (writes : Writes cfg regOf regOf' block definition emitted b b')
    (renders : Renders cfg block (Holds cfg regOf own b block) insn emitted definition) :
    Rendered cfg regOf' (Function.update own block (redefine (own block) definition))
      (Function.update code block (code block ++ [insn])) b' := by
  refine { writes.grounds rendered.toGrounded with
    rows := by rw [writes.bodies, List.length_modify, rendered.rows], bodies := fun p => ?_ }
  have before := (rendered.bodies p).mono (fun r v => writes.stays_inbound rendered.toGrounded) writes.agree writes.next
  rw [writes.bodies, getD_modify (rendered.rows.symm ▸ writes.inside)]
  by_cases here : p = block
  · subst here
    rw [Function.update_self, Function.update_self, if_pos rfl]
    refine before.snoc (renders.mono fun r v => ?_) fun dst d defines => ?_
    · exact Or.imp id fun held => ⟨held.1, writes.stays_inbound rendered.toGrounded held.2⟩
    · obtain ⟨named, lower, upper⟩ := writes.names dst d defines
      exact ⟨named, rendered.next.trans lower, upper⟩
  · rw [Function.update_of_ne here, Function.update_of_ne here, if_neg here]
    exact before

/-! ### Filling -/

theorem Grounds.keeps (grounds : Grounds cfg own regOf b regOf' b') (grounded : Grounded cfg regOf own b)
    (held : Holds cfg regOf own b p reg v) : Holds cfg regOf' own b' p reg v :=
  held.imp id fun before => ⟨before.1, grounds.later.inbound grounded before.2⟩

/-- The rendering goes on with one more instruction. -/
def Continues (cfg : Cfg) (code : Nat → List Insn) (b : Builder) (block : Nat) (insn : Insn) (b' : Builder) : Prop :=
  (∃ regOf own, Rendered cfg regOf own (Function.update code block (code block ++ [insn])) b') ∧ b'.filled = b.filled

theorem Continues.behind (continues : Continues cfg code b' block insn b'') (filled : b'.filled = b.filled) :
    Continues cfg code b block insn b'' :=
  ⟨continues.1, continues.2.trans filled⟩

theorem Later.unfilled (later : Later regOf regOf' b b') (open_ : b.isFilled block = false) :
    b'.isFilled block = false := by
  rwa [isFilled, later.filled]

theorem Rendered.skip (rendered : Rendered cfg regOf own code b) (open_ : b.isFilled block = false)
    (inside : block < cfg.blocks.length) (renders : Renders cfg block (Holds cfg regOf own b block) insn [] none) :
    Continues cfg code b block insn b := by
  have writes : Writes cfg regOf regOf block none [] b b :=
    { unfilled := open_, inside, agree := fun _ _ => rfl, next := Nat.le_refl _,
      names := fun _ _ defines => by cases defines
      sized := rendered.sized
      current := fun p r => by
        split
        · rename_i same
          rw [same]
          rfl
        · rfl
      bodies := by
        refine List.ext_getElem? fun k => ?_
        rw [List.getElem?_modify]
        cases b.bodies[k]? with
        | none => rfl
        | some row => by_cases same : block = k <;> simp [same]
      heads := rfl, incomplete := rfl, stale := rfl, shut := rfl, filled := rfl, entryEnv := rfl }
  exact ⟨⟨regOf, _, rendered.write writes renders⟩, rfl⟩

theorem Rendered.emit {i : SsaInsn} {n : Nat} (rendered : Rendered cfg regOf own code b) (later : b.next ≤ n)
    (open_ : b.isFilled block = false) (inside : block < cfg.blocks.length)
    (renders : Renders cfg block (Holds cfg regOf own b block) insn [i] none) :
    Continues cfg code b block insn ({ b with next := n }.emitBody block i) := by
  obtain ⟨cur, heads, incomplete, stale, shut, filled, entryEnv, next, bodies⟩ :=
    emitBody_same { b with next := n } block i
  have writes : Writes cfg regOf regOf block none [i] b ({ b with next := n }.emitBody block i) :=
    { unfilled := open_, inside, agree := fun _ _ => rfl, next := later.trans next.ge,
      names := fun _ _ defines => by cases defines
      sized := ⟨by rw [cur, rendered.sized.cur], by rw [heads, rendered.sized.heads],
        by rw [incomplete, rendered.sized.incomplete], by rw [filled, rendered.sized.filled],
        by rw [shut, rendered.sized.sealed]⟩
      current := fun p r => by
        have same : ({ b with next := n }.emitBody block i).current p r = b.current p r := by rw [current, cur]; rfl
        rw [same]
        split
        · rename_i here
          rw [here]
          rfl
        · rfl
      heads, bodies, incomplete, stale, shut, filled, entryEnv }
  exact ⟨⟨regOf, _, rendered.write writes renders⟩, filled⟩

theorem Rendered.define {dst : Reg} {make : SsaValue → SsaInsn} (rendered : Rendered cfg regOf own code b)
    (open_ : b.isFilled block = false) (inside : block < cfg.blocks.length)
    (renders : Renders cfg block (Holds cfg regOf own b block) insn [make b.next] (some (dst, b.next))) :
    Continues cfg code b block insn (b.define block dst make) := by
  have row : block < b.cur.length := rendered.sized.cur.symm ▸ inside
  obtain ⟨cur, heads, incomplete, stale, shut, filled, entryEnv, next, bodies⟩ :=
    emitBody_same b.fresh.2 block (make b.next)
  have current_eq : ∀ p r, (b.define block dst make).current p r =
      if p = block then redefine (b.current block) (some (dst, b.next)) r else b.current p r := by
    intro p r
    have place : block < ((b.fresh.2).emitBody block (make b.next)).cur.length := by rw [cur]; exact row
    have set : (b.define block dst make).current p r =
        if p = block ∧ r = dst then some b.next else ((b.fresh.2).emitBody block (make b.next)).current p r :=
      current_setCurrent place
    have same : ((b.fresh.2).emitBody block (make b.next)).current p r = b.current p r := by rw [current, cur]; rfl
    rw [set, same]
    by_cases here : p = block
    · subst here
      rw [if_pos rfl]
      change _ = Function.update (b.current p) dst (some b.next) r
      rw [Function.update_apply]
      by_cases at_ : r = dst <;> simp [at_]
    · rw [if_neg here, if_neg fun both => here both.1]
  have rows : ((b.fresh.2).emitBody block (make b.next)).cur.length = b.cur.length := congrArg List.length cur
  have writes : Writes cfg regOf (Function.update regOf b.next dst) block (some (dst, b.next)) [make b.next] b
      (b.define block dst make) :=
    { unfilled := open_, inside, agree := fun v below => Function.update_of_ne (Nat.ne_of_lt below) _ _,
      next := (Nat.le_succ _).trans next.ge
      names := fun r d defines => by
        cases defines
        exact ⟨Function.update_self .., Nat.le_refl _, (Nat.lt_succ_self _).trans_le next.ge⟩
      sized := ⟨by simp only [Builder.define, setCurrent, List.length_modify]; exact rows.trans rendered.sized.cur,
        by rw [← rendered.sized.heads]; exact congrArg List.length heads,
        by rw [← rendered.sized.incomplete]; exact congrArg List.length incomplete,
        by rw [← rendered.sized.filled]; exact congrArg List.length filled,
        by rw [← rendered.sized.sealed]; exact congrArg List.length shut⟩
      current := current_eq
      heads, bodies, incomplete, stale, shut, filled, entryEnv }
  exact ⟨⟨_, _, rendered.write writes renders⟩, filled⟩

section

variable (inner : ∀ {p q : Nat}, q ∈ cfg.preds p → q < cfg.blocks.length)
  (inside : block < cfg.blocks.length)
include inner inside

theorem Rendered.read (rendered : Rendered cfg regOf own code b) (done : Builder.read cfg fuel b block reg = some (v, b')) :
    ∃ regOf', Grounds cfg own regOf b regOf' b' ∧ Rendered cfg regOf' own code b' ∧
      Holds cfg regOf' own b' block reg v := by
  obtain ⟨regOf', grounds, named⟩ := read_grounds inner inside rendered.toGrounded done
  exact ⟨regOf', grounds, rendered.later grounds, grounds.grounded.holds named⟩

theorem Rendered.operand (rendered : Rendered cfg regOf own code b)
    (done : Builder.operand cfg fuel b block src = some (o, b')) :
    ∃ regOf', Grounds cfg own regOf b regOf' b' ∧ Rendered cfg regOf' own code b' ∧
      Stands (Holds cfg regOf' own b' block) src o := by
  cases src with
  | reg r =>
    obtain ⟨⟨v, mid⟩, found, same⟩ := Option.bind_eq_some_iff.mp done
    cases same
    obtain ⟨regOf', grounds, after, holds⟩ := rendered.read inner inside found
    exact ⟨regOf', grounds, after, .reg holds⟩
  | imm k =>
    cases done
    exact ⟨regOf, .refl rendered.toGrounded, rendered, .imm⟩

variable (open_ : b.isFilled block = false)
include open_

theorem fillAlu_rendered {width : Width} {op : AluOp} {dst : Reg} (rendered : Rendered cfg regOf own code b)
    (done : fillAlu cfg fuel b block width op dst src = some b') :
    Continues cfg code b block (.alu width op dst src) b' := by
  unfold fillAlu at done
  split at done
  · rename_i dropped
    cases done
    exact rendered.skip open_ inside (.aluSkip dropped.1 (by simpa using dropped.2))
  · rename_i written
    dsimp only at done
    split at done
    · obtain ⟨⟨value, mid⟩, found, same⟩ := Option.bind_eq_some_iff.mp done
      cases same
      obtain ⟨regOf₁, first, after, source⟩ := rendered.read inner inside found
      have plain : dst.isFramePtr = false := Bool.eq_false_iff.mpr fun frame => written ⟨frame, rfl⟩
      refine Continues.behind ?_ first.later.filled
      exact after.define (first.later.unfilled open_) inside (.copy plain source)
    · obtain ⟨⟨lhs, mid⟩, left, done⟩ := Option.bind_eq_some_iff.mp done
      obtain ⟨⟨rhs, last⟩, right, done⟩ := Option.bind_eq_some_iff.mp done
      obtain ⟨regOf₁, first, after, held⟩ := rendered.read inner inside left
      obtain ⟨regOf₂, second, after, stands⟩ := after.operand inner inside right
      have held := second.keeps first.2 held
      have both := first.trans second
      have still := both.later.unfilled open_
      refine Continues.behind ?_ both.later.filled
      dsimp only at done
      split at done
      · rename_i frame
        have bad : isBadEnd op src = true := by
          by_contra safe
          exact written ⟨frame, by simpa using safe⟩
        cases done
        exact after.emit (Nat.le_succ _) still inside (.aluTrap frame bad held stands)
      · rename_i plain
        cases done
        exact after.define still inside (.alu (Bool.eq_false_iff.mpr plain) held stands)

theorem fillInsn_rendered (rendered : Rendered cfg regOf own code b)
    (done : fillInsn cfg fuel b block pc insn = some (.ok b')) : Continues cfg code b block insn b' := by
  unfold fillInsn at done
  split at done
  · obtain ⟨mid, filled, same⟩ := Option.map_eq_some_iff.mp done
    cases same
    exact fillAlu_rendered inner inside open_ rendered filled
  · split at done
    · rename_i frame
      cases done
      exact rendered.skip open_ inside (.wideSkip frame)
    · rename_i plain
      cases done
      exact rendered.define open_ inside (.wide (Bool.eq_false_iff.mpr plain))
  · obtain ⟨⟨base, mid⟩, found, done⟩ := Option.bind_eq_some_iff.mp done
    obtain ⟨regOf₁, first, after, source⟩ := rendered.read inner inside found
    have still := first.later.unfilled open_
    refine Continues.behind ?_ first.later.filled
    dsimp only at done
    split at done
    · rename_i frame
      cases done
      exact after.emit (Nat.le_refl _) still inside (.loadSkip frame source)
    · rename_i plain
      cases done
      exact after.define still inside (.load (Bool.eq_false_iff.mpr plain) source)
  · obtain ⟨⟨base, mid⟩, left, done⟩ := Option.bind_eq_some_iff.mp done
    obtain ⟨⟨src, last⟩, right, done⟩ := Option.bind_eq_some_iff.mp done
    cases done
    obtain ⟨regOf₁, first, after, target⟩ := rendered.read inner inside left
    obtain ⟨regOf₂, second, after, source⟩ := after.operand inner inside right
    have both := first.trans second
    refine Continues.behind ?_ both.later.filled
    exact after.emit (Nat.le_refl _) (both.later.unfilled open_) inside (.store (second.keeps first.2 target) source)
  · obtain ⟨e, found, done⟩ := Option.bind_eq_some_iff.mp done
    cases done
    exact rendered.emit (Nat.le_refl _) open_ inside (.ja found)
  · rename_i conditional
    obtain ⟨⟨lhs, mid⟩, left, done⟩ := Option.bind_eq_some_iff.mp done
    obtain ⟨⟨rhs, last⟩, right, done⟩ := Option.bind_eq_some_iff.mp done
    cases done
    obtain ⟨regOf₁, first, after, held⟩ := rendered.read inner inside left
    obtain ⟨regOf₂, second, after, stands⟩ := after.operand inner inside right
    have both := first.trans second
    refine Continues.behind ?_ both.later.filled
    exact after.emit (Nat.le_refl _) (both.later.unfilled open_) inside (.br conditional (second.keeps first.2 held) stands)
  · obtain ⟨⟨a1, b1⟩, r1, done⟩ := Option.bind_eq_some_iff.mp done
    obtain ⟨⟨a2, b2⟩, r2, done⟩ := Option.bind_eq_some_iff.mp done
    obtain ⟨⟨a3, b3⟩, r3, done⟩ := Option.bind_eq_some_iff.mp done
    obtain ⟨⟨a4, b4⟩, r4, done⟩ := Option.bind_eq_some_iff.mp done
    obtain ⟨⟨a5, b5⟩, r5, done⟩ := Option.bind_eq_some_iff.mp done
    cases done
    obtain ⟨_, g1, after, h1⟩ := rendered.read inner inside r1
    obtain ⟨_, g2, after, h2⟩ := after.read inner inside r2
    obtain ⟨_, g3, after, h3⟩ := after.read inner inside r3
    obtain ⟨_, g4, after, h4⟩ := after.read inner inside r4
    obtain ⟨_, g5, after, h5⟩ := after.read inner inside r5
    have behind₃ := g4.trans g5
    have behind₂ := g3.trans behind₃
    have behind₁ := g2.trans behind₂
    have all := g1.trans behind₁
    refine Continues.behind ?_ all.1.filled
    exact after.define (all.1.unfilled open_) inside
      (.call (behind₁.keeps g1.2 h1) (behind₂.keeps g2.2 h2) (behind₃.keeps g3.2 h3) (g5.keeps g4.2 h4) h5)
  · obtain ⟨⟨r0, mid⟩, found, done⟩ := Option.bind_eq_some_iff.mp done
    cases done
    obtain ⟨regOf₁, first, after, source⟩ := rendered.read inner inside found
    refine Continues.behind ?_ first.later.filled
    exact after.emit (Nat.le_refl _) (first.later.unfilled open_) inside (.exit source)
  · cases done

theorem fillFrom_rendered {list : List Insn} (rendered : Rendered cfg regOf own code b)
    (done : fillFrom cfg fuel b block pc list = some (.ok b')) :
    (∃ regOf own, Rendered cfg regOf own (Function.update code block (code block ++ list)) b') ∧
      b'.filled = b.filled := by
  induction list generalizing b code regOf own pc with
  | nil =>
    cases done
    rw [List.append_nil, Function.update_eq_self]
    exact ⟨⟨regOf, own, rendered⟩, rfl⟩
  | cons insn list ih =>
    unfold fillFrom at done
    obtain ⟨result, first, done⟩ := Option.bind_eq_some_iff.mp done
    cases result with
    | error e => cases done
    | ok mid =>
      obtain ⟨⟨regOf₁, own₁, after⟩, filled⟩ := fillInsn_rendered inner inside open_ rendered first
      have still : mid.isFilled block = false := by rwa [isFilled, filled]
      obtain ⟨rest, same⟩ := ih still after done
      rw [Function.update_self, Function.update_idem, List.append_assoc] at rest
      exact ⟨rest, same.trans filled⟩

end

end Builder

end EbpfLab.Ssa
