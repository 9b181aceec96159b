import EbpfLab.Cfg.Slots
import EbpfLab.Ssa.Answers

/-!
# Visits of blocks

Construction ends: filling a block and sealing it return and keep the phis well-formed, and a sealed block
has no phi that waits. The repair replaces what was read before a block was filled.
-/

namespace EbpfLab.Ssa
open Isa FlowGraph

variable {petgraph : Petgraph}
  {insns : List Insn} {cfg : Cfg} {b b' b'' : Builder} {block p pos k fuel : Nat} {reg r : Reg}
  {v dst : SsaValue} {insn : SsaInsn} {inputs : List (Pred × SsaValue)}

namespace Builder

/-- What reads and writes in a block leave: the flags, and the phis that wait in sealed blocks. -/
structure Steady (b b' : Builder) : Prop where
  pend : ∀ p, b.isSealed p → b'.pendOf p = b.pendOf p
  «sealed» : b'.sealed = b.sealed
  filled : b'.filled = b.filled

/-- The same, when no phi is left open. -/
structure Extends (cfg : Cfg) (b b' : Builder) : Prop extends Steady b b' where
  phis : Phis cfg ∅ b'

theorem Steady.trans (first : Steady b b') (second : Steady b' b'') : Steady b b'' where
  pend p shut := by
    have still : b'.isSealed p := by rwa [isSealed, first.sealed]
    exact (second.pend p still).trans (first.pend p shut)
  «sealed» := second.sealed.trans first.sealed
  filled := second.filled.trans first.filled

theorem Kept.steady {hole : Set Site} (kept : Kept hole reg b b') : Steady b b' :=
  ⟨fun p shut => kept.settled p (Or.inr shut), kept.sealed, kept.filled⟩

namespace Extends

theorem trans (first : Extends cfg b b') (second : Extends cfg b' b'') : Extends cfg b b'' :=
  ⟨first.toSteady.trans second.toSteady, second.phis⟩

theorem refl (phis : Phis cfg ∅ b) : Extends cfg b b :=
  ⟨⟨fun _ _ => rfl, rfl, rfl⟩, phis⟩

end Extends

/-! ### Instructions -/

/-- A write to the body of a block, and to versions. -/
theorem Phis.write (phis : Phis cfg ∅ b) (sized : Sized cfg b') (heads : b'.heads = b.heads)
    (incomplete : b'.incomplete = b.incomplete) (stale : b'.stale = b.stale) (shut : b'.sealed = b.sealed)
    (filled : b'.filled = b.filled) (next : b.next ≤ b'.next)
    (named : ∀ p r, (b.current p r).isSome → (b'.current p r).isSome)
    (bodies : ∀ p, ∀ i ∈ b'.bodies.getD p [], i ∈ b.bodies.getD p [] ∨ i.isPhi = false) : Extends cfg b b' :=
  ⟨⟨fun p _ => by rw [pendOf, pendOf, incomplete], shut, filled⟩,
    phis.same named sized heads incomplete stale next fun p i present => (bodies p i present).elim (phis.bodies p i) id⟩

/-- Everything but the bodies and the record of definitions. -/
theorem emitBody_same (b : Builder) (block : Nat) (insn : SsaInsn) :
    (b.emitBody block insn).cur = b.cur ∧ (b.emitBody block insn).heads = b.heads ∧
      (b.emitBody block insn).incomplete = b.incomplete ∧ (b.emitBody block insn).stale = b.stale ∧
      (b.emitBody block insn).sealed = b.sealed ∧ (b.emitBody block insn).filled = b.filled ∧
      (b.emitBody block insn).entryEnv = b.entryEnv ∧ (b.emitBody block insn).next = b.next ∧
      (b.emitBody block insn).bodies = b.bodies.modify block (· ++ [insn]) := by
  unfold emitBody record
  dsimp only
  split <;> exact ⟨rfl, rfl, rfl, rfl, rfl, rfl, rfl, rfl, rfl⟩

theorem mem_emitted {rows : List (List SsaInsn)} {other : SsaInsn} (plain : insn.isPhi = false)
    (present : other ∈ (rows.modify block (· ++ [insn])).getD p []) :
    other ∈ rows.getD p [] ∨ other.isPhi = false := by
  rw [List.getD_eq_getElem?_getD, List.getElem?_modify] at present
  rw [List.getD_eq_getElem?_getD]
  cases found : rows[p]? with
  | none =>
    rw [found] at present
    cases present
  | some row =>
    rw [found] at present
    change other ∈ (if block = p then row ++ [insn] else row) at present
    split at present
    · rcases List.mem_append.mp present with old | new
      · exact Or.inl old
      · exact Or.inr (List.mem_singleton.mp new ▸ plain)
    · exact Or.inl present

theorem fresh_extends (phis : Phis cfg ∅ b) : Extends cfg b b.fresh.2 :=
  phis.write ⟨phis.sized.cur, phis.sized.heads, phis.sized.incomplete, phis.sized.filled, phis.sized.sealed⟩
    rfl rfl rfl rfl rfl (Nat.le_succ _) (fun _ _ => id) fun _ _ => Or.inl

theorem emitBody_extends (phis : Phis cfg ∅ b) (plain : insn.isPhi = false) :
    Extends cfg b (b.emitBody block insn) := by
  obtain ⟨cur, heads, incomplete, stale, shut, filled, entryEnv, next, bodies⟩ := emitBody_same b block insn
  refine phis.write ⟨by rw [cur, phis.sized.cur], by rw [heads, phis.sized.heads],
      by rw [incomplete, phis.sized.incomplete], by rw [filled, phis.sized.filled], by rw [shut, phis.sized.sealed]⟩
    heads incomplete stale shut filled next.ge (fun p r => ?_) fun p i present => ?_
  · unfold current
    rw [cur]
    exact id
  · rw [bodies] at present
    exact mem_emitted plain present

theorem setCurrent_extends (phis : Phis cfg ∅ b) (inside : block < cfg.blocks.length) :
    Extends cfg b (b.setCurrent block reg v) := by
  have row : block < b.cur.length := phis.sized.cur.symm ▸ inside
  refine phis.write ⟨by simpa [setCurrent] using phis.sized.cur, phis.sized.heads, phis.sized.incomplete,
      phis.sized.filled, phis.sized.sealed⟩
    rfl rfl rfl rfl rfl (Nat.le_refl _) (fun p r named => ?_) fun _ _ => Or.inl
  rw [current_setCurrent row]
  split
  · rfl
  · exact named

theorem define_extends {make : SsaValue → SsaInsn} (phis : Phis cfg ∅ b) (inside : block < cfg.blocks.length)
    (plain : ∀ v, (make v).isPhi = false) : Extends cfg b (b.define block reg make) := by
  have first := fresh_extends phis
  have second : Extends cfg b.fresh.2 (b.fresh.2.emitBody block (make b.next)) :=
    emitBody_extends first.phis (plain b.next)
  exact (first.trans second).trans (setCurrent_extends second.phis inside)

section

variable (inner : ∀ {p q : Nat}, q ∈ cfg.preds p → q < cfg.blocks.length) (enough : 2 * cfg.blocks.length < fuel)
include inner enough

theorem read_extends (phis : Phis cfg ∅ b) (inside : block < cfg.blocks.length) (reg : Reg) :
    ∃ v b', read cfg fuel b block reg = some (v, b') ∧ Extends cfg b b' := by
  obtain ⟨v, b', ran, answered, _⟩ := read_returns inner phis inside ((unread_le cfg b reg).trans_lt enough)
  exact ⟨v, b', ran, answered.kept.steady, answered.phis⟩

theorem operand_extends (phis : Phis cfg ∅ b) (inside : block < cfg.blocks.length) (src : Operand) :
    ∃ o b', operand cfg fuel b block src = some (o, b') ∧ Extends cfg b b' := by
  cases src with
  | reg r =>
    obtain ⟨v, b', ran, extends_⟩ := read_extends inner enough phis inside r
    exact ⟨.value v, b', by simp [operand, ran], extends_⟩
  | imm k => exact ⟨.imm k, b, rfl, .refl phis⟩

variable (inside : block < cfg.blocks.length)
include inside

theorem fillAlu_extends (phis : Phis cfg ∅ b) (width : Width) (op : AluOp) (dst : Reg) (src : Operand) :
    ∃ b', fillAlu cfg fuel b block width op dst src = some b' ∧ Extends cfg b b' := by
  unfold fillAlu
  split
  · exact ⟨b, rfl, .refl phis⟩
  rename_i writes
  dsimp only
  have binOp : ∃ b', ((read cfg fuel b block dst).bind fun lhs => (operand cfg fuel lhs.2 block src).bind fun rhs =>
      if dst.isFramePtr then
        some (rhs.2.fresh.2.emitBody block (.binOp rhs.2.fresh.1 width op (.value lhs.1) rhs.1))
      else some (rhs.2.define block dst fun v => .binOp v width op (.value lhs.1) rhs.1)) = some b' ∧
        Extends cfg b b' := by
    obtain ⟨lhs, b₁, left, first⟩ := read_extends inner enough phis inside dst
    have phis₁ := first.phis
    obtain ⟨rhs, b₂, right, second⟩ := operand_extends inner enough phis₁ inside src
    have phis₂ := second.phis
    have both := first.trans second
    rw [left, Option.bind_some, right, Option.bind_some]
    split
    · have third := fresh_extends phis₂
      have phis₃ := third.phis
      exact ⟨_, rfl, (both.trans third).trans
        (emitBody_extends phis₃ rfl)⟩
    · exact ⟨_, rfl, both.trans (define_extends phis₂ inside fun _ => rfl)⟩
  split
  · rename_i src
    obtain ⟨v, b₁, ran, first⟩ := read_extends inner enough phis inside src
    have phis₁ := first.phis
    exact ⟨_, by rw [ran]; rfl, first.trans (define_extends phis₁ inside fun _ => rfl)⟩
  · exact binOp

/-- Every instruction is filled in, when the edge of an unconditional jump is there. -/
theorem fillInsn_extends (phis : Phis cfg ∅ b) (pc : Nat) (insn : Insn)
    (leads : ∀ width dst src offset, insn = .jump width .always dst src offset →
      ∃ e ∈ cfg.outEdges block, e.kind = .unconditional) :
    ∃ result, fillInsn cfg fuel b block pc insn = some result ∧ ∀ b', result = .ok b' → Extends cfg b b' := by
  -- a read, and what is done with what it leaves
  have reads : ∀ {b₁}, Extends cfg b b₁ → ∀ reg, ∃ v b₂, read cfg fuel b₁ block reg = some (v, b₂) ∧
      Extends cfg b b₂ := by
    intro b₁ first reg
    have phis₁ := first.phis
    obtain ⟨v, b₂, ran, second⟩ := read_extends inner enough phis₁ inside reg
    exact ⟨v, b₂, ran, first.trans second⟩
  have operands : ∀ {b₁}, Extends cfg b b₁ → ∀ src, ∃ o b₂, operand cfg fuel b₁ block src = some (o, b₂) ∧
      Extends cfg b b₂ := by
    intro b₁ first src
    have phis₁ := first.phis
    obtain ⟨v, b₂, ran, second⟩ := operand_extends inner enough phis₁ inside src
    exact ⟨v, b₂, ran, first.trans second⟩
  have emits : ∀ {b₁}, Extends cfg b b₁ → ∀ {i : SsaInsn}, i.isPhi = false → Extends cfg b (b₁.emitBody block i) := by
    intro b₁ first i plain
    have phis₁ := first.phis
    exact first.trans (emitBody_extends phis₁ plain)
  have defines : ∀ {b₁}, Extends cfg b b₁ → ∀ {dst} {make : SsaValue → SsaInsn}, (∀ v, (make v).isPhi = false) →
      Extends cfg b (b₁.define block dst make) := by
    intro b₁ first dst make plain
    have phis₁ := first.phis
    exact first.trans (define_extends phis₁ inside plain)
  have start : Extends cfg b b := .refl phis
  have done : ∀ {b₁}, Extends cfg b b₁ → ∀ b', (.ok b₁ : Except SsaError Builder) = .ok b' → Extends cfg b b' := by
    rintro b₁ first _ ⟨⟩
    exact first
  cases insn with
  | alu width op dst src =>
    obtain ⟨b', ran, extends_⟩ := fillAlu_extends inner enough inside phis width op dst src
    exact ⟨_, by rw [fillInsn, ran]; rfl, done extends_⟩
  | loadImm64 dst imm =>
    refine ⟨_, rfl, done ?_⟩
    split
    · exact start
    · exact defines start fun _ => rfl
  | load size dst base offset =>
    obtain ⟨v, b₁, ran, first⟩ := reads start base
    simp only [fillInsn, ran, Option.bind_eq_bind, Option.bind_some]
    split
    · exact ⟨_, rfl, done (emits first rfl)⟩
    · exact ⟨_, rfl, done (defines first fun _ => rfl)⟩
  | store size base offset src =>
    obtain ⟨v, b₁, ran, first⟩ := reads start base
    obtain ⟨o, b₂, ran', second⟩ := operands first src
    refine ⟨.ok (b₂.emitBody block (.store size v offset o)), ?_, done (emits second rfl)⟩
    simp only [fillInsn, ran, ran', Option.bind_eq_bind, Option.bind_some]
  | jump width op dst src offset =>
    by_cases always : op = .always
    · subst always
      obtain ⟨e, listed, kind⟩ := leads width dst src offset rfl
      obtain ⟨e', found⟩ : ∃ e', (cfg.outEdges block).find? (fun e => e.kind == .unconditional) = some e' :=
        Option.isSome_iff_exists.mp (List.find?_isSome.mpr ⟨e, listed, by simp [kind]⟩)
      exact ⟨_, by rw [fillInsn, found]; rfl, done (emits start rfl)⟩
    · obtain ⟨v, b₁, ran, first⟩ := reads start dst
      obtain ⟨o, b₂, ran', second⟩ := operands first src
      refine ⟨.ok (b₂.emitBody block (.br width op (.value v) o (jumpTargets cfg block).1
        (jumpTargets cfg block).2)), ?_, done (emits second rfl)⟩
      have conditional : fillInsn cfg fuel b block pc (.jump width op dst src offset) =
          (read cfg fuel b block dst).bind fun lhs => (operand cfg fuel lhs.2 block src).bind fun rhs =>
            some (.ok (rhs.2.emitBody block (.br width op (.value lhs.1) rhs.1 (jumpTargets cfg block).1
              (jumpTargets cfg block).2))) := by
        cases op with
        | always => exact absurd rfl always
        | _ => rfl
      rw [conditional, ran, Option.bind_some, ran', Option.bind_some]
  | call func =>
    obtain ⟨a1, b₁, ran₁, first⟩ := reads start 1
    obtain ⟨a2, b₂, ran₂, second⟩ := reads first 2
    obtain ⟨a3, b₃, ran₃, third⟩ := reads second 3
    obtain ⟨a4, b₄, ran₄, fourth⟩ := reads third 4
    obtain ⟨a5, b₅, ran₅, fifth⟩ := reads fourth 5
    refine ⟨.ok (b₅.define block 0 fun v => .call v func #v[a1, a2, a3, a4, a5]), ?_,
      done (defines fifth fun _ => rfl)⟩
    simp only [fillInsn, ran₁, ran₂, ran₃, ran₄, ran₅, Option.bind_eq_bind, Option.bind_some]
  | exit =>
    obtain ⟨v, b₁, ran, first⟩ := reads start 0
    exact ⟨_, by rw [fillInsn, ran]; rfl, done (emits first rfl)⟩
  | unknown code => exact ⟨_, rfl, fun _ failed => by cases failed⟩

theorem fillFrom_extends {code : List Insn} (phis : Phis cfg ∅ b) (pc : Nat)
    (leads : ∀ insn ∈ code, ∀ width dst src offset, insn = .jump width .always dst src offset →
      ∃ e ∈ cfg.outEdges block, e.kind = .unconditional) :
    ∃ result, fillFrom cfg fuel b block pc code = some result ∧ ∀ b', result = .ok b' → Extends cfg b b' := by
  induction code generalizing b pc with
  | nil =>
    refine ⟨.ok b, rfl, ?_⟩
    rintro _ ⟨⟩
    exact .refl phis
  | cons insn code ih =>
    obtain ⟨result, ran, extends_⟩ :=
      fillInsn_extends inner enough inside phis pc insn (leads insn List.mem_cons_self)
    unfold fillFrom
    rw [ran]
    cases result with
    | error e => exact ⟨.error e, rfl, fun _ failed => by cases failed⟩
    | ok b₁ =>
      have first := extends_ b₁ rfl
      have phis₁ := first.phis
      obtain ⟨result, ran', rest⟩ := ih phis₁ (pc + 1)
        fun insn later => leads insn (List.mem_cons_of_mem _ later)
      exact ⟨result, ran', fun b' same => first.trans (rest b' same)⟩

end

/-! ### Seals -/

theorem isSet_set {flags : List Bool} {node : Nat} (before : flags.getD p false = true) :
    (flags.set node true).getD p false = true := by
  rw [List.getD_eq_getElem?_getD] at before ⊢
  rw [List.getElem?_set]
  split
  · split
    · rfl
    · rename_i same outside
      rw [← same, List.getElem?_eq_none (by omega)] at before
      cases before
  · exact before

/-- What the phis of a block that wait have: their start input. -/
def Waits (cfg : Cfg) (b : Builder) (block : Nat) (entry : Nat × Reg) : Prop :=
  (b.current block entry.2).isSome ∧ ∃ dst inputs, (b.headOf block)[entry.1]? = some (.phi dst inputs) ∧
    Merges cfg block [] inputs

/-- The places of these phis. -/
def sites (block : Nat) (pending : List (Nat × Reg)) : Set Site :=
  { s | s.1 = block ∧ s.2 ∈ pending.map Prod.fst }

section

variable (inner : ∀ {p q : Nat}, q ∈ cfg.preds p → q < cfg.blocks.length) (enough : 2 * cfg.blocks.length < fuel)
include inner enough

/-- Every phi that waited takes an input for each edge. -/
theorem pending_completed {pending : List (Nat × Reg)} (phis : Phis cfg (sites block pending) b)
    (inside : block < cfg.blocks.length) (apart : (pending.map Prod.fst).Nodup)
    (waits : ∀ entry ∈ pending, Waits cfg b block entry) (none_ : b.pendOf block = []) :
    ∃ b', pending.foldlM (fun b (pos, reg) => completePhi cfg (read cfg fuel) b block pos reg) b = some b' ∧
      Extends cfg b b' ∧ b'.pendOf block = [] := by
  induction pending generalizing b with
  | nil =>
    have closed : sites block [] = ∅ := by ext s; simp [sites]
    rw [closed] at phis
    exact ⟨b, rfl, .refl phis, none_⟩
  | cons entry pending ih =>
    obtain ⟨pos, reg⟩ := entry
    obtain ⟨named, dst, inputs, there, merges⟩ := waits (pos, reg) List.mem_cons_self
    obtain ⟨fresh, apart⟩ := List.nodup_cons.mp apart
    have reads : ∀ {opened : Set Site} {b : Builder} {p : Nat},
        Phis cfg opened b → p < cfg.blocks.length → unread cfg b reg < fuel →
          Returns cfg opened b p reg (read cfg fuel b p reg) :=
      fun phis inside few => read_returns inner phis inside few
    obtain ⟨b₁, inputs₁, ran, answered, stands, full⟩ := takeInputs_answered reads
      (fun q (listed : q ∈ cfg.preds block) => inner listed) phis ⟨rfl, List.mem_cons_self⟩ inside
      ((unread_le cfg b reg).trans_lt enough) there merges
    have opened : sites block ((pos, reg) :: pending) = insert (block, pos) (sites block pending) := by
      ext ⟨p, k⟩
      simp [sites, Prod.ext_iff]
      tauto
    have still := answered.phis
    rw [opened] at still
    have phis₁ : Phis cfg (sites block pending) b₁ := still.close stands full
    have waits₁ : ∀ entry ∈ pending, Waits cfg b₁ block entry := by
      intro entry later
      obtain ⟨named', dst', inputs', there', merges'⟩ := waits entry (List.mem_cons_of_mem _ later)
      obtain ⟨_, stands', _, same⟩ := answered.kept.heads block entry.1 _ there'
      have other : (block, entry.1) ∉ ({(block, pos)} : Set Site) := by
        intro here
        have clash : entry.1 = pos := (Prod.ext_iff.mp (Set.mem_singleton_iff.mp here)).2
        exact fresh (List.mem_map.mpr ⟨entry, later, clash⟩)
      obtain rfl := same other
      exact ⟨answered.kept.isSome named', dst', inputs', stands', merges'⟩
    obtain ⟨b', ran', rest, empty⟩ :=
      ih phis₁ apart waits₁ ((answered.kept.settled block (Or.inl named)).trans none_)
    refine ⟨b', ?_, ⟨answered.kept.steady.trans rest.toSteady, rest.phis⟩, empty⟩
    rw [List.foldlM_cons]
    dsimp only
    rw [completePhi_eq, ran]
    exact ran'

/-- What a sealed block leaves: no phi of it waits. -/
structure Seals (cfg : Cfg) (b : Builder) (block : Nat) (b' : Builder) : Prop where
  phis : Phis cfg ∅ b'
  empty : b'.pendOf block = []
  pend : ∀ p, p ≠ block → b.isSealed p → b'.pendOf p = b.pendOf p
  «sealed» : b'.sealed = b.sealed.set block true
  filled : b'.filled = b.filled

theorem seal_seals (phis : Phis cfg ∅ b) (inside : block < cfg.blocks.length) :
    ∃ b', «seal» cfg fuel b block = some b' ∧ Seals cfg b block b' := by
  have place : block < b.incomplete.length := phis.sized.incomplete.symm ▸ inside
  generalize opens : ({ b with
    sealing := b.sealing.set block true
    incomplete := b.incomplete.set block [] } : Builder) = b₁
  have pendOf : ∀ p, b₁.pendOf p = if p = block then [] else b.pendOf p := by
    intro p
    subst opens
    exact getD_set place
  have named : ∀ p r, (b.current p r).isSome → (b₁.current p r).isSome := by
    subst opens
    exact fun _ _ => id
  have sized : Sized cfg b₁ := by
    subst opens
    exact ⟨phis.sized.cur, phis.sized.heads, by simpa using phis.sized.incomplete, phis.sized.filled,
      phis.sized.sealed⟩
  have released : Phis cfg (sites block (b.pendOf block)) b₁ := by
    subst opens
    exact phis.release inside rfl rfl named sized rfl rfl rfl
  have waits : ∀ entry ∈ b.pendOf block, Waits cfg b₁ block entry := by
    intro entry queued
    obtain ⟨_, before, dst, inputs, there, merges⟩ := phis.waiting block entry.1 entry.2 queued
    have still : b₁.headOf = b.headOf := by subst opens; rfl
    exact ⟨named block _ before, dst, inputs, by rw [still]; exact there, merges⟩
  obtain ⟨b₂, ran, extends_, empty⟩ := pending_completed inner enough released inside (phis.apart block) waits
    (by rw [pendOf, if_pos rfl])
  have phis₂ := extends_.phis
  refine ⟨{ b₂ with sealing := b₂.sealing.set block false, «sealed» := b₂.sealed.set block true }, ?_,
    phis₂.same (fun _ _ => id)
      ⟨phis₂.sized.cur, phis₂.sized.heads, phis₂.sized.incomplete, phis₂.sized.filled,
        by simpa using phis₂.sized.sealed⟩ rfl rfl rfl (Nat.le_refl _) phis₂.bodies,
    empty, fun p away shut => ?_, ?_, ?_⟩
  · unfold «seal»
    rw [opens]
    exact Option.bind_eq_some_iff.mpr ⟨b₂, ran, rfl⟩
  · have shut₁ : b₁.isSealed p := by subst opens; exact shut
    exact (extends_.pend p shut₁).trans ((pendOf p).trans (if_neg away))
  · change b₂.sealed.set block true = _
    rw [extends_.sealed]
    subst opens
    rfl
  · exact extends_.filled.trans (by subst opens; rfl)

/-! ### Visits -/

/-- A block that is filled and sealed. -/
structure Done (b : Builder) (p : Nat) : Prop where
  filled : b.isFilled p
  shut : b.isSealed p
  empty : b.pendOf p = []

/-- What a visit of a block leaves. -/
structure Visits (cfg : Cfg) (b : Builder) (node : Nat) (b' : Builder) : Prop where
  phis : Phis cfg ∅ b'
  done : Done b' node
  others : ∀ p, Done b p → Done b' p
  filled : ∀ p, b'.isFilled p → p = node ∨ b.isFilled p

theorem visit_visits {node : Nat} (phis : Phis cfg ∅ b) (inside : node < cfg.blocks.length)
    (open_ : b.isFilled node = false)
    (leads : ∀ pc width dst src offset, insns[pc]? = some (.jump width .always dst src offset) →
      (cfg.blocks.getD node ⟨0, 0⟩).start ≤ pc → pc < (cfg.blocks.getD node ⟨0, 0⟩).stop →
        ∃ e ∈ cfg.outEdges node, e.kind = .unconditional) :
    ∃ result, visit cfg fuel insns b node = some result ∧ ∀ b', result = .ok b' → Visits cfg b node b' := by
  -- the block before it is filled: live, and sealed when its predecessors are
  generalize started : (if ({ b with live := b.live.set node true } : Builder).allPredsSealed cfg node then
    { b with live := b.live.set node true, «sealed» := b.sealed.set node true }
    else { b with live := b.live.set node true } : Builder) = b₁
  have shut₁ : ∀ p, b.isSealed p → b₁.isSealed p := by
    intro p shut
    subst started
    split
    · exact isSet_set shut
    · exact shut
  have phis₁ : Phis cfg ∅ b₁ := by
    subst started
    split
    · exact phis.same (fun _ _ => id)
        ⟨phis.sized.cur, phis.sized.heads, phis.sized.incomplete, phis.sized.filled,
          by simpa using phis.sized.sealed⟩ rfl rfl rfl (Nat.le_refl _) phis.bodies
    · exact phis.same (fun _ _ => id)
        ⟨phis.sized.cur, phis.sized.heads, phis.sized.incomplete, phis.sized.filled, phis.sized.sealed⟩
        rfl rfl rfl (Nat.le_refl _) phis.bodies
  have pend₁ : b₁.pendOf = b.pendOf := by subst started; split <;> rfl
  have filled₁ : b₁.filled = b.filled := by subst started; split <;> rfl
  have leadsOn : ∀ insn ∈ (insns.drop (cfg.blocks.getD node ⟨0, 0⟩).start).take
      ((cfg.blocks.getD node ⟨0, 0⟩).stop - (cfg.blocks.getD node ⟨0, 0⟩).start),
      ∀ width dst src offset, insn = .jump width .always dst src offset →
        ∃ e ∈ cfg.outEdges node, e.kind = .unconditional := by
    intro insn there width dst src offset jump
    obtain ⟨i, found⟩ := List.mem_iff_getElem?.mp there
    rw [List.getElem?_take] at found
    split at found
    · rename_i short
      rw [List.getElem?_drop] at found
      exact leads _ width dst src offset (found.trans (congrArg some jump)) (Nat.le_add_right _ _) (by omega)
    · cases found
  obtain ⟨result, ran, extends_⟩ := fillFrom_extends inner enough inside phis₁
    (cfg.blocks.getD node ⟨0, 0⟩).start leadsOn
  unfold visit
  dsimp only
  rw [started, ran]
  cases result with
  | error e => exact ⟨.error e, rfl, fun _ failed => by cases failed⟩
  | ok b₂ =>
    have second := extends_ b₂ rfl
    have phis₂ := second.phis
    generalize full : ({ b₂ with filled := b₂.filled.set node true } : Builder) = b₃
    have row : node < b₂.filled.length := phis₂.sized.filled.symm ▸ inside
    have phis₃ : Phis cfg ∅ b₃ := by
      subst full
      exact phis₂.same (fun _ _ => id)
        ⟨phis₂.sized.cur, phis₂.sized.heads, phis₂.sized.incomplete, by simpa using phis₂.sized.filled,
          phis₂.sized.sealed⟩ rfl rfl rfl (Nat.le_refl _) phis₂.bodies
    have filled₃ : ∀ p, b₃.isFilled p = if p = node then true else b.isFilled p := by
      intro p
      subst full
      unfold isFilled
      rw [getD_set row, second.filled, filled₁]
    obtain ⟨b₄, sealed_, seals⟩ := seal_seals inner enough phis₃ inside
    refine ⟨.ok b₄, ?_, ?_⟩
    · rw [← full] at sealed_
      exact Option.bind_eq_some_iff.mpr ⟨.ok b₂, rfl, Option.bind_eq_some_iff.mpr ⟨b₄, sealed_, rfl⟩⟩
    rintro _ ⟨⟩
    have filled₄ : ∀ p, b₄.isFilled p = if p = node then true else b.isFilled p := by
      intro p
      rw [← filled₃, isFilled, seals.filled]
      rfl
    have shut₃ : ∀ p, b.isSealed p → b₃.isSealed p := by
      intro p shut
      subst full
      have kept := shut₁ p shut
      rwa [isSealed, ← second.sealed] at kept
    refine ⟨seals.phis, ⟨by rw [filled₄, if_pos rfl], ?_, seals.empty⟩, fun p done => ⟨?_, ?_, ?_⟩, fun p filled => ?_⟩
    · rw [isSealed, seals.sealed, getD_set (by rw [phis₃.sized.sealed]; exact inside), if_pos rfl]
    · rw [filled₄, done.filled]
      split <;> rfl
    · rw [isSealed, seals.sealed]
      exact isSet_set (shut₃ p done.shut)
    · have away : p ≠ node := by
        rintro rfl
        exact absurd done.filled (by rw [open_]; exact Bool.false_ne_true)
      have same : b₃.pendOf p = b₂.pendOf p := by subst full; rfl
      rw [seals.pend p away (shut₃ p done.shut), same, second.pend p (shut₁ p done.shut), pend₁, done.empty]
    · rw [filled₄] at filled
      split at filled
      · rename_i here
        exact Or.inl here
      · exact Or.inr filled

/-- The blocks of the order are done one after another. -/
theorem visitAll_visits {nodes : List Nat} (phis : Phis cfg ∅ b) (inside : ∀ node ∈ nodes, node < cfg.blocks.length)
    (once : nodes.Nodup) (fresh : ∀ p, b.isFilled p → p ∉ nodes)
    (leads : ∀ node ∈ nodes, ∀ pc width dst src offset,
      insns[pc]? = some (.jump width .always dst src offset) → (cfg.blocks.getD node ⟨0, 0⟩).start ≤ pc →
        pc < (cfg.blocks.getD node ⟨0, 0⟩).stop → ∃ e ∈ cfg.outEdges node, e.kind = .unconditional) :
    ∃ result, visitAll cfg fuel insns b nodes = some result ∧ ∀ b', result = .ok b' →
      Phis cfg ∅ b' ∧ ∀ p, p ∈ nodes ∨ Done b p → Done b' p := by
  induction nodes generalizing b with
  | nil =>
    refine ⟨.ok b, rfl, ?_⟩
    rintro _ ⟨⟩
    exact ⟨phis, fun p known => known.resolve_left List.not_mem_nil⟩
  | cons node nodes ih =>
    obtain ⟨alone, once⟩ := List.nodup_cons.mp once
    have open_ : b.isFilled node = false := by
      cases filled : b.isFilled node with
      | false => rfl
      | true => exact absurd List.mem_cons_self (fresh node filled)
    obtain ⟨result, ran, visits⟩ := visit_visits inner enough phis (inside node List.mem_cons_self) open_
      (leads node List.mem_cons_self)
    unfold visitAll
    rw [ran]
    cases result with
    | error e => exact ⟨.error e, rfl, fun _ failed => by cases failed⟩
    | ok b₁ =>
      have first := visits b₁ rfl
      have phis₁ := first.phis
      obtain ⟨result, ran', rest⟩ := ih phis₁ (fun p later => inside p (List.mem_cons_of_mem _ later)) once
        (fun p filled later => by
          rcases first.filled p filled with rfl | before
          · exact alone later
          · exact fresh p before (List.mem_cons_of_mem _ later))
        (fun p later => leads p (List.mem_cons_of_mem _ later))
      refine ⟨result, ran', fun b' same => ?_⟩
      obtain ⟨phis', done⟩ := rest b' same
      refine ⟨phis', fun p known => done p ?_⟩
      rcases known with listed | before
      · rcases List.mem_cons.mp listed with rfl | later
        · exact Or.inr first.done
        · exact Or.inl later
      · exact Or.inr (first.others p before)

end

/-! ### The prelude -/

/-- A builder before the first visit: no phi stands anywhere. -/
structure Blank (cfg : Cfg) (b : Builder) : Prop where
  sized : Sized cfg b
  heads : ∀ p, ∀ i ∈ b.headOf p, i.isPhi = false
  bodies : ∀ p, ∀ i ∈ b.bodies.getD p [], i.isPhi = false
  pend : ∀ p, b.pendOf p = []
  stale : b.stale = []
  filled : ∀ p, b.isFilled p = false
  entryEnv : b.entryEnv = (new cfg).entryEnv

namespace Blank

theorem phis (blank : Blank cfg b) : Phis cfg ∅ b := by
  have never : ∀ {p k : Nat} {dst : SsaValue} {inputs : List (Pred × SsaValue)},
      (b.headOf p)[k]? ≠ some (.phi dst inputs) := by
    intro p k dst inputs there
    have plain := blank.heads p _ (List.mem_of_getElem? there)
    cases plain
  refine ⟨blank.sized, fun _ _ _ _ there => absurd there never, fun _ _ _ _ there => absurd there never,
    fun p k reg waits => ?_, fun p => ?_, fun s present => ?_, fun _ opens => absurd opens (Set.notMem_empty _),
    blank.bodies⟩
  · rw [blank.pend p] at waits
    cases waits
  · rw [blank.pend p]
    exact List.nodup_nil
  · rw [blank.stale] at present
    cases present

theorem emitHead (blank : Blank cfg b) (plain : insn.isPhi = false) :
    Blank cfg ((b.fresh.2).emitHead block insn) := by
  have heads : ((b.fresh.2).emitHead block insn).heads = b.heads.modify block (· ++ [insn]) := by
    unfold Builder.emitHead record
    dsimp only
    split <;> rfl
  have others : ((b.fresh.2).emitHead block insn).cur = b.cur ∧
      ((b.fresh.2).emitHead block insn).incomplete = b.incomplete ∧
      ((b.fresh.2).emitHead block insn).filled = b.filled ∧
      ((b.fresh.2).emitHead block insn).sealed = b.sealed ∧
      ((b.fresh.2).emitHead block insn).stale = b.stale ∧
      ((b.fresh.2).emitHead block insn).bodies = b.bodies ∧
      ((b.fresh.2).emitHead block insn).entryEnv = b.entryEnv := by
    unfold Builder.emitHead record
    dsimp only
    split <;> exact ⟨rfl, rfl, rfl, rfl, rfl, rfl, rfl⟩
  obtain ⟨cur, incomplete, filled, shut, stale, bodies, entryEnv⟩ := others
  refine ⟨⟨by rw [cur, blank.sized.cur], by rw [heads, List.length_modify, blank.sized.heads],
      by rw [incomplete, blank.sized.incomplete], by rw [filled, blank.sized.filled], by rw [shut, blank.sized.sealed]⟩,
    fun p i present => ?_, fun p i present => ?_, fun p => ?_, by rw [stale, blank.stale], fun p => ?_,
    by rw [entryEnv, blank.entryEnv]⟩
  · rw [headOf, heads] at present
    exact (mem_emitted plain present).elim (blank.heads p i) id
  · rw [bodies] at present
    exact blank.bodies p i present
  · rw [pendOf, incomplete]
    exact blank.pend p
  · rw [isFilled, filled]
    exact blank.filled p

theorem setCurrent (blank : Blank cfg b) : Blank cfg (b.setCurrent block reg v) :=
  ⟨⟨by simpa [Builder.setCurrent] using blank.sized.cur, blank.sized.heads, blank.sized.incomplete, blank.sized.filled,
    blank.sized.sealed⟩, blank.heads, blank.bodies, blank.pend, blank.stale, blank.filled, blank.entryEnv⟩

end Blank

theorem new_blank : Blank cfg (new cfg) := by
  have rows : ∀ {α : Type} (n p : Nat) (d : α), (List.replicate n d).getD p d = d := by
    intro α n p d
    rw [List.getD_eq_getElem?_getD, List.getElem?_replicate]
    split <;> rfl
  refine ⟨⟨List.length_replicate, List.length_replicate, List.length_replicate, List.length_replicate,
    List.length_replicate⟩, fun p i present => ?_, fun p i present => ?_, fun p => rows _ p [], rfl, fun p => rows _ p false, rfl⟩
  · rw [headOf, new, rows] at present
    cases present
  · rw [new, rows] at present
    cases present

theorem prelude_blank : Blank cfg ((new cfg).prelude cfg) := by
  have regs : ∀ (regs : List Reg) {b : Builder}, Blank cfg b → Blank cfg (regs.foldl
      (fun b r => if !entryLoop cfg || r.isFramePtr then b.setCurrent cfg.entry r (b.entryEnv r) else b) b) := by
    intro regs
    induction regs with
    | nil => exact id
    | cons r regs ih =>
      intro b blank
      refine ih ?_
      dsimp only
      split
      · exact blank.setCurrent
      · exact blank
  exact regs _ (((new_blank.emitHead rfl).emitHead rfl).emitHead rfl)

/-! ### The repair -/

/-- The repair of one input. -/
def repairInput (b : Builder) (s : StaleInput) : Builder :=
  if b.isFilled s.pred then
    match b.current s.pred s.reg with
    | some value =>
      { b with heads := b.heads.modify s.block fun head => head.modify s.pos (setInput s.idx value) }
    | none => b
  else b

theorem repair_eq : b.repair = b.stale.foldl repairInput { b with stale := [] } := rfl

theorem repairInput_at {c : Builder} {s : StaleInput} {value : SsaValue} (filled : c.isFilled s.pred = true)
    (found : c.current s.pred s.reg = some value) (there : (c.headOf s.block)[s.pos]? = some (.phi dst inputs)) :
    ((repairInput c s).headOf s.block)[s.pos]? =
        some (.phi dst (inputs.modify s.idx fun input => (input.1, value))) ∧
      ∀ p k, (p, k) ≠ (s.block, s.pos) → ((repairInput c s).headOf p)[k]? = (c.headOf p)[k]? := by
  have inside : s.block < c.heads.length := by
    by_contra outside
    rw [headOf, List.getD_eq_getElem?_getD, List.getElem?_eq_none (Nat.not_lt.mp outside)] at there
    cases there
  have headOf_eq : ∀ p, (repairInput c s).headOf p =
      if p = s.block then (c.headOf s.block).modify s.pos (setInput s.idx value) else c.headOf p := by
    intro p
    unfold repairInput
    rw [if_pos filled, found]
    exact getD_modify inside
  refine ⟨?_, fun p k other => ?_⟩
  · rw [headOf_eq, if_pos rfl, List.getElem?_modify, there]
    simp [setInput]
  · rw [headOf_eq]
    split
    · rename_i same
      subst same
      have apart : s.pos ≠ k := fun same => other (by rw [same])
      rw [List.getElem?_modify]
      simp [apart]
    · rfl

/-- One input of a phi replaced. -/
theorem getElem?_replaced {idx at_ : Nat} {value : SsaValue} {q : Pred}
    (found : (inputs.modify at_ fun input => (input.1, value))[idx]? = some (q, v)) :
    (idx = at_ ∧ v = value ∧ ∃ w, inputs[idx]? = some (q, w)) ∨ (idx ≠ at_ ∧ inputs[idx]? = some (q, v)) := by
  rw [List.getElem?_modify] at found
  obtain ⟨old, there, same⟩ := Option.map_eq_some_iff.mp found
  by_cases here : at_ = idx
  · rw [if_pos here] at same
    cases same
    exact Or.inl ⟨here.symm, rfl, old.2, there⟩
  · rw [if_neg here] at same
    cases same
    exact Or.inr ⟨Ne.symm here, there⟩

end Builder

/-- A block whose last instruction is an unconditional jump has its edge. -/
theorem unconditional_edge (graph : buildCfg petgraph insns = .ok cfg) {node pc : Nat} (inside : node < cfg.blocks.length)
    {width : Width} {dst : Reg} {src : Operand} {offset : Int16}
    (fetched : insns[pc]? = some (.jump width .always dst src offset))
    (lower : (cfg.blocks.getD node ⟨0, 0⟩).start ≤ pc) (upper : pc < (cfg.blocks.getD node ⟨0, 0⟩).stop) :
    ∃ e ∈ cfg.outEdges node, e.kind = .unconditional := by
  obtain ⟨targets, built⟩ := buildCfg_built graph
  obtain ⟨j, _, lands⟩ := built.resolved.jump fetched
  obtain ⟨⟨e, listed, source, kind⟩, _⟩ := taken_edge graph fetched lands
  have short := (List.getElem?_eq_some_iff.mp fetched).1
  have found : cfg.blocks[node]? = some (cfg.blocks.getD node ⟨0, 0⟩) := by
    rw [List.getD_eq_getElem?_getD, List.getElem?_eq_getElem inside]
    rfl
  have block : blockIndex cfg.blocks pc = node :=
    (built.tiles.blockIndex_iff (Nat.zero_le _) short).mpr ⟨_, found, lower, upper⟩
  rw [built.blockOfPc_eq, List.getElem?_map, List.getElem?_range short, Option.map_some, block] at source
  refine ⟨e, ?_, kind⟩
  simp [Cfg.outEdges, listed, Option.some.inj source]

end EbpfLab.Ssa
