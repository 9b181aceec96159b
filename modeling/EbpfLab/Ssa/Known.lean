import EbpfLab.Ssa.Opt
import EbpfLab.Ssa.Semantics
import EbpfLab.Ssa.WellFormed

/-!
# What a run knows

Along a run of a well-formed program every available version is assigned, a version whose value
folding can tell holds that value, and a version that copies another one equals it. No block of such
a run is stuck.
-/

namespace EbpfLab.Ssa
open Isa FlowGraph Library Interp

def SsaInsn.constant : SsaInsn → Option Int64
  | .const _ value | .loadImm64 _ value => some value
  | _ => none

/-- The value an entry value has on a machine. -/
def SsaInsn.fixed (m : Machine) : SsaInsn → Option Int64
  | .framePtr _ => some stackBase
  | .entryCtx _ => some m.ctx
  | insn => insn.constant

namespace SsaProgram

/-- Folding can tell the value of a version. -/
inductive Settled (prog : SsaProgram) : SsaValue → Int64 → Prop
  | constant {block : Nat} {pre : List SsaInsn} {insn : SsaInsn} {v : SsaValue} {c : Int64}
      (here : prog.At block pre insn) (dst : insn.defDst = some v) (value : insn.constant = some c) :
      Settled prog v c
  | folded {block : Nat} {pre : List SsaInsn} {insn : SsaInsn} {consts : ConstTable} {v : SsaValue}
      {c : Int64} (here : prog.At block pre insn)
      (known : ∀ u ∈ insn.uses, ∀ k, consts.resolve (.value u) = some k → Settled prog u k)
      (folds : foldValue consts insn = some (v, c)) : Settled prog v c

/-- The definition of `v` copies `u`. -/
def Copies (prog : SsaProgram) (v u : SsaValue) : Prop :=
  ∃ block pre insn, prog.isLive block ∧ prog.At block pre insn ∧ copyOf prog insn = some (v, u)

end SsaProgram

/-- What holds of an available version. -/
structure Known (m : Machine) (prog : SsaProgram) (env : Env) (v : SsaValue) : Prop where
  assigned : ∃ x, env v = some x
  fixed : ∀ block pre insn x, prog.At block pre insn → insn.defDst = some v →
    insn.fixed m = some x → env v = some x
  settled : ∀ c, prog.Settled v c → env v = some c
  copied : ∀ u, prog.Copies v u → env v = env u

/-- Every available version is known. -/
def Knows (m : Machine) (prog : SsaProgram) (block : Nat) (pre : List SsaInsn) (env : Env) : Prop :=
  ∀ v, prog.Available block pre v → Known m prog env v

variable {m : Machine} {prog : SsaProgram} {block block' p : Nat} {pre post rest : List SsaInsn}
  {insn : SsaInsn} {u v w dst : SsaValue} {inputs : List (Pred × SsaValue)} {pred : Pred}
  {env env' : Env} {world : World} {c x : Int64}

/-! ### Copies -/

theorem mem_destutter {xs : List Nat} (present : v ∈ xs) : v ∈ xs.destutter (· ≠ ·) := by
  have front : ∀ (xs : List Nat) (a : Nat), v = a ∨ v ∈ xs → v ∈ xs.destutter' (· ≠ ·) a := by
    intro xs
    induction xs with
    | nil =>
      rintro a (rfl | present)
      · exact List.mem_singleton.mpr rfl
      · cases present
    | cons b xs ih =>
      intro a present
      by_cases other : a ≠ b
      · rw [List.destutter'_cons_pos _ other]
        rcases present with rfl | present
        · exact List.mem_cons_self
        · exact List.mem_cons_of_mem _ (ih b (List.mem_cons.mp present))
      · rw [List.destutter'_cons_neg _ other]
        rcases present with rfl | present
        · exact ih _ (Or.inl rfl)
        · rcases List.mem_cons.mp present with rfl | later
          · exact ih _ (Or.inl (not_not.mp other).symm)
          · exact ih _ (Or.inr later)
  cases xs with
  | nil => cases present
  | cons a xs => exact front xs a (List.mem_cons.mp present)

theorem mem_votes : w ∈ votes prog dst inputs ↔
    w ≠ dst ∧ ∃ pred, (pred, w) ∈ inputs ∧ prog.predLive pred := by
  simp only [votes, List.mem_filter, List.mem_map, decide_eq_true_eq, Prod.exists]
  constructor
  · rintro ⟨⟨pred, _, ⟨present, live⟩, rfl⟩, other⟩
    exact ⟨other, pred, present, live⟩
  · rintro ⟨other, pred, present, live⟩
    exact ⟨⟨pred, w, ⟨present, live⟩, rfl⟩, other⟩

/-- A phi that copies `u` has no other live input. -/
theorem copyOf_phi (copies : copyOf prog (.phi dst inputs) = some (v, u)) :
    v = dst ∧ ∀ pred w, (pred, w) ∈ inputs → prog.predLive pred → w = u ∨ w = dst := by
  simp only [copyOf] at copies
  split at copies
  · rename_i only single
    obtain ⟨rfl, rfl⟩ := Prod.mk.inj (Option.some.inj copies)
    refine ⟨rfl, fun pred w present live => ?_⟩
    by_cases self : w = dst
    · exact Or.inr self
    · have vote := mem_destutter (mem_votes.mpr ⟨self, pred, present, live⟩)
      rw [single] at vote
      exact Or.inl (List.mem_singleton.mp vote)
  · cases copies

theorem copyOf_dst (copies : copyOf prog insn = some (v, u)) : insn.defDst = some v := by
  unfold copyOf at copies
  split at copies
  · cases copies
    rfl
  · cases copies
    rfl
  · split at copies
    · cases copies
      rfl
    · cases copies
  · cases copies

theorem copyOf_use (copies : copyOf prog insn = some (v, u)) (plain : insn.isPhi = false) :
    u ∈ insn.uses := by
  unfold copyOf at copies
  split at copies
  · cases copies
    exact List.mem_singleton.mpr rfl
  · cases copies
    exact List.mem_append_right _ (List.mem_singleton.mpr rfl)
  · cases plain
  · cases copies

/-- A fold computes what the operation computes from operands that agree with the table, and never
folds one that traps. -/
theorem foldValue_eq {consts : ConstTable} {width : Width} {op : AluOp} {lhs rhs : SsaOperand}
    {l r : Int64} (folds : foldValue consts (.binOp dst width op lhs rhs) = some (v, c))
    (left : ∀ k, consts.resolve lhs = some k → l = k) (right : ∀ k, consts.resolve rhs = some k → r = k) :
    dst = v ∧ badEnd op r = false ∧ op.apply l r width = c := by
  cases op with
  | mov =>
    obtain ⟨k, resolved, same⟩ := Option.map_eq_some_iff.mp folds
    obtain ⟨rfl, rfl⟩ := Prod.mk.inj same
    rw [← right k resolved]
    exact ⟨rfl, rfl, AluOp.apply_mov_left l 0 r width⟩
  | neg =>
    obtain ⟨k, resolved, same⟩ := Option.map_eq_some_iff.mp folds
    obtain ⟨rfl, rfl⟩ := Prod.mk.inj same
    rw [← left k resolved]
    exact ⟨rfl, rfl, AluOp.apply_neg_right l r 0 width⟩
  | byteSwap order =>
    cases first : consts.resolve lhs with
    | none =>
      simp only [foldValue, first] at folds
      cases folds
    | some k =>
      cases second : consts.resolve rhs with
      | none =>
        simp only [foldValue, first, second] at folds
        cases folds
      | some k' =>
        obtain rfl := left k first
        obtain rfl := right k' second
        simp only [foldValue, first, second] at folds
        split at folds
        · rename_i valid
          obtain ⟨rfl, rfl⟩ := Prod.mk.inj (Option.some.inj folds)
          exact ⟨rfl, by simp [badEnd, valid], rfl⟩
        · cases folds
  | _ =>
    cases first : consts.resolve lhs with
    | none =>
      simp only [foldValue, first] at folds
      cases folds
    | some k =>
      cases second : consts.resolve rhs with
      | none =>
        simp only [foldValue, first, second] at folds
        cases folds
      | some k' =>
        obtain rfl := left k first
        obtain rfl := right k' second
        simp only [foldValue, first, second] at folds
        obtain ⟨rfl, rfl⟩ := Prod.mk.inj (Option.some.inj folds)
        exact ⟨rfl, rfl, rfl⟩

theorem foldValue_dst {consts : ConstTable} (folds : foldValue consts insn = some (v, c)) :
    insn.defDst = some v := by
  cases insn with
  | binOp dst width op lhs rhs =>
    have agree : ∀ o k, consts.resolve o = some k → (consts.resolve o).getD 0 = k := by
      intro o k resolved
      rw [resolved]
      rfl
    exact congrArg some (foldValue_eq folds (agree lhs) (agree rhs)).1
  | _ => cases folds

theorem mem_liveSuccessors {t : Nat} : t ∈ prog.liveSuccessors block ↔
    ∃ e ∈ prog.edges, e.source = block ∧ e.target = t ∧
      ¬ (prog.deadTaken block ∧ e.kind = .branchTrue) := by
  simp only [SsaProgram.liveSuccessors, SsaProgram.outEdges, List.mem_filterMap, List.mem_reverse,
    List.mem_filter, beq_iff_eq]
  constructor
  · rintro ⟨e, ⟨present, source⟩, target⟩
    split at target
    · cases target
    · rename_i taken
      exact ⟨e, present, source, Option.some.inj target, by simpa using taken⟩
  · rintro ⟨e, present, source, target, taken⟩
    refine ⟨e, ⟨present, source⟩, ?_⟩
    rw [if_neg (by simpa using taken), target]

namespace SsaProgram.WellFormed

variable (wf : prog.WellFormed)
include wf

/-- A phi has an input for every edge control can take into its block. -/
theorem phi_input (reached : prog.Reaches block) (here : prog.At block pre (.phi dst inputs))
    (before : prog.Reaches p) (flows : prog.Flows p block) :
    ∃ w, phiInput (some p) inputs = some w ∧ (some p, w) ∈ inputs := by
  obtain ⟨e, present, source, target, _⟩ := mem_liveSuccessors.mp flows
  have comes : some p ∈ prog.incoming block := by
    refine List.mem_append_left _ (List.mem_map.mpr ⟨e, List.mem_filter.mpr ⟨present, ?_⟩, ?_⟩)
    · simp [target, source, wf.live p before]
    · rw [source]
  obtain ⟨⟨pred, w⟩, listed, same⟩ :=
    List.mem_map.mp ((wf.inputs _ _ _ _ reached here).mem_iff.mpr comes)
  cases same
  have some_input : (inputs.find? fun input => input.1 == some p).isSome :=
    List.find?_isSome.mpr ⟨_, (List.mem_filter.mp listed).1, by simp⟩
  obtain ⟨input, found⟩ := Option.isSome_iff_exists.mp some_input
  have named := List.find?_some found
  obtain ⟨pred, w⟩ := input
  obtain rfl : pred = some p := by simpa using named
  exact ⟨w, by rw [phiInput, found]; rfl, List.mem_of_find?_eq_some found⟩

theorem phi_start (reached : prog.Reaches prog.entry)
    (here : prog.At prog.entry pre (.phi dst inputs)) :
    ∃ w, phiInput none inputs = some w ∧ (none, w) ∈ inputs := by
  have comes : none ∈ prog.incoming prog.entry := List.mem_append_right _ (by simp)
  obtain ⟨⟨pred, w⟩, listed, same⟩ :=
    List.mem_map.mp ((wf.inputs _ _ _ _ reached here).mem_iff.mpr comes)
  cases same
  have some_input : (inputs.find? fun input => input.1 == none).isSome :=
    List.find?_isSome.mpr ⟨_, (List.mem_filter.mp listed).1, by simp⟩
  obtain ⟨input, found⟩ := Option.isSome_iff_exists.mp some_input
  have named := List.find?_some found
  obtain ⟨pred, w⟩ := input
  obtain rfl : pred = none := by simpa using named
  exact ⟨w, by rw [phiInput, found]; rfl, List.mem_of_find?_eq_some found⟩

/-- The version a phi copies is defined where every path to the phi passes: the input that arrives
first on a path cannot be the phi itself. -/
theorem phi_copied (reached : prog.Reaches block) (here : prog.At block pre (.phi dst inputs))
    (copies : copyOf prog (.phi dst inputs) = some (v, u)) :
    (∃ i ∈ pre, i.isEntryValue ∧ i.defDst = some u) ∨
      ∃ d, prog.Dominates d block ∧ u ∈ defs (prog.insnsOf d) := by
  obtain ⟨rfl, every⟩ := copyOf_phi copies
  by_cases inner : block = prog.entry
  · subst inner
    obtain ⟨w, _, listed⟩ := wf.phi_start reached here
    obtain ⟨i, earlier, value, defined⟩ := wf.startUses _ _ _ _ reached here w listed
    rcases every none w listed rfl with rfl | rfl
    · exact Or.inl ⟨i, earlier, value, defined⟩
    · exact absurd (mem_defs.mpr ⟨i, earlier, defined⟩) (wf.not_mem_pre here rfl)
  · have arrival : ∀ {p}, prog.Flows p block → Avoiding prog.Flows prog.entry block p →
        prog.Available p (prog.insnsOf p) u := by
      intro p flows path
      obtain ⟨w, _, listed⟩ := wf.phi_input reached here path.reached flows
      have available := wf.inputUses _ _ _ _ reached here p w listed path.reached
      rcases every (some p) w listed (wf.live p path.reached) with rfl | rfl
      · exact available
      · rcases available with defined | ⟨d, dominates, defined⟩
        · exact absurd (wf.same_block defined (here.dst_mem rfl)) path.ne
        · obtain rfl := wf.same_block defined (here.dst_mem rfl)
          exact absurd path dominates.passed
    obtain ⟨p, flows, path⟩ := reached.first_arrival inner
    have place : ∃ d, d ≠ block ∧ u ∈ defs (prog.insnsOf d) := by
      rcases arrival flows path with defined | ⟨d, dominates, defined⟩
      · exact ⟨p, path.ne, defined⟩
      · refine ⟨d, ?_, defined⟩
        rintro rfl
        exact dominates.passed path
    obtain ⟨d, other, defined⟩ := place
    refine Or.inr ⟨d, ⟨other, fun detour => ?_⟩, defined⟩
    obtain ⟨p', flows', path', first⟩ := detour.first_arrival inner
    rcases arrival flows' first with defined' | ⟨d', dominates, defined'⟩
    · exact path'.ne (wf.same_block defined' defined)
    · obtain rfl := wf.same_block defined' defined
      exact dominates.passed path'

theorem precedes_of_copy (reached : prog.Reaches block) (here : prog.At block pre insn)
    (copies : copyOf prog insn = some (v, u)) : prog.Precedes u v := by
  refine ⟨block, pre, insn, reached, here, copyOf_dst copies, ?_⟩
  cases kind : insn.isPhi with
  | false => exact wf.uses _ _ _ reached here kind u (copyOf_use copies kind)
  | true =>
    cases insn with
    | phi dst inputs =>
      rcases wf.phi_copied reached here copies with ⟨i, earlier, _, defined⟩ | dominated
      · exact Or.inl (mem_defs.mpr ⟨i, earlier, defined⟩)
      · exact Or.inr dominated
    | _ => cases kind

/-- A version that copies another and is available anywhere comes after it. -/
theorem precedes_of_copies (reached : prog.Reaches block) (inside : pre <+: prog.insnsOf block)
    (available : prog.Available block pre v) (copies : prog.Copies v u) : prog.Precedes u v := by
  obtain ⟨d, pre', insn, _, here, copy⟩ := copies
  obtain ⟨rest, whole⟩ := inside
  have defined : ∃ d', prog.Reaches d' ∧ v ∈ defs (prog.insnsOf d') :=
    SsaProgram.Available.defined (by rw [← whole]; exact available.later) reached
  obtain ⟨d', reached', defined⟩ := defined
  obtain rfl := wf.same_block defined (here.dst_mem (copyOf_dst copy))
  exact wf.precedes_of_copy reached' here copy

/-! ### One instruction -/

theorem settled_cases (here : prog.At block pre insn) (defines : insn.defDst = some v)
    (settled : prog.Settled v c) :
    insn.constant = some c ∨ ∃ consts : ConstTable,
      (∀ u ∈ insn.uses, ∀ k, consts.resolve (.value u) = some k → prog.Settled u k) ∧
        foldValue consts insn = some (v, c) := by
  cases settled with
  | constant there dst value =>
    obtain ⟨_, _, rfl⟩ := wf.same_place here there defines dst
    exact Or.inl value
  | @folded _ _ _ consts _ _ there known folds =>
    obtain ⟨_, _, rfl⟩ := wf.same_place here there defines (foldValue_dst folds)
    exact Or.inr ⟨consts, known, folds⟩

/-- An assignment that agrees with what is known of the version keeps the rest known. -/
theorem knows_set (reached : prog.Reaches block) (here : prog.At block pre insn)
    (defines : insn.defDst = some v) (knows : Knows m prog block pre env)
    (fixed : ∀ y, insn.fixed m = some y → x = y) (settled : ∀ c, prog.Settled v c → x = c)
    (copied : ∀ u, copyOf prog insn = some (v, u) → env u = some x) :
    Knows m prog block (pre ++ [insn]) (env.set v x) := by
  obtain ⟨post, split⟩ := here
  have at_insn : prog.At block pre insn := ⟨post, split⟩
  have inside : pre <+: prog.insnsOf block := ⟨insn :: post, split.symm⟩
  have upto : pre ++ [insn] <+: prog.insnsOf block := ⟨post, by rw [split]; simp⟩
  have fresh : ∀ {w}, prog.Available block pre w → env.set v x w = env w := by
    intro w available
    refine if_neg ?_
    rintro rfl
    exact wf.not_available at_insn defines available
  intro w available
  by_cases new : w = v
  · subst new
    refine ⟨⟨x, if_pos rfl⟩, ?_, ?_, ?_⟩
    · intro _ _ _ y there dst value
      obtain ⟨_, _, rfl⟩ := wf.same_place at_insn there defines dst
      rw [Env.set, if_pos rfl, fixed y value]
    · intro c settles
      rw [Env.set, if_pos rfl, settled c settles]
    · intro u copies
      have before := wf.precedes_of_copies reached upto available copies
      obtain ⟨_, _, _, _, there, copy⟩ := copies
      obtain ⟨_, _, rfl⟩ := wf.same_place at_insn there defines (copyOf_dst copy)
      have other : u ≠ w := by
        rintro rfl
        exact wf.precedes_irrefl before
      rw [Env.set, Env.set, if_pos rfl, if_neg other, copied u copy]
  · have earlier : prog.Available block pre w := by
      rcases available with defined | dominated
      · rw [defs_append] at defined
        rcases List.mem_append.mp defined with defined | defined
        · exact Or.inl defined
        · obtain ⟨i, present, dst⟩ := mem_defs.mp defined
          obtain rfl := List.mem_singleton.mp present
          exact absurd (Option.some.inj (dst.symm.trans defines)) new
      · exact Or.inr dominated
    have known := knows w earlier
    refine ⟨?_, ?_, ?_, ?_⟩
    · rw [fresh earlier]
      exact known.assigned
    · rw [fresh earlier]
      exact known.fixed
    · rw [fresh earlier]
      exact known.settled
    · intro u copies
      have before := wf.precedes_of_copies reached inside earlier copies
      rw [fresh earlier, fresh (wf.available_of_precedes reached before inside earlier)]
      exact known.copied u copies

omit wf in
theorem knows_same (defines : insn.defDst = none) (knows : Knows m prog block pre env) :
    Knows m prog block (pre ++ [insn]) env := by
  intro v available
  refine knows v ?_
  rcases available with defined | dominated
  · rw [defs_append] at defined
    rcases List.mem_append.mp defined with defined | defined
    · exact Or.inl defined
    · obtain ⟨i, present, dst⟩ := mem_defs.mp defined
      obtain rfl := List.mem_singleton.mp present
      rw [defines] at dst
      cases dst
  · exact Or.inr dominated

end SsaProgram.WellFormed

theorem operand_assigned {o : SsaOperand} (known : ∀ u ∈ o.uses, Known m prog env u) :
    ∃ x, env.operand o = some x := by
  cases o with
  | value u => exact (known u (List.mem_singleton.mpr rfl)).assigned
  | imm k => exact ⟨_, rfl⟩

/-- An operand that is read holds what a table of settled versions says. -/
theorem operand_settled {o : SsaOperand} {consts : ConstTable}
    (known : ∀ u ∈ o.uses, Known m prog env u)
    (sound : ∀ u ∈ o.uses, ∀ k, consts.resolve (.value u) = some k → prog.Settled u k)
    (read : env.operand o = some x) : ∀ k, consts.resolve o = some k → x = k := by
  intro k resolved
  cases o with
  | value u =>
    have here := List.mem_singleton.mpr (rfl : u = u)
    have held := (known u here).settled k (sound u here k resolved)
    exact Option.some.inj (read.symm.trans held)
  | imm i => exact Option.some.inj (read.symm.trans resolved)

theorem args_assigned {args : Vector SsaValue 5} (known : ∀ u ∈ args.toList, Known m prog env u) :
    ∃ regs, env.argRegs args = some regs := by
  have every : ∀ xs : List SsaValue, (∀ u ∈ xs, Known m prog env u) → ∃ ys, xs.mapM env = some ys := by
    intro xs
    induction xs with
    | nil => exact fun _ => ⟨[], rfl⟩
    | cons u xs ih =>
      intro known
      obtain ⟨y, read⟩ := (known u List.mem_cons_self).assigned
      obtain ⟨ys, rest⟩ := ih fun w later => known w (List.mem_cons_of_mem _ later)
      exact ⟨y :: ys, by rw [List.mapM_cons, read, Option.bind_eq_bind, Option.bind_some, rest]; rfl⟩
  obtain ⟨ys, read⟩ := every args.toList known
  exact ⟨_, by rw [Env.argRegs, read]; rfl⟩

/-- What an instruction goes on with, and how it leaves. -/
def InsnResult.Satisfies (r : InsnResult) (next : Env → Prop) (leave : Leave → Prop) : Prop :=
  match r with
  | .next env | .effect env _ => next env
  | .leave how => leave how

/-- A block is left for one that control flows to, with everything known that it defines. -/
def Leaves (m : Machine) (prog : SsaProgram) (block : Nat) (env : Env) (how : Leave) : Prop :=
  how ≠ .stuck ∧ ∀ t, how = .goto t → prog.Flows block t ∧ Knows m prog block (prog.insnsOf block) env

theorem leaves_ended {ending : Ending} : Leaves m prog block env (.ended ending) := ⟨nofun, nofun⟩

namespace SsaProgram.WellFormed

variable (wf : prog.WellFormed)
include wf

theorem terminator_eq (reached : prog.Reaches block) (here : prog.At block pre insn)
    (control : insn.isControl) : prog.terminator block = some insn := by
  obtain ⟨post, split⟩ := here
  have plain : pre.find? SsaInsn.isControl = none := by
    refine List.find?_eq_none.mpr fun i earlier => ?_
    obtain ⟨front, back, cut⟩ := List.append_of_mem earlier
    intro control'
    have last := wf.closed block front i (back ++ insn :: post) reached (by rw [split, cut]; simp) control'
    simp at last
  have found : (prog.insnsOf block).find? SsaInsn.isControl = some insn := by
    rw [split, List.find?_append, plain, List.find?_cons, control]
    rfl
  unfold SsaProgram.insnsOf at found
  unfold SsaProgram.terminator
  cases present : prog.blocks[block]? with
  | none =>
    rw [present] at found
    cases found
  | some b =>
    rw [present] at found
    exact found

/-- A control op leaves with everything known. -/
theorem leaves_goto {target : Option Nat} (reached : prog.Reaches block)
    (here : prog.At block pre insn) (control : insn.isControl) (knows : Knows m prog block pre env)
    (flows : ∀ t, target = some t → prog.Flows block t) :
    Leaves m prog block env (goto target) := by
  obtain ⟨post, split⟩ := here
  obtain rfl := wf.closed block pre insn post reached split control
  have defines : insn.defDst = none := by
    cases insn with
    | br | ja | exit => rfl
    | _ => cases control
  cases target with
  | none => exact leaves_ended
  | some t =>
    refine ⟨nofun, ?_⟩
    rintro _ ⟨⟩
    refine ⟨flows t rfl, ?_⟩
    rw [split]
    exact knows_same defines knows

/-- Folding cannot tell what an instruction defines that is no constant and never folds. -/
theorem unsettled (here : prog.At block pre insn) (defines : insn.defDst = some v) (varies : insn.constant = none)
    (unfolded : ∀ consts, foldValue consts insn = none) : ¬ prog.Settled v c := by
  intro settled
  rcases wf.settled_cases here defines settled with value | ⟨consts, _, folds⟩
  · rw [varies] at value
    cases value
  · rw [unfolded consts] at folds
    cases folds

/-- Folding tells of what a constant defines the value of the constant. -/
theorem settled_constant (here : prog.At block pre insn) (defines : insn.defDst = some v) (value : insn.constant = some x)
    (unfolded : ∀ consts, foldValue consts insn = none) (settled : prog.Settled v c) : x = c := by
  rcases wf.settled_cases here defines settled with value' | ⟨consts, _, folds⟩
  · exact Option.some.inj (value.symm.trans value')
  · rw [unfolded consts] at folds
    cases folds

theorem exec_binOp_knows {width : Width} {op : AluOp} {lhs rhs : SsaOperand} (world : World)
    (reached : prog.Reaches block) (here : prog.At block pre (.binOp dst width op lhs rhs))
    (known : ∀ u ∈ (SsaInsn.binOp dst width op lhs rhs).uses, Known m prog env u) (knows : Knows m prog block pre env) :
    (execInsn m (.binOp dst width op lhs rhs) env world).Satisfies
      (Knows m prog block (pre ++ [.binOp dst width op lhs rhs])) (Leaves m prog block env) := by
  have left : ∀ u ∈ lhs.uses, Known m prog env u := fun u use => known u (List.mem_append_left _ use)
  have right : ∀ u ∈ rhs.uses, Known m prog env u := fun u use => known u (List.mem_append_right _ use)
  obtain ⟨l, readL⟩ := operand_assigned left
  obtain ⟨r, readR⟩ := operand_assigned right
  simp only [execInsn, reading, readL, readR]
  split
  · exact leaves_ended
  · refine wf.knows_set reached here rfl knows nofun ?_ ?_
    · intro c settled
      rcases wf.settled_cases here rfl settled with value | ⟨consts, sound, folds⟩
      · cases value
      · exact (foldValue_eq folds
          (operand_settled left (fun u use => sound u (List.mem_append_left _ use)) readL)
          (operand_settled right (fun u use => sound u (List.mem_append_right _ use)) readR)).2.2
    · -- a 64-bit `mov` of a version copies it, and no other operation does
      intro u copies
      unfold copyOf at copies
      split at copies
      · rename_i moved
        cases moved
      · rename_i moved
        cases moved
        cases copies
        exact readR
      · rename_i moved
        cases moved
      · cases copies

theorem exec_br_knows {width : Width} {op : JumpOp} {lhs rhs : SsaOperand} {taken other : Option Nat} (world : World)
    (reached : prog.Reaches block) (here : prog.At block pre (.br width op lhs rhs taken other))
    (known : ∀ u ∈ (SsaInsn.br width op lhs rhs taken other).uses, Known m prog env u)
    (knows : Knows m prog block pre env) :
    (execInsn m (.br width op lhs rhs taken other) env world).Satisfies
      (Knows m prog block (pre ++ [.br width op lhs rhs taken other])) (Leaves m prog block env) := by
  obtain ⟨l, readL⟩ := operand_assigned (o := lhs) fun u use => known u (List.mem_append_left _ use)
  obtain ⟨r, readR⟩ := operand_assigned (o := rhs) fun u use => known u (List.mem_append_right _ use)
  simp only [execInsn, reading, readL, readR]
  refine wf.leaves_goto reached here rfl knows fun t target => ?_
  have edges := wf.targets _ _ _ reached here
  have ends := wf.terminator_eq reached here rfl
  split at target
  · rename_i takes
    subst target
    refine mem_liveSuccessors.mpr ⟨_, edges ⟨block, t, .branchTrue⟩ ?_, rfl, rfl, ?_⟩
    · simp [SsaInsn.jumpEdges]
    · -- the edge of a jump that is taken is not one that never is
      rintro ⟨never, _⟩
      unfold SsaProgram.deadTaken at never
      rw [ends] at never
      cases op with
      | call | exit => exact absurd takes (by cases width <;> exact Bool.false_ne_true)
      | _ => cases never
  · subst target
    refine mem_liveSuccessors.mpr ⟨_, edges ⟨block, t, .branchFalse⟩ ?_, rfl, rfl, nofun⟩
    simp [SsaInsn.jumpEdges]

/-- One instruction of a well-formed program is not stuck and keeps what is known. -/
theorem exec_knows (world : World) (reached : prog.Reaches block) (here : prog.At block pre insn)
    (plain : insn.isPhi = false) (knows : Knows m prog block pre env) :
    (execInsn m insn env world).Satisfies (Knows m prog block (pre ++ [insn]))
      (Leaves m prog block env) := by
  have known : ∀ u ∈ insn.uses, Known m prog env u := fun u use =>
    knows u (wf.uses _ _ _ reached here plain u use)
  cases insn with
  | const dst value | loadImm64 dst value =>
    exact wf.knows_set reached here rfl knows (fun y fixed => Option.some.inj fixed)
      (fun c settled => wf.settled_constant here rfl rfl (fun _ => rfl) settled) nofun
  | framePtr dst | entryCtx dst =>
    exact wf.knows_set reached here rfl knows (fun y fixed => Option.some.inj fixed)
      (fun c settled => absurd settled (wf.unsettled here rfl rfl fun _ => rfl)) nofun
  | copy dst src =>
    obtain ⟨x, read⟩ := (known src (List.mem_singleton.mpr rfl)).assigned
    simp only [execInsn, reading, read]
    refine wf.knows_set reached here rfl knows nofun
      (fun c settled => absurd settled (wf.unsettled here rfl rfl fun _ => rfl)) ?_
    rintro u ⟨⟩
    exact read
  | binOp dst width op lhs rhs => exact wf.exec_binOp_knows world reached here known knows
  | load dst size base offset =>
    obtain ⟨addr, read⟩ := (known base (List.mem_singleton.mpr rfl)).assigned
    simp only [execInsn, reading, read]
    cases world.memory.load (addr + offset.toInt64) size with
    | error e => exact leaves_ended
    | ok x =>
      cases dst with
      | none => exact knows_same rfl knows
      | some dst =>
        exact wf.knows_set reached here rfl knows nofun
          (fun c settled => absurd settled (wf.unsettled here rfl rfl fun _ => rfl)) nofun
  | store size base offset src =>
    obtain ⟨addr, readA⟩ := (known base List.mem_cons_self).assigned
    obtain ⟨x, readX⟩ := operand_assigned (o := src) fun u use => known u (List.mem_cons_of_mem _ use)
    simp only [execInsn, reading, readA, readX]
    cases world.memory.store (addr + offset.toInt64) size x with
    | error e => exact leaves_ended
    | ok memory => exact knows_same rfl knows
  | call dst func args =>
    obtain ⟨regs, read⟩ := args_assigned known
    simp only [execInsn, reading, read]
    cases m.helpers func with
    | none => exact leaves_ended
    | some helper =>
      dsimp only
      cases helper regs world with
      | error e => exact leaves_ended
      | ok r =>
        exact wf.knows_set reached here rfl knows nofun
          (fun c settled => absurd settled (wf.unsettled here rfl rfl fun _ => rfl)) nofun
  | phi dst inputs => cases plain
  | br width op lhs rhs taken other => exact wf.exec_br_knows world reached here known knows
  | ja target =>
    refine wf.leaves_goto reached here rfl knows fun t (same : some target = some t) => ?_
    cases same
    exact mem_liveSuccessors.mpr ⟨_, wf.targets _ _ _ reached here ⟨block, target, .unconditional⟩
      (List.mem_singleton.mpr rfl), rfl, rfl, nofun⟩
  | exit r0 =>
    obtain ⟨code, read⟩ := (known r0 (List.mem_singleton.mpr rfl)).assigned
    simp only [execInsn, reading, read]
    exact leaves_ended

end SsaProgram.WellFormed

end EbpfLab.Ssa
