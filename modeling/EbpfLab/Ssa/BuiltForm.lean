import EbpfLab.Ssa.Logged
import EbpfLab.Ssa.Meaning
import EbpfLab.Ssa.Optimize

/-!
# Built programs are well formed

What is inbound in a block is defined in its head, or in a block that dominates it: the only predecessor of
a block dominates it. So every version that an instruction reads is available there, and the passes of the
optimizer, which start from well-formed programs, may start from what the builder yields.
-/

namespace EbpfLab.Ssa
open Isa FlowGraph Library

variable {petgraph : Petgraph}
  {insns : List Insn} {cfg : Cfg} {targets : List (Option Nat)} {prog : SsaProgram} {block p q bound fuel : Nat}
  {reg : Reg} {v : SsaValue} {regOf : SsaValue → Reg} {inbound : Reg → SsaValue → Prop} {holds : Reg → SsaValue → Prop}
  {held after : Reg → Option SsaValue} {insn : Insn} {code : List Insn}
  {emitted phis body pre post : List SsaInsn} {i : SsaInsn} {live : Bool}

namespace Builder

variable {definition : Definition} {own : Owned} {b : Builder}

/-! ### What is rendered -/

theorem Stands.uses {src : Operand} {o : SsaOperand} (stands : Stands holds src o) (used : v ∈ o.uses) : ∃ r, holds r v := by
  cases stands with
  | reg held =>
    rw [List.mem_singleton.mp used]
    exact ⟨_, held⟩
  | imm => cases used

/-- What a rendered instruction reads holds a register. -/
theorem Renders.uses (renders : Renders cfg block holds insn emitted definition) (among : i ∈ emitted) (used : v ∈ i.uses) :
    ∃ r, holds r v := by
  have value : ∀ {r l : Nat} {reg : Reg}, holds reg l → r ∈ (SsaOperand.value l).uses → ∃ reg, holds reg r := by
    intro r l reg held listed
    rw [List.mem_singleton.mp listed]
    exact ⟨reg, held⟩
  cases renders with
  | aluSkip | wideSkip => cases among
  | copy plain source | loadSkip frame source | load plain source | exit source =>
    cases List.mem_singleton.mp among
    rw [List.mem_singleton.mp used]
    exact ⟨_, source⟩
  | alu plain left right | aluTrap frame bad left right | br conditional left right =>
    cases List.mem_singleton.mp among
    exact (List.mem_append.mp used).elim (value left) right.uses
  | wide plain | ja edge =>
    cases List.mem_singleton.mp among
    cases used
  | store target source =>
    cases List.mem_singleton.mp among
    rcases List.mem_cons.mp used with rfl | used
    · exact ⟨_, target⟩
    · exact source.uses used
  | @call func d a₁ a₂ a₃ a₄ a₅ first second third fourth fifth =>
    cases List.mem_singleton.mp among
    have listed : v ∈ [a₁, a₂, a₃, a₄, a₅] := used
    simp only [List.mem_cons, List.not_mem_nil, or_false] at listed
    rcases listed with rfl | rfl | rfl | rfl | rfl
    exacts [⟨1, first⟩, ⟨2, second⟩, ⟨3, third⟩, ⟨4, fourth⟩, ⟨5, fifth⟩]

theorem Renders.defines {d : Reg × SsaValue} (renders : Renders cfg block holds insn emitted definition)
    (defines : definition = some d) : d.2 ∈ defs emitted := by
  cases renders <;> cases defines <;> exact List.mem_singleton.mpr rfl

/-- A control op is all that its instruction emits. -/
theorem Renders.control (renders : Renders cfg block holds insn emitted definition) (split : emitted = pre ++ i :: post)
    (control : i.isControl) : endsBlock insn = true ∧ post = [] := by
  have among : i ∈ emitted := split ▸ List.mem_append_right _ List.mem_cons_self
  have short : emitted.length ≤ 1 := by cases renders <;> simp
  refine ⟨?_, ?_⟩
  · cases renders <;> first | rfl | (cases among; done) | (cases List.mem_singleton.mp among; cases control)
  · rw [split, List.length_append, List.length_cons] at short
    exact List.eq_nil_of_length_eq_zero (by omega)

/-- A place of two lists together is a place of the first or of the second. -/
theorem split_append {α : Type} {xs ys pre post : List α} {x : α} (same : xs ++ ys = pre ++ x :: post) :
    (∃ mid, pre = xs ++ mid ∧ ys = mid ++ x :: post) ∨ ∃ mid, xs = pre ++ x :: mid ∧ post = mid ++ ys := by
  rcases List.append_eq_append_iff.mp same with ⟨mid, front, back⟩ | ⟨mid, front, back⟩
  · exact Or.inl ⟨mid, front, back⟩
  · cases mid with
    | nil => exact Or.inl ⟨[], by simpa using front.symm, back.symm⟩
    | cons y mid =>
      obtain ⟨rfl, rest⟩ := List.cons.inj back
      exact Or.inr ⟨mid, front, rest⟩

/-- What an instruction of a body reads is defined before it there, or holds a register where it begins. -/
theorem RendersAll.uses (renders : RendersAll cfg block regOf bound inbound held code body after)
    (split : body = pre ++ i :: post) (used : v ∈ i.uses) : v ∈ defs pre ∨ ∃ r, Held inbound held r v := by
  induction renders generalizing pre with
  | nil => simp at split
  | @cons held after insn code emitted body definition first names rest ih =>
    rcases split_append split with ⟨mid, rfl, behind⟩ | ⟨mid, here, _⟩
    · rcases ih behind with early | ⟨r, holds⟩
      · exact Or.inl (by rw [defs_append]; exact List.mem_append_right _ early)
      · cases definition with
        | none => exact Or.inr ⟨r, holds⟩
        | some d =>
          -- the version is the one this instruction defines, or it held the register before
          by_cases here : r = d.1
          · have newest : redefine held (some d) r = some d.2 := by rw [here]; exact Function.update_self ..
            rcases holds with owns | ⟨unowned, _⟩
            · rw [newest] at owns
              cases owns
              have defined : d.2 ∈ defs emitted := Renders.defines first rfl
              exact Or.inl (by rw [defs_append]; exact List.mem_append_left _ defined)
            · rw [newest] at unowned
              cases unowned
          · have older : redefine held (some d) r = held r := Function.update_of_ne here _ _
            unfold Held at holds
            rw [older] at holds
            exact Or.inr ⟨r, holds⟩
    · exact Or.inr (first.uses (here ▸ List.mem_append_right _ List.mem_cons_self) used)

/-- A version the body holds behind it is defined in it, or it held the register where the body begins. -/
theorem RendersAll.owns (renders : RendersAll cfg block regOf bound inbound held code body after)
    (owned : after reg = some v) : v ∈ defs body ∨ held reg = some v := by
  induction renders with
  | nil => exact Or.inr owned
  | @cons held after insn code emitted body definition first names rest ih =>
    rw [defs_append]
    rcases ih owned with late | before
    · exact Or.inl (List.mem_append_right _ late)
    · cases definition with
      | none => exact Or.inr before
      | some d =>
        by_cases here : reg = d.1
        · have newest : redefine held (some d) reg = some d.2 := by rw [here]; exact Function.update_self ..
          rw [newest] at before
          cases before
          have defined : d.2 ∈ defs emitted := Renders.defines first rfl
          exact Or.inl (List.mem_append_left _ defined)
        · have older : redefine held (some d) reg = held reg := Function.update_of_ne here _ _
          exact Or.inr (older ▸ before)

/-- Control ops close a body where what ends a block closes its code. -/
theorem RendersAll.closes (renders : RendersAll cfg block regOf bound inbound held code body after)
    (last : ∀ front insn back, code = front ++ insn :: back → endsBlock insn = true → back = [])
    (split : body = pre ++ i :: post) (control : i.isControl) : post = [] := by
  induction renders generalizing pre with
  | nil => simp at split
  | @cons held after insn code emitted body definition first names rest ih =>
    rcases split_append split with ⟨mid, rfl, behind⟩ | ⟨mid, here, rfl⟩
    · refine ih (fun front insn' back same => ?_) behind
      exact last (insn :: front) insn' back (by rw [same]; rfl)
    · obtain ⟨ends, rfl⟩ := first.control here control
      obtain rfl := last [] insn code rfl ends
      cases rest
      rfl

/-! ### Where versions are available -/

theorem defs_pseudo_entry : defs (pseudo cfg cfg.entry) = [0, 1, 2] := by
  unfold pseudo
  rw [if_pos rfl]
  rfl

theorem entryVersion_listed (reg : Reg) : entryVersion reg ∈ defs (pseudo cfg cfg.entry) := by
  rw [defs_pseudo_entry]
  unfold entryVersion
  split
  · simp
  · split <;> simp

theorem pseudo_values (among : i ∈ pseudo cfg p) :
    i.isEntryValue = true ∧ i.isPhi = false ∧ i.isControl = false ∧ i.uses = [] ∧ p = cfg.entry := by
  unfold pseudo at among
  split at among
  · rename_i here
    simp only [List.mem_cons, List.not_mem_nil, or_false] at among
    rcases among with rfl | rfl | rfl <;> exact ⟨rfl, rfl, rfl, rfl, here⟩
  · cases among

/-- An instruction of a block is an entry value, a phi, or one of the rendered ones. -/
theorem Parts.place (split : pseudo cfg p ++ phis ++ body = pre ++ i :: post) :
    i ∈ pseudo cfg p ∨ (∃ mid, pre = pseudo cfg p ++ mid ∧ i ∈ phis) ∨
      ∃ mid, pre = pseudo cfg p ++ phis ++ mid ∧ body = mid ++ i :: post := by
  rcases split_append split with late | ⟨mid, head, _⟩
  · exact Or.inr (Or.inr late)
  · rcases split_append head with ⟨mid, front, back⟩ | ⟨mid, front, _⟩
    · exact Or.inr (Or.inl ⟨mid, front, back ▸ List.mem_append_right _ List.mem_cons_self⟩)
    · exact Or.inl (front ▸ List.mem_append_right _ List.mem_cons_self)

theorem Parts.place_phi {inputs : List (Pred × SsaValue)} (parts : Parts insns cfg regOf own b p phis body)
    (split : pseudo cfg p ++ phis ++ body = pre ++ .phi v inputs :: post) :
    (∃ mid, pre = pseudo cfg p ++ mid) ∧ .phi v inputs ∈ phis := by
  rcases Parts.place split with early | ⟨mid, front, among⟩ | ⟨mid, _, behind⟩
  · cases (pseudo_values early).2.1
  · exact ⟨⟨mid, front⟩, among⟩
  · cases parts.code.plain (.phi v inputs) (behind ▸ List.mem_append_right _ List.mem_cons_self)

/-- What ends a block closes its code. -/
theorem codeOf_closed (graph : Built insns cfg targets) {front back : List Insn} (split : codeOf insns cfg p = front ++ insn :: back)
    (ends : endsBlock insn = true) : back = [] := by
  cases found : cfg.blocks[p]? with
  | none =>
    have empty : codeOf insns cfg p = [] := by
      rw [codeOf, List.getD_eq_getElem?_getD, found]
      simp
    rw [empty] at split
    simp at split
  | some range =>
    have at_ : (codeOf insns cfg p)[front.length]? = some insn := by rw [split]; simp
    have here : cfg.blocks.getD p ⟨0, 0⟩ = range := by rw [List.getD_eq_getElem?_getD, found]; rfl
    have length := congrArg List.length split
    have inside := (List.getElem?_eq_some_iff.mp at_).1
    rw [codeOf, here, List.length_take, List.length_drop] at length inside
    rw [codeOf_getElem? found (by omega)] at at_
    have last := graph.ends_last (List.mem_of_getElem? found) (Nat.le_add_right _ front.length) (by omega) at_ ends
    simp only [List.length_append, List.length_cons] at length
    exact List.eq_nil_of_length_eq_zero (by omega)

namespace Assembled

variable (assembled : Assembled insns cfg regOf own b prog)
include assembled

theorem flows_pred (flows : prog.Flows q p) : q ∈ cfg.preds p := by
  obtain ⟨e, present, source, target, _⟩ := mem_liveSuccessors.mp flows
  rw [assembled.edges] at present
  exact List.mem_map.mpr ⟨e, Cfg.mem_inEdges.mpr ⟨present, target⟩, source⟩

theorem reaches (reached : prog.Reaches p) : cfg.Reaches p := by
  induction reached with
  | root =>
    rw [assembled.entry]
    exact .root
  | @step q p _ flows ih =>
    obtain ⟨e, present, source, target, _⟩ := mem_liveSuccessors.mp flows
    rw [assembled.edges] at present
    refine ih.step ?_
    simp only [neighbors, List.mem_map, List.mem_reverse, List.mem_filter, beq_iff_eq]
    exact ⟨e, ⟨present, source⟩, target⟩

/-- The only predecessor of a block that is not the entry dominates it. -/
theorem dominates (away : p ≠ cfg.entry) (single : cfg.preds p = [q]) (reached : prog.Reaches p) :
    prog.Dominates q p ∧ prog.Reaches q := by
  have only : ∀ q', prog.Flows q' p → q' = q := fun q' flows =>
    List.mem_singleton.mp (single ▸ assembled.flows_pred flows)
  have dom : prog.Dominates q p := .of_single only (assembled.entry ▸ away) reached
  exact ⟨dom, dom.reached reached⟩

/-- An inbound version is defined in the head of the block, or in a block that dominates it. -/
theorem inbound_available (open_entry : ∀ q, cfg.preds cfg.entry = [q] → q = cfg.entry)
    (held : Inbound cfg regOf own b p reg v) (reached : prog.Reaches p)
    (found : prog.blocks[p]? = some ⟨pseudo cfg p ++ phis ++ body, live⟩) (parts : Parts insns cfg regOf own b p phis body) :
    prog.Available p (pseudo cfg p ++ phis) v := by
  induction held generalizing phis body live with
  | phi there =>
    obtain ⟨inputs', among⟩ := parts.stands _ _ _ there
    exact Or.inl (mem_defs.mpr ⟨_, List.mem_append_right _ among, rfl⟩)
  | entry => exact Or.inl (by rw [defs_append]; exact List.mem_append_left _ (entryVersion_listed _))
  | @alone p reg only done unowned =>
    by_cases here : p = cfg.entry
    · subst here
      exact Or.inl (by rw [defs_append]; exact List.mem_append_left _ (entryVersion_listed _))
    · exact absurd rfl (assembled.dominates here only reached).1.different
  | @owned p q reg v other single done owns =>
    obtain ⟨dom, before⟩ := assembled.dominates (ne_entry open_entry other single) single reached
    obtain ⟨phis', body', live', found', parts'⟩ := assembled.blocks q (assembled.reaches before)
    refine Or.inr ⟨q, dom, ?_⟩
    rw [SsaProgram.insnsOf_eq found', defs_append]
    exact List.mem_append_right _ ((parts'.code.owns owns).resolve_right nofun)
  | @through p q reg v other single done unowned _ ih =>
    obtain ⟨dom, before⟩ := assembled.dominates (ne_entry open_entry other single) single reached
    obtain ⟨phis', body', live', found', parts'⟩ := assembled.blocks q (assembled.reaches before)
    rcases ih before found' parts' with head | ⟨d, above, defined⟩
    · refine Or.inr ⟨q, dom, ?_⟩
      rw [SsaProgram.insnsOf_eq found', defs_append]
      exact List.mem_append_left _ head
    · exact Or.inr ⟨d, above.trans dom reached, defined⟩

/-- What a block sends out is available at its end. -/
theorem outbound_available (open_entry : ∀ q, cfg.preds cfg.entry = [q] → q = cfg.entry)
    (held : Outbound cfg regOf own b p reg v) (reached : prog.Reaches p) :
    prog.Available p (prog.insnsOf p) v := by
  obtain ⟨phis, body, live, found, parts⟩ := assembled.blocks p (assembled.reaches reached)
  rw [SsaProgram.insnsOf_eq found]
  rcases held.2 with owns | ⟨_, inbound⟩
  · refine Or.inl ?_
    rw [defs_append]
    exact List.mem_append_right _ ((parts.code.owns owns).resolve_right nofun)
  · exact (assembled.inbound_available open_entry inbound reached found parts).later

/-! ### The program -/

theorem incoming (block : Nat) (loops : block = cfg.entry → entryLoop cfg = true) :
    ((((if block = cfg.entry ∧ entryLoop cfg then [none] else []) ++ (cfg.preds block).map some : List Pred)).filter
      prog.predLive).Perm (prog.incoming block) := by
  have inner : ((cfg.preds block).map some : List Pred).filter prog.predLive =
      ((prog.edges.filter fun e => e.target == block && prog.isLive e.source).map fun e => some e.source).reverse := by
    rw [assembled.edges, Cfg.preds, Cfg.inEdges, List.map_map, List.filter_map, List.filter_reverse, List.filter_filter,
      List.map_reverse]
    refine congrArg (fun edges => (List.map _ edges).reverse) (List.filter_congr fun e _ => ?_)
    rw [Bool.and_comm]
    rfl
  rw [List.filter_append, inner]
  unfold SsaProgram.incoming
  rw [assembled.entry]
  by_cases here : block = cfg.entry
  · rw [if_pos ⟨here, loops here⟩, if_pos here]
    exact List.perm_append_comm.trans ((List.reverse_perm _).append_right _)
  · rw [if_neg fun both => here both.1, if_neg here]
    rw [List.append_nil]
    exact List.reverse_perm _

/-- A built program is well formed, given what is known of it apart from its versions. -/
theorem wellFormed (graph : Built insns cfg targets) (open_entry : ∀ q, cfg.preds cfg.entry = [q] → q = cfg.entry)
    (regular : Regular prog)
    (recorded : ∀ block pre insn v, prog.At block pre insn → insn.defDst = some v →
      prog.defSites[v]? = some (some (block, pre.length))) : prog.WellFormed where
  inside := regular.inside
  live := regular.live
  single := by
    have code := regular.distinct.single
    unfold SsaProgram.code defs at code
    rwa [List.filterMap_flatMap] at code
  recorded block pre insn v _ here defines := recorded block pre insn v here defines
  leads block reached := by
    obtain ⟨phis, body, live, found, parts⟩ := assembled.blocks block (assembled.reaches reached)
    refine ⟨pseudo cfg block, phis, body, SsaProgram.insnsOf_eq found, fun i among => (pseudo_values among).1,
      fun some_ => ?_, parts.merges, parts.code.plain⟩
    obtain ⟨i, among⟩ := List.exists_mem_of_ne_nil _ some_
    exact (pseudo_values among).2.2.2.2.trans assembled.entry.symm
  closed block pre insn post reached split control := by
    obtain ⟨phis, body, live, found, parts⟩ := assembled.blocks block (assembled.reaches reached)
    rw [SsaProgram.insnsOf_eq found] at split
    rcases Parts.place split with among | ⟨_, _, among⟩ | ⟨mid, _, behind⟩
    · rw [(pseudo_values among).2.2.1] at control
      cases control
    · have phi := parts.merges insn among
      cases insn with
      | phi => cases control
      | _ => cases phi
    · exact parts.code.closes (fun front insn' back => codeOf_closed graph) behind control
  targets block pre insn reached here e jumps := regular.jumps block insn here.mem e jumps
  uses block pre insn reached here plain v used := by
    obtain ⟨post, split⟩ := here
    obtain ⟨phis, body, live, found, parts⟩ := assembled.blocks block (assembled.reaches reached)
    rw [SsaProgram.insnsOf_eq found] at split
    rcases Parts.place split with among | ⟨_, _, among⟩ | ⟨mid, rfl, behind⟩
    · rw [(pseudo_values among).2.2.2.1] at used
      cases used
    · rw [parts.merges insn among] at plain
      cases plain
    · rcases parts.code.uses behind used with early | ⟨r, owns | ⟨_, inbound⟩⟩
      · exact Or.inl (by rw [defs_append]; exact List.mem_append_right _ early)
      · cases owns
      · exact (assembled.inbound_available open_entry inbound reached found parts).later
  inputs block pre dst inputs reached here := by
    obtain ⟨post, split⟩ := here
    obtain ⟨phis, body, live, found, parts⟩ := assembled.blocks block (assembled.reaches reached)
    rw [SsaProgram.insnsOf_eq found] at split
    obtain ⟨_, among⟩ := parts.place_phi split
    have loops : block = cfg.entry → entryLoop cfg = true := by
      intro here
      by_contra once
      rw [parts.first here (by simpa using once)] at among
      cases among
    have filtered : (inputs.filter fun input => prog.predLive input.1).map Prod.fst =
        (inputs.map Prod.fst).filter prog.predLive := by
      rw [List.filter_map]
      rfl
    rw [filtered, parts.edges dst inputs among]
    exact assembled.incoming block loops
  inputUses block pre dst inputs reached here p v input before := by
    obtain ⟨post, split⟩ := here
    obtain ⟨phis, body, live, found, parts⟩ := assembled.blocks block (assembled.reaches reached)
    rw [SsaProgram.insnsOf_eq found] at split
    obtain ⟨_, among⟩ := parts.place_phi split
    have full : b.isFilled p := (assembled.filled p).mpr (assembled.reaches before)
    exact assembled.outbound_available open_entry (parts.sends dst inputs p v among input full) before
  startUses block pre dst inputs reached here v input := by
    obtain ⟨post, split⟩ := here
    obtain ⟨phis, body, live, found, parts⟩ := assembled.blocks block (assembled.reaches reached)
    rw [SsaProgram.insnsOf_eq found] at split
    obtain ⟨⟨mid, rfl⟩, among⟩ := parts.place_phi split
    obtain rfl : block = cfg.entry := by
      have first : (none : Pred) ∈ inputs.map Prod.fst := List.mem_map.mpr ⟨_, input, rfl⟩
      rw [parts.edges dst inputs among] at first
      by_contra away
      rw [if_neg fun both => away both.1, List.nil_append] at first
      obtain ⟨q, _, none_⟩ := List.mem_map.mp first
      cases none_
    rw [parts.starts dst inputs v among input]
    have first : entryVersion (regOf dst) ∈ defs (pseudo cfg cfg.entry) := entryVersion_listed (regOf dst)
    obtain ⟨i, listed, defines⟩ := mem_defs.mp first
    exact ⟨i, List.mem_append_left _ listed, (pseudo_values listed).1, defines⟩

end Assembled

end Builder

open Interp

theorem buildSsa_form (documented : petgraph.Documented) (graph : buildCfg petgraph insns = .ok cfg)
    (open_entry : ∀ q, cfg.preds cfg.entry = [q] → q = cfg.entry)
    (built : buildSsa insns cfg = some (.ok prog)) : prog.WellFormed := by
  obtain ⟨targets, parts⟩ := buildCfg_built graph
  obtain ⟨b, regOf, own, assembled⟩ := buildSsaWith_assembled documented graph (Nat.lt_add_of_pos_right (by decide)) built
  exact assembled.wellFormed parts open_entry (buildSsaWith_regular documented graph built)
    fun block pre insn v => buildSsaWith_recorded built

/-- The builder yields well-formed programs, unless the only edge into the entry comes from another block: every
version has one definition, at its recorded place, which dominates its uses, and every phi has the inputs of its
block. However the passes are then applied, the programs stay well formed. Versions are counted without the bound
of `u32`. -/
theorem buildSsa_wellFormed (documented : petgraph.Documented) (graph : buildCfg petgraph insns = .ok cfg)
    (open_entry : ∀ q, cfg.preds cfg.entry = [q] → q = cfg.entry) (built : buildSsa insns cfg = some (.ok prog)) :
    prog.WellFormed ∧ ∀ prog' consts, Meets prog prog' consts → prog'.WellFormed :=
  have wf := buildSsa_form documented graph open_entry built
  ⟨wf, fun _ _ meets => (meets.keeps_all wf).1.wellFormed⟩

theorem buildSsa_wellFormed_spilling :
    spillingSsa.WellFormed ∧ ∀ prog' consts, Meets spillingSsa prog' consts → prog'.WellFormed := by
  have graph : buildCfg searching spilling = .ok spillingCfg := by rfl
  have built : buildSsa spilling spillingCfg = some (.ok spillingSsa) := by decide +kernel
  exact buildSsa_wellFormed searching_documented graph (fun q single => by cases single) built

/-- The pipeline up to the lowering preserves what a program means: what is built of decoded code optimizes, in enough
rounds, to a well-formed program that shows what a machine shows that runs the code. Versions are counted without
the bound of `u32`. -/
theorem optimize_means {vm : Vm} {bytes : List UInt8} (decoded : decodeProgram bytes = .ok insns)
    (documented : petgraph.Documented) (graph : buildCfg petgraph insns = .ok cfg)
    (open_entry : ∀ q, cfg.preds cfg.entry = [q] → q = cfg.entry)
    (built : buildSsa insns cfg = some (.ok prog)) (loaded : vm.Loaded insns) (start : vm.pc = 0) {ctx : Int64}
    (regs : vm.regs = Regs.zeroedWithFramePointer.write 1 ctx)
    (conventional : ∀ func helper, vm.helpers func = some helper → Conventional helper) :
    ∃ rounds out, (∀ more, rounds ≤ more → optimize more prog = some out) ∧ out.WellFormed ∧
      (∀ fuel, ∃ steps, fuel ≤ steps ∧ showing steps vm = run ⟨vm.helpers, ctx⟩ out vm.toWorld fuel) ∧
        ∀ limit code, (vm.run limit).2 = .ok code → (run ⟨vm.helpers, ctx⟩ out vm.toWorld limit).2 = .ended (.exit code) := by
  obtain ⟨rounds, out, ends, keeps⟩ := optimize_ends (buildSsa_form documented graph open_entry built)
  have shows := buildSsa_shows documented graph open_entry built (decoded_swaps decoded) loaded start regs conventional
  refine ⟨rounds, out, ends, keeps.wellFormed, fun fuel => ?_, fun limit code exits => ?_⟩
  · obtain ⟨steps, enough, same⟩ := shows fuel
    exact ⟨steps, enough, same.trans (keeps.runs _ _ _).symm⟩
  · obtain ⟨steps, enough, same⟩ := shows limit
    have ended : (showing limit vm).2 = .ended (.exit code) := showing_exit.mpr exits
    obtain ⟨more, rfl⟩ := Nat.exists_eq_add_of_le enough
    rw [keeps.runs, ← same, showing_ended ended, ended]

theorem optimize_means_spilling :
    ∃ rounds out, (∀ more, rounds ≤ more → optimize more spillingSsa = some out) ∧ out.WellFormed ∧
      (∀ fuel, ∃ steps, fuel ≤ steps ∧
        showing steps (Vm.new spilling) = run ⟨.empty, 0⟩ out (Vm.new spilling).toWorld fuel) ∧
        ∀ limit code, ((Vm.new spilling).run limit).2 = .ok code →
          (run ⟨.empty, 0⟩ out (Vm.new spilling).toWorld limit).2 = .ended (.exit code) := by
  have decoded : decodeProgram spillingBytes = .ok spilling := by decide +kernel
  have graph : buildCfg searching spilling = .ok spillingCfg := by rfl
  have built : buildSsa spilling spillingCfg = some (.ok spillingSsa) := by decide +kernel
  have regs : (Vm.new spilling).regs = Regs.zeroedWithFramePointer.write 1 0 := by
    funext r
    by_cases first : r = 1
    · subst first
      rfl
    · simp [Vm.new, Regs.write, first]
  have loaded : (Vm.new spilling).Loaded spilling := rfl
  exact optimize_means decoded searching_documented graph (fun q single => by cases single) built loaded rfl regs
    fun _ _ known => by cases known

end EbpfLab.Ssa
