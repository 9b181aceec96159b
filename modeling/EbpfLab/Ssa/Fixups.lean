import EbpfLab.Cfg.Slots
import EbpfLab.Isa.Patch
import EbpfLab.Ssa.Prepare

/-!
# Jump offsets

Where the offsets that lowering fills in lead: each jump lands on the code its target begins with, or
one past the last slot when no code is left there.
-/

namespace EbpfLab.Ssa
open Isa FlowGraph Library Interp

/-- Edges stay inside the graph, and jumps follow them. -/
structure Wired (prog : SsaProgram) : Prop where
  entry : prog.entry < prog.blocks.length
  inside : ∀ e ∈ prog.edges, e.target < prog.blocks.length
  jumps : ∀ block, ∀ i ∈ prog.insnsOf block, ∀ e ∈ i.jumpEdges block, e ∈ prog.edges

/-- The code from a target on: that of its block or trampoline and all that is emitted behind it. -/
def Output.Begins (out : Output) : Target → List Emitted → Prop
  | .block block, rest =>
    ∃ pos, out.layout[pos]? = some block ∧ rest = (out.blocks.drop pos).flatten ++ out.tramps.flatten
  | .tramp i, rest => i < out.tramps.length ∧ rest = (out.tramps.drop i).flatten
  | .fallOff, rest => rest = []

/-- The jump at an index names this slot. -/
def NamesSlot (insns : List Insn) (idx : Nat) (slot : Int) : Prop :=
  ∃ width op dst src offset s, insns[idx]? = some (.jump width op dst src offset) ∧
    (slotsFrom 0 insns)[idx]? = some s ∧ slot = s + 1 + offset.toInt

variable {petgraph : Petgraph} {prog : SsaProgram} {lower lower' : Lower} {out : Output} {insns list : List Insn}
  {insn : Insn} {insn' : SsaInsn} {target : Target} {item : Emitted} {rest : List Emitted} {live : List Bool}
  {order : List Nat} {block pred idx pos fuel : Nat}

theorem Regular.wired (regular : Regular prog) : Wired prog :=
  ⟨regular.entry, regular.inside, regular.jumps⟩

/-! ### Layout -/

theorem subset_followChain {current : Option Nat} :
    order ⊆ followChain prog live fuel current order := by
  induction fuel generalizing current order with
  | zero =>
    cases current <;> exact fun _ placed => placed
  | succ fuel ih =>
    cases current with
    | none => exact fun _ placed => placed
    | some block =>
      unfold followChain
      split
      · exact fun _ placed => placed
      · intro placed before
        exact ih (List.mem_append_left _ before)

theorem mem_followChain (alive : live.getD block false = true) :
    block ∈ followChain prog live (fuel + 1) (some block) order := by
  unfold followChain
  rw [alive]
  split
  · rename_i placed
    simpa using placed
  · exact subset_followChain (List.mem_append_right _ (List.mem_singleton.mpr rfl))

/-- Blocks placed once, all of them live. -/
structure Placed (live : List Bool) (order : List Nat) : Prop where
  nodup : order.Nodup
  alive : ∀ block ∈ order, live.getD block false = true

theorem Placed.followChain {current : Option Nat} (placed : Placed live order) :
    Placed live (followChain prog live fuel current order) := by
  induction fuel generalizing current order with
  | zero => cases current <;> exact placed
  | succ fuel ih =>
    cases current with
    | none => exact placed
    | some block =>
      unfold Ssa.followChain
      split
      · exact placed
      · rename_i fresh
        simp only [Bool.or_eq_true, Bool.not_eq_true', List.contains_iff_mem, not_or] at fresh
        refine ih ⟨List.nodup_append.mpr ⟨placed.nodup, List.nodup_singleton _, ?_⟩, fun other there => ?_⟩
        · rintro first before _ again rfl
          rw [List.mem_singleton.mp again] at before
          exact fresh.2 before
        · rcases List.mem_append.mp there with before | here
          · exact placed.alive other before
          · rw [List.mem_singleton.mp here]
            simpa using fresh.1

theorem layoutOf_placed : Placed live (layoutOf prog live) := by
  unfold layoutOf
  generalize prog.entry :: (List.range prog.blocks.length).filter (· ≠ prog.entry) = starts
  have start : Placed live [] := ⟨List.nodup_nil, nofun⟩
  generalize ([] : List Nat) = order at start
  induction starts generalizing order with
  | nil => exact start
  | cons first starts ih =>
    rw [List.foldl_cons]
    refine ih _ ?_
    split
    · exact start
    · exact start.followChain

/-- Every live block has a place. -/
theorem mem_layoutOf (alive : live.getD block false = true) (inside : block < prog.blocks.length) :
    block ∈ layoutOf prog live := by
  have start : block ∈ prog.entry :: (List.range prog.blocks.length).filter (· ≠ prog.entry) := by
    by_cases same : block = prog.entry
    · exact same ▸ List.mem_cons_self
    · exact List.mem_cons_of_mem _ (List.mem_filter.mpr ⟨List.mem_range.mpr inside, by simpa using same⟩)
  refine foldl_makes (block ∈ ·) (fun order start placed => ?_) (fun order => ?_) start
  · split
    · exact placed
    · exact subset_followChain placed
  · rw [alive]
    split
    · rename_i placed
      simpa using placed
    · exact mem_followChain alive

/-! ### Emitted targets -/

namespace Lower

/-- A target whose code is emitted. -/
def Emits (lower : Lower) : Target → Prop
  | .block block => lower.isLive block = true
  | .tramp i => i < lower.tramps.length
  | .fallOff => True

/-- An instruction with a target is a jump to code that is emitted. -/
def Aimed (lower : Lower) (item : Emitted) : Prop :=
  ∀ target, item.2 = some target →
    (∃ width op dst src, item.1 = .jump width op dst src 0) ∧ lower.Emits target

/-- Trampolines are recorded where they stand and lead to live blocks. -/
structure Tramped (alive : Nat → Bool) (lower : Lower) : Prop where
  lives : lower.isLive = alive
  recorded : ∀ entry ∈ lower.trampOf, entry.2 < lower.tramps.length
  targets : ∀ tramp ∈ lower.tramps, alive tramp.target = true

section

variable {alive : Nat → Bool}

theorem Tramped.pushTramp {placed : PlacedMove} (tramped : lower.Tramped alive)
    (here : alive block = true) : (lower.pushTramp pred block placed).Tramped alive := by
  unfold Lower.pushTramp
  split
  · refine ⟨tramped.lives, fun entry present => ?_, fun tramp present => ?_⟩
    · dsimp only
      rw [List.length_modify]
      exact tramped.recorded entry present
    · obtain ⟨i, found⟩ := List.mem_iff_getElem?.mp present
      dsimp only at found
      rw [List.getElem?_modify] at found
      obtain ⟨old, there, new⟩ := Option.map_eq_some_iff.mp found
      have same : tramp.target = old.target := by
        rw [← new]
        split <;> rfl
      rw [same]
      exact tramped.targets old (List.mem_of_getElem? there)
  · refine ⟨tramped.lives, fun entry present => ?_, fun tramp present => ?_⟩
    · rw [List.length_append, List.length_singleton]
      rcases List.mem_append.mp present with old | new
      · exact Nat.lt_succ_of_lt (tramped.recorded entry old)
      · rw [List.mem_singleton.mp new]
        exact Nat.lt_succ_self _
    · rcases List.mem_append.mp present with old | new
      · exact tramped.targets tramp old
      · rw [List.mem_singleton.mp new]
        exact here

theorem Tramped.placeInput {home : Reg} {input : Pred × SsaValue} (tramped : lower.Tramped alive)
    (here : alive block = true) (placed : lower.placeInput block home input = .ok lower') :
    lower'.Tramped alive := by
  unfold Lower.placeInput at placed
  split at placed
  · obtain ⟨src, _, placed⟩ := bind_eq_ok.mp placed
    split at placed
    · cases placed
      exact tramped
    · cases placed
  · split at placed
    · cases placed
      exact tramped
    · obtain ⟨src, _, placed⟩ := bind_eq_ok.mp placed
      dsimp only at placed
      split at placed
      · cases placed
        exact tramped.pushTramp here
      · cases placed
        exact ⟨tramped.lives, tramped.recorded, tramped.targets⟩

theorem Tramped.placePhi (tramped : lower.Tramped alive) (here : alive block = true)
    (placed : lower.placePhi block insn' = .ok lower') : lower'.Tramped alive := by
  cases insn' with
  | phi dst inputs =>
    unfold Lower.placePhi at placed
    dsimp only at placed
    split at placed
    · cases placed
      exact tramped
    · exact foldlM_keeps (fun _ _ _ _ good step => good.placeInput here step) tramped placed
  | _ =>
    cases placed
    exact tramped

end

end Lower

theorem prepare_tramped (ok : prepare petgraph prog = .ok lower) : lower.Tramped lower.isLive := by
  obtain ⟨homes, _, collected⟩ := bind_eq_ok.mp ok
  let start : Lower := .new prog homes (.compute petgraph prog)
  have empty : start.Tramped start.isLive := ⟨rfl, nofun, nofun⟩
  have kept : lower.Tramped start.isLive :=
    foldlM_keeps
      (fun _ _ listed _ good step =>
        foldlM_keeps (fun _ _ _ _ good step => good.placePhi (List.mem_filter.mp listed).2 step) good step)
      empty collected
  exact ⟨rfl, kept.recorded, fun tramp present => by rw [kept.lives]; exact kept.targets tramp present⟩

/-! ### Control -/

namespace Wired

variable (wired : Wired prog)
include wired

theorem flows {t : Nat} {kind : EdgeKind} (ends : prog.terminator block = some insn')
    (edge : ⟨block, t, kind⟩ ∈ insn'.jumpEdges block)
    (taken : insn'.neverTaken = true → kind ≠ .branchTrue) : prog.Flows block t := by
  rw [find_insnsOf] at ends
  refine mem_liveSuccessors.mpr
    ⟨_, wired.jumps block _ (List.mem_of_find?_eq_some ends) _ edge, rfl, rfl, ?_⟩
  rw [deadTaken_eq, find_insnsOf, ends]
  exact fun ⟨never, same⟩ => taken never same

theorem alive_of_flows {t : Nat} (prepared : Prepared petgraph prog lower) (here : lower.isLive block = true)
    (flows : prog.Flows block t) : lower.isLive t = true := by
  have reached := reaches_reached wired.entry wired.inside ((prepared.reaches here).step flows)
  have inside := List.mem_range.mp (liveSuccessors_inside wired.inside _ _ flows)
  unfold Lower.isLive
  rw [prepared.live]
  simp [Lower.liveBlocks, inside, reached]

end Wired

theorem untakenOf_eq {width : Width} {op : JumpOp} {lhs rhs : SsaOperand} {trueTarget falseTarget : Option Nat}
    (ends : lower.prog.terminator block = some (.br width op lhs rhs trueTarget falseTarget)) :
    lower.untakenOf block = falseTarget := by
  rw [find_insnsOf] at ends
  unfold Lower.untakenOf
  generalize lower.prog.insnsOf block = insns at ends
  induction insns with
  | nil => cases ends
  | cons insn insns ih =>
    rw [List.find?_cons] at ends
    rw [List.findSome?_cons]
    cases insn with
    | br =>
      cases ends
      rfl
    | ja | exit => cases ends
    | _ => exact ih ends

namespace Lower

theorem plain_aimed (present : item ∈ plain insns) : lower.Aimed item := by
  obtain ⟨insn, _, rfl⟩ := List.mem_map.mp present
  exact nofun

theorem emitJump_aimed (emits : lower.Emits target) (present : item ∈ emitJump target) :
    lower.Aimed item := by
  rw [List.mem_singleton.mp present]
  rintro _ ⟨⟩
  exact ⟨⟨_, _, _, _, rfl⟩, emits⟩

theorem jumpUnless_aimed {fallthrough : Option Target} (emits : lower.Emits target)
    (present : item ∈ jumpUnless fallthrough target) : lower.Aimed item := by
  unfold jumpUnless at present
  split at present
  · cases present
  · exact emitJump_aimed emits present

theorem emitCond_aimed {width : Width} {op : JumpOp} {lhs rhs : SsaOperand} {code : List Emitted}
    (emits : lower.Emits target) (emitted : lower.emitCond width op lhs rhs target = .ok code)
    (present : item ∈ code) : lower.Aimed item := by
  cases lhs with
  | imm k => cases emitted
  | value v =>
    obtain ⟨dst, _, emitted⟩ := bind_eq_ok.mp emitted
    obtain ⟨src, _, emitted⟩ := bind_eq_ok.mp emitted
    cases emitted
    rw [List.mem_singleton.mp present]
    rintro _ ⟨⟩
    exact ⟨⟨_, _, _, _, rfl⟩, emits⟩

/-- A condition that jumps to one side, with or without a jump to the other behind it. -/
theorem emitBranch_aimed {fallthrough : Option Target} {width : Width} {op : JumpOp}
    {lhs rhs : SsaOperand} {taken untaken : Target} {code : List Emitted} (takes : lower.Emits taken)
    (leaves : lower.Emits untaken)
    (emitted : lower.emitBranch fallthrough width op lhs rhs taken untaken = .ok code)
    (present : item ∈ code) : lower.Aimed item := by
  have both : ∀ {code}, (do
      let cond ← lower.emitCond width op lhs rhs taken
      .ok (cond ++ emitJump untaken) : Except SsaError (List Emitted)) = .ok code → item ∈ code →
      lower.Aimed item := by
    intro code emitted present
    obtain ⟨cond, first, emitted⟩ := bind_eq_ok.mp emitted
    cases emitted
    rcases List.mem_append.mp present with front | back
    · exact emitCond_aimed takes first front
    · exact emitJump_aimed leaves back
  unfold emitBranch at emitted
  split at emitted
  · cases emitted
    exact jumpUnless_aimed takes present
  split at emitted
  · exact emitCond_aimed takes emitted present
  split at emitted
  · split at emitted
    · exact emitCond_aimed leaves emitted present
    · exact both emitted present
  · exact both emitted present

/-- A successor is reached at its block or at the trampoline of its edge. -/
theorem resolveEdge_emits {succ : Option Nat} (tramped : lower.Tramped lower.isLive)
    (here : ∀ t, succ = some t → lower.isLive t = true) : lower.Emits (lower.resolveEdge block succ) := by
  cases succ with
  | none => exact trivial
  | some t =>
    unfold resolveEdge
    dsimp only
    split
    · rename_i i found
      obtain ⟨entry, recorded, rfl⟩ := Option.map_eq_some_iff.mp found
      exact tramped.recorded entry (List.mem_of_find?_eq_some recorded)
    · exact here t rfl

variable (wired : Wired prog) (prepared : Prepared petgraph prog lower) (tramped : lower.Tramped lower.isLive)
include wired prepared tramped

theorem emitControl_aimed {code : List Emitted} (here : lower.isLive block = true)
    (emitted : lower.emitControl block pos = .ok code) (present : item ∈ code) : lower.Aimed item := by
  have leads : ∀ {t}, prog.Flows block t → lower.isLive t = true :=
    wired.alive_of_flows prepared here
  unfold emitControl at emitted
  simp only [prepared.prog_eq] at emitted
  split at emitted
  · cases emitted
    refine jumpUnless_aimed (resolveEdge_emits tramped fun t first => leads ?_) present
    exact List.mem_of_mem_head? first
  · rename_i target ends
    cases emitted
    refine jumpUnless_aimed (resolveEdge_emits tramped fun t same => leads ?_) present
    cases same
    exact wired.flows ends (List.mem_singleton.mpr rfl) fun _ same => by cases same
  · rename_i width op lhs rhs trueTarget falseTarget ends
    have untaken : ∀ t, falseTarget = some t → lower.isLive t = true := by
      rintro t rfl
      have edge : ⟨block, t, .branchFalse⟩ ∈
          SsaInsn.jumpEdges block (.br width op lhs rhs trueTarget (some t)) := by simp [SsaInsn.jumpEdges]
      exact leads (wired.flows ends edge fun _ same => by cases same)
    split at emitted
    · cases emitted
      rw [untakenOf_eq (by rw [prepared.prog_eq]; exact ends)] at present
      exact jumpUnless_aimed (resolveEdge_emits tramped untaken) present
    · rename_i plain
      refine emitBranch_aimed (resolveEdge_emits tramped ?_) (resolveEdge_emits tramped untaken) emitted present
      rintro t rfl
      have edge : ⟨block, t, .branchTrue⟩ ∈
          SsaInsn.jumpEdges block (.br width op lhs rhs (some t) falseTarget) := by simp [SsaInsn.jumpEdges]
      refine leads (wired.flows ends edge fun never => absurd ?_ plain)
      cases op with
      | call => exact Or.inl rfl
      | exit => exact Or.inr rfl
      | _ => cases never
  · obtain ⟨home, _, emitted⟩ := bind_eq_ok.mp emitted
    cases emitted
    exact plain_aimed present
  · cases emitted
    cases present

theorem emitBlock_aimed {code : List Emitted} (here : lower.isLive block = true)
    (emitted : lower.emitBlock block pos = .ok code) (present : item ∈ code) : lower.Aimed item := by
  obtain ⟨data, _, emitted⟩ := bind_eq_ok.mp emitted
  obtain ⟨moves, _, emitted⟩ := bind_eq_ok.mp emitted
  obtain ⟨control, ends, emitted⟩ := bind_eq_ok.mp emitted
  cases emitted
  rcases List.mem_append.mp present with front | back
  · exact plain_aimed front
  · exact emitControl_aimed wired prepared tramped here ends back

omit wired prepared tramped in
theorem emitTramp_aimed {tramp : Trampoline} {code : List Emitted}
    (here : lower.Emits (.block tramp.target)) (emitted : emitTramp tramp = .ok code) : code ≠ [] ∧ ∀ item ∈ code, lower.Aimed item := by
  obtain ⟨moves, _, emitted⟩ := bind_eq_ok.mp emitted
  cases emitted
  refine ⟨by simp [emitJump], fun item present => ?_⟩
  rcases List.mem_append.mp present with front | back
  · exact plain_aimed front
  · exact emitJump_aimed here back

end Lower

/-- What is emitted for a prepared program: a part for each block of the layout and each trampoline,
with jumps to parts that are emitted. -/
structure Emission (lower : Lower) (out : Output) : Prop where
  layout : out.layout = lower.layout
  blocks : out.blocks.length = lower.layout.length
  tramps : out.tramps.length = lower.tramps.length
  nonempty : ∀ code ∈ out.tramps, code ≠ []
  aimed : ∀ item ∈ out.items, lower.Aimed item

theorem emitAll_emission (wired : Wired prog) (prepared : Prepared petgraph prog lower)
    (tramped : lower.Tramped lower.isLive) (emitted : lower.emitAll = .ok out) : Emission lower out := by
  obtain ⟨blocks, inBlocks, emitted⟩ := bind_eq_ok.mp emitted
  obtain ⟨tramps, inTramps, emitted⟩ := bind_eq_ok.mp emitted
  cases emitted
  have ofBlock : ∀ code ∈ blocks, ∀ item ∈ code, lower.Aimed item := by
    intro code listed item present
    obtain ⟨place, there, ran⟩ := mapM_mem inBlocks listed
    have placed := layoutOf_placed.alive place.1
      (by rw [← prepared.layout]; exact List.fst_mem_of_mem_zipIdx there)
    rw [← prepared.live] at placed
    exact Lower.emitBlock_aimed wired prepared tramped placed ran present
  have ofTramp : ∀ code ∈ tramps, code ≠ [] ∧ ∀ item ∈ code, lower.Aimed item := by
    intro code listed
    obtain ⟨tramp, there, ran⟩ := mapM_mem inTramps listed
    exact Lower.emitTramp_aimed (tramped.targets tramp there) ran
  refine ⟨rfl, ?_, (mapM_eq_ok inTramps).1, fun code listed => (ofTramp code listed).1, fun item present => ?_⟩
  · have many := (mapM_eq_ok inBlocks).1
    rwa [List.length_zipIdx] at many
  rcases List.mem_append.mp present with front | back
  · obtain ⟨code, listed, there⟩ := List.mem_flatten.mp front
    exact ofBlock code listed item there
  · obtain ⟨code, listed, there⟩ := List.mem_flatten.mp back
    exact (ofTramp code listed).2 item there

/-! ### Slots -/

namespace Output

/-- The emitted instructions, their offsets still open. -/
def code (out : Output) : List Insn := out.items.map Prod.fst

theorem slot_at (inside : idx ≤ out.items.length) :
    (out.slots[idx]?).getD out.total = slotCount (out.code.take idx) := by
  unfold slots
  rw [slotsFrom_getElem?, List.length_map, Nat.zero_add]
  split
  · rfl
  · have whole : idx = out.items.length := by omega
    rw [whole, code, List.take_of_length_le (by simp), Option.getD_none, total, slotCount, List.map_map]
    rfl

/-- Code split at the place a part begins. -/
theorem slot_split {front : List Emitted} (split : out.items = front ++ rest) :
    rest <:+ out.items ∧
      (out.slots[front.length]?).getD out.total = slotCount (out.code.take (out.items.length - rest.length)) := by
  have many : out.items.length = front.length + rest.length := by rw [split, List.length_append]
  refine ⟨⟨front, split.symm⟩, ?_⟩
  rw [slot_at (by omega), many, Nat.add_sub_cancel]

/-- A target's slot is that of the code it begins with. -/
theorem targetSlot_begins (nodup : out.layout.Nodup) (begins : out.Begins target rest) :
    rest <:+ out.items ∧ out.targetSlot target = slotCount (out.code.take (out.items.length - rest.length)) := by
  cases target with
  | block block =>
    obtain ⟨pos, placed, rfl⟩ := begins
    have split : out.items =
        (out.blocks.take pos).flatten ++ ((out.blocks.drop pos).flatten ++ out.tramps.flatten) := by
      rw [← List.append_assoc, ← List.flatten_append, List.take_append_drop]
      rfl
    have first : out.layout.idxOf? block = some pos := by
      obtain ⟨inside, rfl⟩ := List.getElem?_eq_some_iff.mp placed
      refine List.idxOf?_eq_some_iff.mpr ⟨inside, rfl, fun j before same => ?_⟩
      have again := (List.Nodup.getElem_inj_iff nodup).mp same
      omega
    have start : out.emittedAt block = some (out.blocks.take pos).flatten.length := by
      rw [emittedAt, first]
      rfl
    rw [targetSlot, start]
    exact slot_split split
  | tramp i =>
    obtain ⟨_, rfl⟩ := begins
    have split : out.items = (out.blocks.flatten ++ (out.tramps.take i).flatten) ++ (out.tramps.drop i).flatten := by
      rw [List.append_assoc, ← List.flatten_append, List.take_append_drop]
      rfl
    have start : (out.blocks.flatten ++ (out.tramps.take i).flatten).length = out.trampAt i := List.length_append
    rw [targetSlot, List.getD_eq_getElem?_getD, ← start]
    exact slot_split split
  | fallOff =>
    obtain rfl : rest = [] := begins
    have none : out.slots[out.items.length]? = none :=
      List.getElem?_eq_none (by simp [slots])
    have found := slot_split (List.append_nil out.items).symm
    rwa [none] at found

end Output

theorem resolveFixups_filled (resolved : out.resolveFixups = .ok list) :
    list.length = out.items.length ∧ ∀ idx item, out.items[idx]? = some item →
      ∃ filled, out.fixup idx item = .ok filled ∧ list[idx]? = some filled := by
  obtain ⟨many, each⟩ := mapM_eq_ok resolved
  refine ⟨by rwa [List.length_zipIdx] at many, fun idx item there => ?_⟩
  exact each idx (item, idx) (by rw [List.getElem?_zipIdx, there, Option.map_some, Nat.zero_add])

theorem fixup_width {filled : Insn} (ran : out.fixup idx item = .ok filled) :
    slotWidth filled = slotWidth item.1 := by
  unfold Output.fixup at ran
  split at ran
  · cases ran
    rfl
  · dsimp only at ran
    split at ran
    · split at ran
      · rename_i jump
        cases ran
        rw [jump]
        rfl
      · cases ran
        rfl
    · cases ran

/-- The offset filled in leads from behind the jump to the slot of its target. -/
theorem fixup_jump {width : Width} {op : JumpOp} {dst : Reg} {src : Operand} {filled : Insn}
    (ran : out.fixup idx (.jump width op dst src 0, some target) = .ok filled) :
    ∃ offset, filled = .jump width op dst src offset ∧
      (out.targetSlot target : Int) = out.slots.getD idx 0 + 1 + offset.toInt := by
  unfold Output.fixup at ran
  dsimp only at ran
  split at ran
  · rename_i fits
    cases ran
    refine ⟨_, rfl, ?_⟩
    rw [Int16.toInt_ofInt_of_le fits.1 fits.2]
    omega
  · cases ran

/-- Filling in offsets moves no instruction to another slot. -/
theorem resolveFixups_slots (resolved : out.resolveFixups = .ok list) (idx : Nat) :
    slotCount (list.take idx) = slotCount (out.code.take idx) := by
  obtain ⟨many, each⟩ := resolveFixups_filled resolved
  have widths : list.map slotWidth = out.code.map slotWidth := by
    refine List.ext_getElem? fun i => ?_
    simp only [Output.code, List.getElem?_map]
    cases there : out.items[i]? with
    | none =>
      have beyond : list[i]? = none := by
        rw [List.getElem?_eq_none_iff] at there ⊢
        omega
      rw [beyond]
      rfl
    | some item =>
      obtain ⟨filled, ran, found⟩ := each i item there
      rw [found]
      exact congrArg some (fixup_width ran)
  unfold slotCount
  rw [List.map_take, List.map_take, widths]

/-! ### Jumps -/

section

variable {i j slot s : Nat} {offset : Int16}

/-- A jump to a slot resolves by what starts there. -/
theorem resolve_slot (source : (slotsFrom 0 insns)[i]? = some s) (named : (slot : Int) = s + 1 + offset.toInt) :
    ((slotsFrom 0 insns)[j]? = some slot → resolve i offset (slotsFrom 0 insns) (slotTable none some insns) =
      if j < 2 ^ 32 then .ok j else .error (.oobJump slot)) ∧
    (slot = slotCount insns → resolve i offset (slotsFrom 0 insns) (slotTable none some insns) =
      .error (.oobJump slot)) := by
  have start : (slotsFrom 0 insns).getD i 0 = s := by simp [List.getD, source]
  have target : ((slotsFrom 0 insns).getD i 0 : Int) + 1 + offset.toInt = slot := by rw [start, named]
  simp only [resolve, target, Int.toNat_natCast]
  rw [if_neg (by omega)]
  constructor
  · intro found
    rw [(slotTable_eq_some_iff none some (by simp) (by simp)).mpr found]
    rfl
  · intro past
    rw [slotTable_getElem?, if_neg (by omega)]
    rfl

end

/-- The jump at an index of the finished list leads to the code its target begins with. -/
structure Lands (out : Output) (list : List Insn) (idx : Nat) (target : Target) (rest : List Emitted)
    (slot : Nat) : Prop where
  begins : out.Begins target rest
  behind : rest <:+ out.items
  names : NamesSlot list idx slot
  first : rest ≠ [] → (slotsFrom 0 list)[list.length - rest.length]? = some slot
  loaded : rest ≠ [] → list.length - rest.length < 2 ^ 32 →
    (load list)[idx]?.bind execTarget = some (list.length - rest.length)
  past : rest = [] → slot = slotCount list
  trapped : (load list)[idx]? = some (.trap (.oobJump (slotCount list))) ↔
    target = .fallOff ∨ (∃ block, target = .block block) ∧ rest = []
  wide : ∀ (i s : Nat) dst imm, list[i]? = some (.loadImm64 dst imm) → (slotsFrom 0 list)[i]? = some s →
    slot ≠ s + 1

theorem Emission.begins (wired : Wired prog) (prepared : Prepared petgraph prog lower) (emission : Emission lower out)
    (emits : lower.Emits target) :
    ∃ rest, out.Begins target rest ∧
      (rest = [] → target = .fallOff ∨ (∃ block, target = .block block) ∧ rest = []) := by
  cases target with
  | block block =>
    have reached := prepared.reaches emits
    have inside : block < prog.blocks.length := by
      cases reached with
      | root => exact wired.entry
      | step _ flows => exact List.mem_range.mp (liveSuccessors_inside wired.inside _ _ flows)
    have alive : lower.live.getD block false = true := emits
    rw [prepared.live] at alive
    obtain ⟨pos, placed⟩ := List.mem_iff_getElem?.mp (mem_layoutOf alive inside)
    refine ⟨_, ⟨pos, ?_, rfl⟩, fun empty => Or.inr ⟨⟨block, rfl⟩, empty⟩⟩
    rw [emission.layout, prepared.layout]
    exact placed
  | tramp i =>
    have inside : i < out.tramps.length := by
      rw [emission.tramps]
      exact emits
    refine ⟨_, ⟨inside, rfl⟩, fun empty => ?_⟩
    rw [List.drop_eq_getElem_cons inside, List.flatten_cons] at empty
    exact absurd (List.append_eq_nil_iff.mp empty).1 (emission.nonempty _ (List.getElem_mem inside))
  | fallOff => exact ⟨[], rfl, fun _ => Or.inl rfl⟩

/-- Every recorded jump lands on what it was recorded for, in slots counted without the bound of `u32`. -/
theorem fixups_land (wired : Wired prog) (lowered : Ssa.lower petgraph prog = .ok list) :
    ∃ lower out, prepare petgraph prog = .ok lower ∧ lower.emitAll = .ok out ∧ out.resolveFixups = .ok list ∧
      list.length = out.items.length ∧ out.layout.Nodup ∧
      ∀ idx insn target, out.items[idx]? = some (insn, some target) →
        ∃ rest slot, Lands out list idx target rest slot := by
  obtain ⟨lower, ok, lowered⟩ := bind_eq_ok.mp lowered
  obtain ⟨out, emitted, resolved⟩ := bind_eq_ok.mp lowered
  have prepared := prepare_prepared ok
  have emission := emitAll_emission wired prepared (prepare_tramped ok) emitted
  have nodup : out.layout.Nodup := by
    rw [emission.layout, prepared.layout]
    exact layoutOf_placed.nodup
  obtain ⟨many, each⟩ := resolveFixups_filled resolved
  refine ⟨lower, out, ok, emitted, resolved, many, nodup, fun idx insn target there => ?_⟩
  obtain ⟨⟨width, op, dst, src, rfl⟩, emits⟩ := emission.aimed _ (List.mem_of_getElem? there) _ rfl
  obtain ⟨rest, begins, tail⟩ := emission.begins wired prepared emits
  obtain ⟨behind, targetSlot⟩ := out.targetSlot_begins nodup begins
  obtain ⟨_, ran, found⟩ := each idx _ there
  obtain ⟨offset, rfl, offsets⟩ := fixup_jump ran
  have short : rest.length ≤ list.length := many ▸ behind.length_le
  have slot : out.targetSlot target = slotCount (list.take (list.length - rest.length)) := by
    rw [targetSlot, resolveFixups_slots resolved, many]
  have source : (slotsFrom 0 list)[idx]? = some (out.slots.getD idx 0) := by
    obtain ⟨inside, _⟩ := List.getElem?_eq_some_iff.mp found
    have inside' : idx < (out.items.map Prod.fst).length := by rw [List.length_map, ← many]; exact inside
    rw [Output.slots, List.getD_eq_getElem?_getD, slotsFrom_getElem?, slotsFrom_getElem?, if_pos inside,
      if_pos inside', resolveFixups_slots resolved]
    rfl
  have fetched : (load list)[idx]? = some (lowerOne idx (.jump width op dst src offset) (slotsFrom 0 list)
      (slotTable none some list)) := by rw [load_getElem?, found, Option.map_some]
  have first : rest ≠ [] → (slotsFrom 0 list)[list.length - rest.length]? = some (out.targetSlot target) := by
    intro more
    have some := List.length_pos_of_ne_nil more
    rw [slotsFrom_getElem?, if_pos (by omega), slot, Nat.zero_add]
  have past : rest = [] → out.targetSlot target = slotCount list := by
    rintro rfl
    rw [slot, List.length_nil, Nat.sub_zero, List.take_length]
  refine ⟨rest, out.targetSlot target, begins, behind, ⟨_, _, _, _, _, _, found, source, offsets⟩, first,
    fun more small => ?_, past, ⟨fun trapped => ?_, fun gone => ?_⟩, ?_⟩
  · have resolves := (resolve_slot source offsets).1 (first more)
    rw [if_pos small] at resolves
    rw [fetched, Option.bind_some]
    simp only [lowerOne, resolves]
    split
    · rfl
    · cases src <;> rfl
  · refine tail ?_
    by_contra more
    have resolves := (resolve_slot source offsets).1 (first more)
    have before := slotsFrom_upper (List.mem_of_getElem? (first more))
    rw [fetched, lowerOne, resolves] at trapped
    by_cases small : list.length - rest.length < 2 ^ 32
    · rw [if_pos small] at trapped
      dsimp only at trapped
      split at trapped
      · cases trapped
      · cases src <;> cases trapped
    · rw [if_neg small] at trapped
      have same := TrapKind.oobJump.inj (ExecInsn.trap.inj (Option.some.inj trapped))
      omega
  · have empty : rest = [] := by
      rcases gone with rfl | ⟨_, empty⟩
      · exact begins
      · exact empty
    have resolves := (@resolve_slot _ _ 0 _ _ _ source offsets).2 (past empty)
    rw [fetched]
    simp only [lowerOne, resolves, past empty]
  · intro i s dst' imm wide start
    obtain ⟨inside, _⟩ := List.getElem?_eq_some_iff.mp wide
    rw [slotsFrom_getElem?, if_pos inside, Nat.zero_add] at start
    rw [slot, ← Option.some.inj start]
    exact fun second => byteOffset_ne_trailing wide (congrArg (8 * ·) second)

/-- `r0 = 7 ll; if r1 != 0 goto -1; exit`. -/
def waiting : SsaProgram where
  blocks := [
    { insns := [.const 0 0, .framePtr 1, .entryCtx 2, .loadImm64 3 7], live := true },
    { insns := [.phi 4 [(some 1, 4), (some 0, 2)], .phi 5 [(some 1, 5), (some 0, 3)],
        .br .b64 .ne (.value 4) (.imm 0) (some 1) (some 2)]
      live := true },
    { insns := [.exit 5], live := true }]
  edges := [⟨0, 1, .fallthrough⟩, ⟨1, 1, .branchTrue⟩, ⟨1, 2, .branchFalse⟩]
  entry := 0
  defSites := [some (0, 0), some (0, 1), some (0, 2), some (0, 3), some (1, 0), some (1, 1)]

/-- The wide load takes two slots, so the trampoline behind the exit lies one slot further. -/
def waitingInsns : List Insn :=
  [.loadImm64 0 7, .alu .b64 .mov 2 (.reg 1), .alu .b64 .mov 3 (.reg 0), .jump .b64 .ne 2 (.imm 0) 2,
    .alu .b64 .mov 0 (.reg 3), .exit, .jump .b64 .always 0 (.imm 0) (-4)]

theorem waiting_produced : Produced waiting :=
  @Produced.built searching [.loadImm64 0 7, .jump .b64 .ne 1 (.imm 0) (-1), .exit]
    ⟨[⟨0, 1⟩, ⟨1, 2⟩, ⟨2, 3⟩], [⟨0, 1, .fallthrough⟩, ⟨1, 1, .branchTrue⟩, ⟨1, 2, .branchFalse⟩], 0,
      [0, 1, 2], [0, 2, 3], [0, 1, 2]⟩ 8 waiting searching_documented (by rfl) (by decide +kernel)

theorem fixups_land_waiting :
    ∃ lower out, prepare searching waiting = .ok lower ∧ lower.emitAll = .ok out ∧
      ∀ idx insn target, out.items[idx]? = some (insn, some target) →
        ∃ rest slot, Lands out waitingInsns idx target rest slot := by
  have lowered : Ssa.lower searching waiting = .ok waitingInsns := by decide +kernel
  obtain ⟨lower, out, ok, emitted, _, _, _, lands⟩ := fixups_land waiting_produced.regular.wired lowered
  exact ⟨lower, out, ok, emitted, lands⟩

end EbpfLab.Ssa
