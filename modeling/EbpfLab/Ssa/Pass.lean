import EbpfLab.Ssa.Arrival

/-!
# Passes

A pass drops instructions whose versions nothing kept uses and replaces others by instructions that
do the same where they stand. Such a pass keeps programs well formed and does not change their runs.
-/

namespace EbpfLab.Ssa
open Isa FlowGraph Library Interp

/-- A list with some instructions dropped and the others replaced. -/
inductive Thinned (same : SsaInsn → SsaInsn → Prop) (drop : SsaInsn → Prop) :
    List SsaInsn → List SsaInsn → Prop
  | nil : Thinned same drop [] []
  | keep {i i' : SsaInsn} {rest rest' : List SsaInsn} (alike : same i i')
      (thinned : Thinned same drop rest rest') : Thinned same drop (i :: rest) (i' :: rest')
  | drop {i : SsaInsn} {rest rest' : List SsaInsn} (gone : drop i)
      (thinned : Thinned same drop rest rest') : Thinned same drop (i :: rest) rest'

/-- The branches that are never taken. -/
def SsaInsn.neverTaken : SsaInsn → Bool
  | .br _ .call _ _ _ _ | .br _ .exit _ _ _ _ => true
  | _ => false

/-- A replacement that defines the same version and leaves its block alike. -/
structure SameShape (i i' : SsaInsn) : Prop where
  defDst : i'.defDst = i.defDst
  isPhi : i'.isPhi = i.isPhi
  isControl : i'.isControl = i.isControl
  jumpEdges : ∀ block, i'.jumpEdges block = i.jumpEdges block
  neverTaken : i'.neverTaken = i.neverTaken
  isEntryValue : i.isEntryValue → i'.isEntryValue

/-- A version that still has a definition. -/
def Kept (prog : SsaProgram) (v : SsaValue) : Prop := ∃ d, v ∈ defs (prog.insnsOf d)

/-- What a pass does to the instructions and blocks of a program. -/
structure Pass (prog prog' : SsaProgram) (same : SsaInsn → SsaInsn → Prop) (drop : SsaInsn → Prop) :
    Prop where
  length : prog'.blocks.length = prog.blocks.length
  edges : prog'.edges = prog.edges
  entry : prog'.entry = prog.entry
  lives : ∀ block, prog.Reaches block → prog'.isLive block
  dies : ∀ block, prog'.isLive block → prog.isLive block
  fewer : ∀ block, (defs (prog'.insnsOf block)).Sublist (defs (prog.insnsOf block))
  recorded : ∀ block pre insn v, prog'.isLive block → prog'.At block pre insn →
    insn.defDst = some v → prog'.defSites[v]? = some (some (block, pre.length))
  thinned : ∀ block, prog.Reaches block →
    Thinned same drop (prog.insnsOf block) (prog'.insnsOf block)
  shape : ∀ i i', same i i' → SameShape i i'
  plain : ∀ i, drop i → i.isControl = false
  unkept : ∀ i v, drop i → i.defDst = some v → ¬ Kept prog' v
  uses : ∀ block pre i i', prog.Reaches block → prog.At block pre i → same i i' → i.isPhi = false →
    ∀ v ∈ i'.uses, prog.Available block pre v ∧ Kept prog' v
  phis : ∀ block pre dst inputs i', prog.Reaches block → prog.At block pre (.phi dst inputs) →
    same (.phi dst inputs) i' → ∃ inputs', i' = .phi dst inputs' ∧
      (inputs'.filter fun input => prog'.predLive input.1).map Prod.fst =
        ((inputs.filter fun input => prog.predLive input.1).map Prod.fst).filter prog'.predLive ∧
      (∀ p v, (some p, v) ∈ inputs' → prog.Reaches p →
        prog.Available p (prog.insnsOf p) v ∧ Kept prog' v) ∧
      ∀ v, (none, v) ∈ inputs' → (∃ i ∈ pre, i.isEntryValue ∧ i.defDst = some v) ∧ Kept prog' v

variable {prog prog' : SsaProgram} {same : SsaInsn → SsaInsn → Prop}
  {drop : SsaInsn → Prop} {xs ys zs pre pre' post rest rest' : List SsaInsn} {i i' insn : SsaInsn}
  {block d : Nat} {u v : SsaValue} {pred : Pred}

/-! ### Thinned lists -/

namespace Thinned

theorem append_left (thinned : Thinned same drop (xs ++ ys) zs) :
    ∃ xs' ys', zs = xs' ++ ys' ∧ Thinned same drop xs xs' ∧ Thinned same drop ys ys' := by
  induction xs generalizing zs with
  | nil => exact ⟨[], zs, rfl, .nil, thinned⟩
  | cons x xs ih =>
    cases thinned with
    | keep alike thinned =>
      obtain ⟨xs', ys', rfl, first, second⟩ := ih thinned
      exact ⟨_ :: xs', ys', rfl, .keep alike first, second⟩
    | drop gone thinned =>
      obtain ⟨xs', ys', rfl, first, second⟩ := ih thinned
      exact ⟨xs', ys', rfl, .drop gone first, second⟩

/-- A place of the thinned list comes from a place of the list. -/
theorem place (thinned : Thinned same drop xs (pre' ++ i' :: rest')) :
    ∃ pre i rest, xs = pre ++ i :: rest ∧ same i i' ∧ Thinned same drop pre pre' ∧
      Thinned same drop rest rest' := by
  induction xs generalizing pre' with
  | nil =>
    generalize whole : pre' ++ i' :: rest' = zs at thinned
    cases thinned
    cases pre' <;> cases whole
  | cons x xs ih =>
    generalize whole : pre' ++ i' :: rest' = zs at thinned
    cases thinned with
    | keep alike thinned =>
      cases pre' with
      | nil =>
        cases whole
        exact ⟨[], x, xs, rfl, alike, .nil, thinned⟩
      | cons y pre' =>
        cases whole
        obtain ⟨pre, i, rest, rfl, alike', first, second⟩ := ih thinned
        exact ⟨x :: pre, i, rest, rfl, alike', .keep alike first, second⟩
    | drop gone thinned =>
      subst whole
      obtain ⟨pre, i, rest, rfl, alike', first, second⟩ := ih thinned
      exact ⟨x :: pre, i, rest, rfl, alike', .drop gone first, second⟩

theorem mem (thinned : Thinned same drop xs ys) (present : i' ∈ ys) : ∃ i ∈ xs, same i i' := by
  obtain ⟨pre', rest', rfl⟩ := List.append_of_mem present
  obtain ⟨pre, i, rest, rfl, alike, _⟩ := thinned.place
  exact ⟨i, List.mem_append_right _ List.mem_cons_self, alike⟩

end Thinned

theorem flatMap_sublist {α β : Type} {f : α → List β} {xs ys : List α} (long : xs.length = ys.length)
    (each : ∀ (i : Nat) x y, xs[i]? = some x → ys[i]? = some y → (f y).Sublist (f x)) :
    (ys.flatMap f).Sublist (xs.flatMap f) := by
  induction xs generalizing ys with
  | nil =>
    obtain rfl := List.length_eq_zero_iff.mp long.symm
    exact .slnil
  | cons x xs ih =>
    cases ys with
    | nil => cases long
    | cons y ys =>
      rw [List.flatMap_cons, List.flatMap_cons]
      exact (each 0 x y rfl rfl).append (ih (Nat.succ.inj long) fun i x y => each (i + 1) x y)

theorem Thinned.of_forall₂ (each : List.Forall₂ same xs ys) : Thinned same drop xs ys := by
  induction each with
  | nil => exact .nil
  | cons alike _ ih => exact .keep alike ih

/-! ### Passes that replace in place -/

theorem defs_of_same (dsts : ys.map SsaInsn.defDst = xs.map SsaInsn.defDst) : defs ys = defs xs := by
  have mapped : ∀ zs : List SsaInsn, defs zs = (zs.map SsaInsn.defDst).filterMap id := by
    intro zs
    rw [List.filterMap_map]
    rfl
  rw [mapped, mapped, dsts]

theorem kept_of_same
    (dsts : ∀ block, (prog'.insnsOf block).map SsaInsn.defDst = (prog.insnsOf block).map SsaInsn.defDst)
    (kept : Kept prog v) : Kept prog' v := by
  obtain ⟨d, defined⟩ := kept
  exact ⟨d, by rwa [defs_of_same (dsts d)]⟩

theorem recorded_of_same (wf : prog.WellFormed) (sites : prog'.defSites = prog.defSites)
    (dsts : ∀ block, (prog'.insnsOf block).map SsaInsn.defDst = (prog.insnsOf block).map SsaInsn.defDst)
    (live : prog.isLive block) (here : prog'.At block pre insn) (defines : insn.defDst = some v) :
    prog'.defSites[v]? = some (some (block, pre.length)) := by
  obtain ⟨post, split⟩ := here
  have dst : ((prog.insnsOf block).map SsaInsn.defDst)[pre.length]? = some (some v) := by
    rw [← dsts, split]
    simp [defines]
  rw [List.getElem?_map] at dst
  obtain ⟨i, found, defines'⟩ := Option.map_eq_some_iff.mp dst
  obtain ⟨inside, rfl⟩ := List.getElem?_eq_some_iff.mp found
  have there : prog.At block ((prog.insnsOf block).take pre.length) (prog.insnsOf block)[pre.length] :=
    ⟨(prog.insnsOf block).drop (pre.length + 1), by
      rw [List.getElem_cons_drop, List.take_append_drop]⟩
  rw [sites, wf.recorded block _ _ v live there defines', List.length_take,
    Nat.min_eq_left (Nat.le_of_lt inside)]

/-- Inputs that count before a pass count after it when the same blocks are live. -/
theorem filter_predLive {inputs : List (Pred × SsaValue)}
    (lives : ∀ block, prog'.isLive block = prog.isLive block) :
    (inputs.filter fun input => prog'.predLive input.1).map Prod.fst =
      ((inputs.filter fun input => prog.predLive input.1).map Prod.fst).filter prog'.predLive := by
  have same : ∀ pred, prog'.predLive pred = prog.predLive pred := by
    intro pred
    cases pred with
    | none => rfl
    | some p => exact lives p
  simp only [same, List.filter_map, List.filter_filter]
  congr 1
  refine List.filter_congr fun input _ => ?_
  simp [same]

/-! ### The graph a pass leaves -/

theorem find_insnsOf : prog.terminator block = (prog.insnsOf block).find? SsaInsn.isControl := by
  unfold SsaProgram.terminator SsaProgram.insnsOf
  cases prog.blocks[block]? with
  | none => rfl
  | some b => rfl

theorem deadTaken_eq : prog.deadTaken block = (prog.terminator block).any SsaInsn.neverTaken := by
  unfold SsaProgram.deadTaken
  cases prog.terminator block with
  | none => rfl
  | some insn =>
    cases insn with
    | br width op lhs rhs trueTarget falseTarget => cases op <;> rfl
    | _ => rfl

theorem Thinned.terminator_any (thinned : Thinned same drop xs ys)
    (shape : ∀ i i', same i i' → SameShape i i') (plain : ∀ i, drop i → i.isControl = false) :
    (ys.find? SsaInsn.isControl).any SsaInsn.neverTaken =
      (xs.find? SsaInsn.isControl).any SsaInsn.neverTaken := by
  induction thinned with
  | nil => rfl
  | @keep j j' rest rest' alike thinned ih =>
    have alike := shape _ _ alike
    rw [List.find?_cons, List.find?_cons, alike.isControl]
    cases j.isControl with
    | true => exact alike.neverTaken
    | false => exact ih
  | drop gone thinned ih =>
    rw [List.find?_cons, plain _ gone]
    exact ih

namespace Pass

variable (pass : Pass prog prog' same drop)
include pass

theorem keeps (thinned : Thinned same drop xs ys) (kept : Kept prog' v) (defined : v ∈ defs xs) :
    v ∈ defs ys := by
  obtain ⟨i, present, defines⟩ := mem_defs.mp defined
  clear defined
  induction thinned with
  | nil => cases present
  | @keep j j' rest rest' alike thinned ih =>
    rcases List.mem_cons.mp present with rfl | later
    · exact mem_defs.mpr ⟨j', List.mem_cons_self, (pass.shape _ _ alike).defDst.trans defines⟩
    · obtain ⟨k, inside, defines'⟩ := mem_defs.mp (ih later)
      exact mem_defs.mpr ⟨k, List.mem_cons_of_mem _ inside, defines'⟩
  | @drop j rest rest' gone thinned ih =>
    rcases List.mem_cons.mp present with rfl | later
    · exact absurd kept (pass.unkept _ v gone defines)
    · exact ih later

theorem came (thinned : Thinned same drop xs ys) (defined : v ∈ defs ys) : v ∈ defs xs := by
  obtain ⟨i', present, defines⟩ := mem_defs.mp defined
  obtain ⟨i, before, alike⟩ := thinned.mem present
  exact mem_defs.mpr ⟨i, before, (pass.shape _ _ alike).defDst.symm.trans defines⟩

theorem flows_iff (reached : prog.Reaches block) : prog.Flows block d ↔ prog'.Flows block d := by
  have same : prog'.deadTaken block = prog.deadTaken block := by
    rw [deadTaken_eq, deadTaken_eq, find_insnsOf, find_insnsOf]
    exact (pass.thinned block reached).terminator_any pass.shape pass.plain
  unfold SsaProgram.Flows
  rw [mem_liveSuccessors, mem_liveSuccessors, same, pass.edges]

theorem reaches_iff : prog.Reaches block ↔ prog'.Reaches block := by
  unfold SsaProgram.Reaches
  rw [pass.entry]
  exact reached_congr fun _ _ reached => pass.flows_iff reached

theorem dominates_iff : prog.Dominates d block ↔ prog'.Dominates d block := by
  unfold SsaProgram.Dominates
  rw [pass.entry]
  exact strictlyDominates_congr fun _ _ reached => pass.flows_iff reached

theorem available_of (reached : prog.Reaches block) (thinned : Thinned same drop pre pre')
    (available : prog.Available block pre v) (kept : Kept prog' v) : prog'.Available block pre' v := by
  rcases available with earlier | ⟨d, dominates, defined⟩
  · exact Or.inl (pass.keeps thinned kept earlier)
  · exact Or.inr ⟨d, pass.dominates_iff.mp dominates,
      pass.keeps (pass.thinned d (dominates.reached reached)) kept defined⟩

theorem available_before (reached : prog.Reaches block) (thinned : Thinned same drop pre pre')
    (available : prog'.Available block pre' v) : prog.Available block pre v := by
  rcases available with earlier | ⟨d, dominates, defined⟩
  · exact Or.inl (pass.came thinned earlier)
  · have dominates := pass.dominates_iff.mpr dominates
    exact Or.inr ⟨d, dominates, pass.came (pass.thinned d (dominates.reached reached)) defined⟩

/-- A pass adds nothing to the order of definitions. -/
theorem precedes_before (before : prog'.Precedes u v) : prog.Precedes u v := by
  obtain ⟨block, pre', i', reached, ⟨post', split⟩, defines, available⟩ := before
  have reached := pass.reaches_iff.mpr reached
  have thinned := pass.thinned block reached
  rw [split] at thinned
  obtain ⟨pre, i, post, whole, alike, first, _⟩ := thinned.place
  exact ⟨block, pre, i, reached, ⟨post, whole⟩, (pass.shape _ _ alike).defDst.symm.trans defines,
    pass.available_before reached first available⟩

theorem incoming_eq (block : Nat) :
    prog'.incoming block = (prog.incoming block).filter prog'.predLive := by
  unfold SsaProgram.incoming
  rw [pass.edges, pass.entry, List.filter_append, List.filter_map, List.filter_filter]
  congr 1
  · congr 1
    refine List.filter_congr fun e _ => ?_
    have dies := pass.dies e.source
    cases live : prog'.isLive e.source with
    | false => simp [SsaProgram.predLive, live]
    | true => simp [SsaProgram.predLive, live, dies live]
  · split <;> rfl

theorem phisLead (lead : PhisLead (block = prog.entry) xs) (thinned : Thinned same drop xs ys) :
    PhisLead (block = prog'.entry) ys := by
  obtain ⟨head, phis, body, rfl, values, first, phi, plain⟩ := lead
  obtain ⟨xs', body', rfl, front, back⟩ := thinned.append_left
  obtain ⟨head', phis', rfl, front, middle⟩ := front.append_left
  refine ⟨head', phis', body', rfl, ?_, ?_, ?_, ?_⟩
  · intro i' present
    obtain ⟨i, before, alike⟩ := front.mem present
    exact (pass.shape _ _ alike).isEntryValue (values i before)
  · intro proper
    rw [pass.entry]
    refine first fun empty => proper ?_
    subst empty
    cases front
    rfl
  · intro i' present
    obtain ⟨i, before, alike⟩ := middle.mem present
    exact (pass.shape _ _ alike).isPhi.trans (phi i before)
  · intro i' present
    obtain ⟨i, before, alike⟩ := back.mem present
    exact (pass.shape _ _ alike).isPhi.trans (plain i before)

/-- A place of the program after a pass comes from a place before it. -/
theorem place (reached : prog'.Reaches block) (split : prog'.insnsOf block = pre' ++ i' :: post) :
    ∃ pre i rest, prog.Reaches block ∧ prog.insnsOf block = pre ++ i :: rest ∧ same i i' ∧
      Thinned same drop pre pre' ∧ Thinned same drop rest post := by
  have reached := pass.reaches_iff.mpr reached
  have thinned := pass.thinned block reached
  rw [split] at thinned
  obtain ⟨pre, i, rest, whole, alike, first, second⟩ := thinned.place
  exact ⟨pre, i, rest, reached, whole, alike, first, second⟩

/-- A phi after a pass comes from a phi before it. -/
theorem place_phi {dst : SsaValue} {inputs' : List (Pred × SsaValue)}
    (alike : same i (.phi dst inputs')) : ∃ inputs, i = .phi dst inputs := by
  have shape := pass.shape _ _ alike
  cases i with
  | phi dst' inputs =>
    cases shape.defDst
    exact ⟨inputs, rfl⟩
  | _ => cases shape.isPhi

/-- A pass keeps programs well formed. -/
theorem wellFormed (wf : prog.WellFormed) : prog'.WellFormed where
  inside := by
    rw [pass.edges, pass.length]
    exact wf.inside
  live block reached := pass.lives block (pass.reaches_iff.mpr reached)
  single := by
    refine wf.single.sublist (flatMap_sublist pass.length.symm fun block b b' present present' => ?_)
    have fewer := pass.fewer block
    rwa [SsaProgram.insnsOf_eq present, SsaProgram.insnsOf_eq present'] at fewer
  recorded := pass.recorded
  leads block reached := by
    have reached := pass.reaches_iff.mpr reached
    exact pass.phisLead (wf.leads block reached) (pass.thinned block reached)
  closed block pre' i' post' reached split control := by
    obtain ⟨pre, i, rest, reached, whole, alike, _, last⟩ := pass.place reached split
    rw [(pass.shape _ _ alike).isControl] at control
    obtain rfl := wf.closed block pre i rest reached whole control
    cases last
    rfl
  targets block pre' i' reached here e edge := by
    obtain ⟨post', split⟩ := here
    obtain ⟨pre, i, rest, reached, whole, alike, _, _⟩ := pass.place reached split
    rw [(pass.shape _ _ alike).jumpEdges] at edge
    rw [pass.edges]
    exact wf.targets block pre i reached ⟨rest, whole⟩ e edge
  uses block pre' i' reached here plain v use := by
    obtain ⟨post', split⟩ := here
    obtain ⟨pre, i, rest, reached, whole, alike, first, _⟩ := pass.place reached split
    rw [(pass.shape _ _ alike).isPhi] at plain
    obtain ⟨available, kept⟩ := pass.uses block pre i i' reached ⟨rest, whole⟩ alike plain v use
    exact pass.available_of reached first available kept
  inputs block pre' dst inputs' reached here := by
    obtain ⟨post', split⟩ := here
    obtain ⟨pre, i, rest, reached, whole, alike, _, _⟩ := pass.place reached split
    obtain ⟨inputs, rfl⟩ := pass.place_phi alike
    obtain ⟨_, ⟨⟩, same, _⟩ := pass.phis block pre dst inputs _ reached ⟨rest, whole⟩ alike
    rw [same, pass.incoming_eq]
    exact (wf.inputs block pre dst inputs reached ⟨rest, whole⟩).filter _
  inputUses block pre' dst inputs' reached here p v listed before := by
    obtain ⟨post', split⟩ := here
    obtain ⟨pre, i, rest, reached, whole, alike, _, _⟩ := pass.place reached split
    obtain ⟨inputs, rfl⟩ := pass.place_phi alike
    obtain ⟨_, ⟨⟩, _, uses, _⟩ := pass.phis block pre dst inputs _ reached ⟨rest, whole⟩ alike
    have before := pass.reaches_iff.mpr before
    obtain ⟨available, kept⟩ := uses p v listed before
    exact pass.available_of before (pass.thinned p before) available kept
  startUses block pre' dst inputs' reached here v listed := by
    obtain ⟨post', split⟩ := here
    obtain ⟨pre, i, rest, reached, whole, alike, first, _⟩ := pass.place reached split
    obtain ⟨inputs, rfl⟩ := pass.place_phi alike
    obtain ⟨_, ⟨⟩, _, _, uses⟩ := pass.phis block pre dst inputs _ reached ⟨rest, whole⟩ alike
    obtain ⟨⟨j, before, value, defines⟩, kept⟩ := uses v listed
    obtain ⟨j', present, defines'⟩ := mem_defs.mp
      (pass.keeps first kept (mem_defs.mpr ⟨j, before, defines⟩))
    obtain ⟨k, before', alike'⟩ := first.mem present
    have shape := pass.shape _ _ alike'
    obtain ⟨front, back, cut⟩ := List.append_of_mem before
    obtain ⟨front', back', cut'⟩ := List.append_of_mem before'
    have at_j : prog.At block front j := ⟨back ++ .phi dst inputs :: rest, by rw [whole, cut]; simp⟩
    have at_k : prog.At block front' k := ⟨back' ++ .phi dst inputs :: rest, by rw [whole, cut']; simp⟩
    obtain ⟨_, _, rfl⟩ := wf.same_place at_j at_k defines (shape.defDst.symm.trans defines')
    exact ⟨j', present, shape.isEntryValue value, defines'⟩

end Pass

end EbpfLab.Ssa
