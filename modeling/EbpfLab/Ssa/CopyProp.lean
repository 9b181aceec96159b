import EbpfLab.Ssa.PassRun

/-!
# Copy propagation

Every rewrite replaces a version by one that it equals wherever it is available, so a use may be
renamed along any number of them.
-/

namespace EbpfLab.Ssa
open Isa FlowGraph Library Interp

/-- The version a list of rewrites, applied in order, makes of a use. -/
def rename (pairs : List (SsaValue × SsaValue)) (w : SsaValue) : SsaValue :=
  pairs.foldl (fun w pair => if w = pair.1 then pair.2 else w) w

/-- An instruction and what copy propagation makes of it. -/
def Renamed (prog : SsaProgram) (i i' : SsaInsn) : Prop := i' = i.mapUses (rename (rewrites prog))

variable {m : Machine} {prog : SsaProgram} {insn i i' : SsaInsn} {pre : List SsaInsn} {p block : Nat}
  {pairs : List (SsaValue × SsaValue)} {u v w dst : SsaValue} {f g : SsaValue → SsaValue} {env : Env}
  {world : World} {inputs : List (Pred × SsaValue)} {pred : Pred} {b : SsaBlock}

/-! ### Renaming -/

theorem rename_preserves {q : SsaValue → Prop} (closed : ∀ pair ∈ pairs, q pair.1 → q pair.2)
    (start : q w) : q (rename pairs w) := by
  unfold rename
  induction pairs generalizing w with
  | nil => exact start
  | cons pair pairs ih =>
    rw [List.foldl_cons]
    refine ih (fun pair later => closed pair (List.mem_cons_of_mem _ later)) ?_
    split
    · rename_i here
      exact closed pair List.mem_cons_self (here ▸ start)
    · exact start

theorem operand_mapUses {o : SsaOperand} : (o.map f).uses = o.uses.map f := by
  cases o <;> rfl

theorem uses_mapUses : (insn.mapUses f).uses = insn.uses.map f := by
  cases insn with
  | phi dst inputs => simp [SsaInsn.mapUses, SsaInsn.uses]
  | call dst func args => simp [SsaInsn.mapUses, SsaInsn.uses, Vector.toList_map]
  | _ => simp [SsaInsn.mapUses, SsaInsn.uses, operand_mapUses]

theorem mapUses_mapUses : (insn.mapUses f).mapUses g = insn.mapUses (g ∘ f) := by
  have operand : ∀ o : SsaOperand, (o.map f).map g = o.map (g ∘ f) := by
    intro o
    cases o <;> rfl
  cases insn with
  | phi dst inputs => simp [SsaInsn.mapUses]
  | call dst func args => simp [SsaInsn.mapUses]
  | _ => simp [SsaInsn.mapUses, operand]

theorem mapUses_id : insn.mapUses (fun u => u) = insn := by
  have operand : ∀ o : SsaOperand, o.map (fun u => u) = o := by
    intro o
    cases o <;> rfl
  cases insn with
  | phi dst inputs => simp [SsaInsn.mapUses]
  | call dst func args => simp [SsaInsn.mapUses]
  | _ => simp [SsaInsn.mapUses, operand]

theorem mapUses_shape : SameShape insn (insn.mapUses f) := by
  cases insn with
  | br width op lhs rhs trueTarget falseTarget =>
    refine ⟨rfl, rfl, rfl, fun _ => rfl, ?_, id⟩
    cases op <;> rfl
  | _ => exact ⟨rfl, rfl, rfl, fun _ => rfl, rfl, id⟩

theorem rewriteInsn_cons {pair : SsaValue × SsaValue} :
    rewriteInsn (pair :: pairs) insn =
      ((rewriteInsn pairs (rewriteUses pair.1 pair.2 insn).1).1,
        (rewriteUses pair.1 pair.2 insn).2 ||
          (rewriteInsn pairs (rewriteUses pair.1 pair.2 insn).1).2) := by
  have flag : ∀ (pairs : List (SsaValue × SsaValue)) (insn : SsaInsn) (flag : Bool),
      pairs.foldl (fun state pair => ((rewriteUses pair.1 pair.2 state.1).1,
        state.2 || (rewriteUses pair.1 pair.2 state.1).2)) (insn, flag) =
        ((rewriteInsn pairs insn).1, flag || (rewriteInsn pairs insn).2) := by
    intro pairs
    induction pairs with
    | nil =>
      intro insn flag
      simp [rewriteInsn]
    | cons pair pairs ih =>
      intro insn flag
      rw [List.foldl_cons, ih, show rewriteInsn (pair :: pairs) insn = _ from ih _ _]
      simp only [Bool.or_assoc, Bool.false_or]
      rfl
  unfold rewriteInsn
  rw [List.foldl_cons]
  exact flag _ _ _

theorem rewriteInsn_eq : (rewriteInsn pairs insn).1 = insn.mapUses (rename pairs) := by
  induction pairs generalizing insn with
  | nil => exact mapUses_id.symm
  | cons pair pairs ih =>
    rw [rewriteInsn_cons, ih, rewriteUses, mapUses_mapUses]
    rfl

/-- Rewrites to versions of smaller rank lower the ranks of the uses, strictly if one applies. -/
theorem rewriteInsn_lowers (rank : SsaValue → Nat) (insn : SsaInsn)
    (lowers : ∀ pair ∈ pairs, rank pair.2 < rank pair.1) :
    ((rewriteInsn pairs insn).1.uses.map rank).sum ≤ (insn.uses.map rank).sum ∧
      ((rewriteInsn pairs insn).2 = true →
        ((rewriteInsn pairs insn).1.uses.map rank).sum < (insn.uses.map rank).sum) := by
  have one : ∀ (xs : List SsaValue) (old new : SsaValue), rank new < rank old →
      ((xs.map fun v => if v = old then new else v).map rank).sum ≤ (xs.map rank).sum ∧
        (xs.contains old = true →
          ((xs.map fun v => if v = old then new else v).map rank).sum < (xs.map rank).sum) := by
    intro xs old new lower
    induction xs with
    | nil => exact ⟨Nat.le_refl _, nofun⟩
    | cons x xs ih =>
      simp only [List.map_cons, List.sum_cons, List.contains_cons, Bool.or_eq_true, beq_iff_eq]
      by_cases here : x = old
      · rw [if_pos here, here]
        exact ⟨by omega, fun _ => by omega⟩
      · rw [if_neg here]
        refine ⟨by omega, fun present => ?_⟩
        have := ih.2 (present.resolve_left (Ne.symm here))
        omega
  induction pairs generalizing insn with
  | nil => exact ⟨Nat.le_refl _, nofun⟩
  | cons pair pairs ih =>
    obtain ⟨le, lt⟩ := one insn.uses pair.1 pair.2 (lowers pair List.mem_cons_self)
    obtain ⟨le', lt'⟩ := ih (rewriteUses pair.1 pair.2 insn).1
      fun pair later => lowers pair (List.mem_cons_of_mem _ later)
    rw [show (rewriteUses pair.1 pair.2 insn).1.uses =
      insn.uses.map fun v => if v = pair.1 then pair.2 else v from uses_mapUses] at le' lt'
    rw [rewriteInsn_cons]
    refine ⟨le'.trans le, fun changed => ?_⟩
    rcases Bool.or_eq_true_iff.mp changed with here | later
    · exact Nat.lt_of_le_of_lt le' (lt here)
    · exact Nat.lt_of_lt_of_le (lt' later) le

/-! ### The pass -/

theorem mem_liveSites {site : Site} : (site, insn) ∈ prog.liveSites ↔
    prog.isLive site.1 ∧ (prog.insnsOf site.1)[site.2]? = some insn := by
  obtain ⟨block, n⟩ := site
  simp only [SsaProgram.liveSites, List.mem_flatMap, Prod.exists]
  constructor
  · rintro ⟨b, index, listed, present⟩
    have found := List.mem_zipIdx_iff_getElem?.mp listed
    split at present
    · rename_i live
      obtain ⟨⟨i, k⟩, inside, same⟩ := List.mem_map.mp present
      cases same
      refine ⟨?_, ?_⟩
      · rw [SsaProgram.isLive, found]
        exact live
      · rw [SsaProgram.insnsOf_eq found]
        exact List.mem_zipIdx_iff_getElem?.mp inside
    · cases present
  · rintro ⟨live, inside⟩
    cases found : prog.blocks[block]? with
    | none =>
      rw [SsaProgram.isLive, found] at live
      cases live
    | some b =>
      refine ⟨b, block, List.mem_zipIdx_iff_getElem?.mpr found, ?_⟩
      rw [SsaProgram.isLive, found] at live
      rw [SsaProgram.insnsOf_eq found] at inside
      rw [if_pos (show b.live = true from live)]
      exact List.mem_map.mpr ⟨(insn, n), List.mem_zipIdx_iff_getElem?.mpr inside, rfl⟩

theorem at_of_getElem {n : Nat} (found : (prog.insnsOf block)[n]? = some insn) :
    prog.At block ((prog.insnsOf block).take n) insn := by
  obtain ⟨inside, rfl⟩ := List.getElem?_eq_some_iff.mp found
  exact ⟨(prog.insnsOf block).drop (n + 1), by
    rw [List.getElem_cons_drop, List.take_append_drop]⟩

theorem copies_of_rewrite (listed : (v, u) ∈ rewrites prog) : prog.Copies v u := by
  obtain ⟨⟨site, insn⟩, present, copies⟩ := List.mem_filterMap.mp listed
  obtain ⟨live, found⟩ := mem_liveSites.mp present
  exact ⟨site.1, _, insn, live, at_of_getElem found, copies⟩

theorem mapLive_block (f : SsaInsn → SsaInsn) :
    (prog.mapLive f).insnsOf block =
        (if prog.isLive block then (prog.insnsOf block).map f else prog.insnsOf block) ∧
      (prog.mapLive f).isLive block = prog.isLive block := by
  unfold SsaProgram.insnsOf SsaProgram.isLive SsaProgram.mapLive
  rw [List.getElem?_map]
  cases prog.blocks[block]? with
  | none => exact ⟨by simp, rfl⟩
  | some b =>
    cases live : b.live <;> simp [live]

theorem mapLive_id {f : SsaInsn → SsaInsn} (same : ∀ insn, f insn = insn) : prog.mapLive f = prog := by
  have keep : ∀ b : SsaBlock, (if b.live then { b with insns := b.insns.map f } else b) = b := by
    intro b
    split
    · rw [List.map_congr_left fun insn _ => same insn, List.map_id']
    · rfl
  unfold SsaProgram.mapLive
  rw [List.map_congr_left fun b _ => keep b, List.map_id']

/-- The program copy propagation makes. -/
abbrev propagated (prog : SsaProgram) : SsaProgram :=
  prog.mapLive fun insn => insn.mapUses (rename (rewrites prog))

theorem copyPropagate_eq : (copyPropagate prog).1 = propagated prog := by
  unfold copyPropagate
  dsimp only
  split
  · rename_i empty
    refine (mapLive_id fun insn => ?_).symm
    rw [List.isEmpty_iff.mp empty]
    exact mapUses_id
  · exact congrArg prog.mapLive (funext fun insn => rewriteInsn_eq)

theorem propagated_dsts (block : Nat) :
    ((propagated prog).insnsOf block).map SsaInsn.defDst =
      (prog.insnsOf block).map SsaInsn.defDst := by
  rw [(mapLive_block _).1]
  split
  · rw [List.map_map]
    exact List.map_congr_left fun insn _ => mapUses_shape.defDst
  · rfl

/-- Renaming stays among the available versions. -/
theorem rename_available (wf : prog.WellFormed) (reached : prog.Reaches block)
    (inside : pre <+: prog.insnsOf block) (available : prog.Available block pre w) :
    prog.Available block pre (rename (rewrites prog) w) :=
  rename_preserves (q := prog.Available block pre)
    (fun _ listed available => wf.available_of_precedes reached
      (wf.precedes_of_copies reached inside available (copies_of_rewrite listed)) inside available)
    available

/-- Renaming an available version does not change its value. -/
theorem rename_value (wf : prog.WellFormed) (reached : prog.Reaches block)
    (inside : pre <+: prog.insnsOf block) (knows : Knows m prog block pre env)
    (available : prog.Available block pre w) : env (rename (rewrites prog) w) = env w := by
  refine (rename_preserves (q := fun x => prog.Available block pre x ∧ env x = env w) ?_
    ⟨available, rfl⟩).2
  rintro ⟨v, u⟩ listed ⟨available, same⟩
  have copies := copies_of_rewrite listed
  refine ⟨wf.available_of_precedes reached (wf.precedes_of_copies reached inside available copies)
    inside available, ?_⟩
  rw [← same]
  exact ((knows v available).copied u copies).symm

/-- Entry values are never renamed. -/
theorem rename_entryValue (wf : prog.WellFormed) (here : prog.At block pre i)
    (value : i.isEntryValue) (defines : i.defDst = some w) : rename (rewrites prog) w = w := by
  refine rename_preserves (q := fun x => x = w) ?_ rfl
  rintro ⟨v, u⟩ listed rfl
  obtain ⟨_, _, insn, _, there, copies⟩ := copies_of_rewrite listed
  obtain ⟨_, _, rfl⟩ := wf.same_place here there defines (copyOf_dst copies)
  cases i with
  | const | framePtr | entryCtx | loadImm64 => cases copies
  | _ => cases value

theorem at_earlier {post : List SsaInsn} (split : prog.insnsOf block = pre ++ post) (earlier : i ∈ pre) :
    ∃ front, prog.At block front i := by
  obtain ⟨front, back, cut⟩ := List.append_of_mem earlier
  exact ⟨front, back ++ post, by rw [split, cut]; simp⟩

theorem copy_pass (wf : prog.WellFormed) :
    Pass prog (propagated prog) (Renamed prog) fun _ => False where
  length := List.length_map _
  edges := rfl
  entry := rfl
  lives block reached := (mapLive_block _).2.trans (wf.live block reached)
  dies block live := (mapLive_block _).2.symm.trans live
  fewer block := by
    rw [defs_of_same (propagated_dsts block)]
  recorded block pre insn v live here defines :=
    recorded_of_same wf rfl propagated_dsts ((mapLive_block _).2.symm.trans live) here
      defines
  thinned block reached := by
    rw [(mapLive_block _).1, if_pos (wf.live block reached)]
    refine .of_forall₂ (List.forall₂_map_right_iff.mpr (List.forall₂_same.mpr fun _ _ => rfl))
  shape _ _ alike := alike ▸ mapUses_shape
  plain _ := nofun
  unkept _ _ := nofun
  uses block pre i i' reached here alike plain v use := by
    rw [alike, uses_mapUses] at use
    obtain ⟨u, used, rfl⟩ := List.mem_map.mp use
    have available := wf.uses block pre i reached here plain u used
    obtain ⟨post, split⟩ := here
    have renamed := rename_available wf reached ⟨i :: post, split.symm⟩ available
    obtain ⟨d, _, defined⟩ := SsaProgram.Available.defined (split.symm ▸ renamed.later) reached
    exact ⟨renamed, kept_of_same propagated_dsts ⟨d, defined⟩⟩
  phis block pre dst inputs i' reached here alike := by
    refine ⟨_, alike, ?_, fun p v listed before => ?_, fun v listed => ?_⟩
    · rw [← filter_predLive fun block => (mapLive_block _).2, List.filter_map, List.map_map]
      rfl
    · obtain ⟨⟨q, u⟩, present, same⟩ := List.mem_map.mp listed
      cases same
      have available := wf.inputUses block pre dst inputs reached here p u present before
      have renamed := rename_available wf before (List.prefix_refl _) available
      obtain ⟨d, _, defined⟩ := renamed.defined before
      exact ⟨renamed, kept_of_same propagated_dsts ⟨d, defined⟩⟩
    · obtain ⟨⟨q, u⟩, present, same⟩ := List.mem_map.mp listed
      cases same
      obtain ⟨i, earlier, value, defines⟩ := wf.startUses block pre dst inputs reached here u present
      obtain ⟨post, split⟩ := here
      obtain ⟨front, there⟩ := at_earlier split earlier
      rw [rename_entryValue wf there value defines]
      exact ⟨⟨i, earlier, value, defines⟩, kept_of_same propagated_dsts
        ⟨block, there.dst_mem defines⟩⟩

/-- An instruction does the same when its uses are renamed to versions of the same values. -/
theorem exec_mapUses (same : ∀ u ∈ insn.uses, env (f u) = env u) :
    execInsn m (insn.mapUses f) env world = execInsn m insn env world := by
  have operand : ∀ o : SsaOperand, (∀ u ∈ o.uses, env (f u) = env u) →
      env.operand (o.map f) = env.operand o := by
    intro o same
    cases o with
    | value u => exact same u (List.mem_singleton.mpr rfl)
    | imm k => rfl
  cases insn with
  | copy dst src => simp only [SsaInsn.mapUses, execInsn, same src (List.mem_singleton.mpr rfl)]
  | binOp dst width op lhs rhs =>
    simp only [SsaInsn.mapUses, execInsn, operand lhs fun u use => same u (List.mem_append_left _ use),
      operand rhs fun u use => same u (List.mem_append_right _ use)]
  | load dst size base offset =>
    simp only [SsaInsn.mapUses, execInsn, same base (List.mem_singleton.mpr rfl)]
  | store size base offset src =>
    simp only [SsaInsn.mapUses, execInsn, same base List.mem_cons_self,
      operand src fun u use => same u (List.mem_cons_of_mem _ use)]
  | call dst func args =>
    have every : ∀ xs : List SsaValue, (∀ u ∈ xs, env (f u) = env u) →
        (xs.map f).mapM env = xs.mapM env := by
      intro xs
      induction xs with
      | nil => exact fun _ => rfl
      | cons u xs ih =>
        intro same
        rw [List.map_cons, List.mapM_cons, List.mapM_cons, same u List.mem_cons_self,
          ih fun w later => same w (List.mem_cons_of_mem _ later)]
    have args_same : env.argRegs (args.map f) = env.argRegs args := by
      unfold Env.argRegs
      rw [Vector.toList_map, every args.toList same]
    simp only [SsaInsn.mapUses, execInsn, args_same]
  | br width op lhs rhs trueTarget falseTarget =>
    simp only [SsaInsn.mapUses, execInsn, operand lhs fun u use => same u (List.mem_append_left _ use),
      operand rhs fun u use => same u (List.mem_append_right _ use)]
  | exit r0 => simp only [SsaInsn.mapUses, execInsn, same r0 (List.mem_singleton.mpr rfl)]
  | _ => rfl

theorem phiInput_map : phiInput pred (inputs.map fun input => (input.1, f input.2)) =
    (phiInput pred inputs).map f := by
  unfold phiInput
  rw [List.find?_map, Option.map_map, Option.map_map]
  rfl

theorem mem_of_phiInput (taken : phiInput pred inputs = some w) : (pred, w) ∈ inputs := by
  obtain ⟨⟨q, _⟩, first, rfl⟩ := Option.map_eq_some_iff.mp taken
  obtain rfl : q = pred := by simpa using List.find?_some first
  exact List.mem_of_find?_eq_some first

theorem copy_sound (wf : prog.WellFormed) : Sound m prog (Renamed prog) fun _ => False where
  exec block pre i i' env world reached here alike plain knows := by
    rw [alike]
    refine exec_mapUses fun u use => ?_
    have available := wf.uses block pre i reached here plain u use
    obtain ⟨post, split⟩ := here
    exact rename_value wf reached ⟨i :: post, split.symm⟩ knows available
  phi block pre dst inputs inputs' pred env here alike arrives := by
    obtain rfl : inputs' = inputs.map fun input => (input.1, rename (rewrites prog) input.2) :=
      (SsaInsn.phi.inj alike).2
    rw [phiInput_map]
    cases taken : phiInput pred inputs with
    | none => rfl
    | some w =>
      have listed := mem_of_phiInput taken
      have reached := arrives.1.reached
      cases pred with
      | none =>
        obtain ⟨i, earlier, value, defines⟩ := wf.startUses block pre dst inputs reached here w listed
        obtain ⟨post, split⟩ := here
        obtain ⟨front, there⟩ := at_earlier split earlier
        exact congrArg env (rename_entryValue wf there value defines)
      | some p =>
        have before := arrives.1.1
        exact rename_value wf before (List.prefix_refl _) (arrives.2 p rfl)
          (wf.inputUses block pre dst inputs reached here p w listed before)
  drop _ _ _ _ _ _ _ gone := gone.elim

end EbpfLab.Ssa
