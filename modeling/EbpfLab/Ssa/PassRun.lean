import EbpfLab.Ssa.Pass

/-!
# Runs through a pass

The program after a sound pass runs as the one before it, block by block, with environments that
agree on the versions the pass keeps.
-/

namespace EbpfLab.Ssa
open Isa FlowGraph Library Interp

/-- What the replacements and the dropped instructions of a pass do. -/
structure Sound (m : Machine) (prog : SsaProgram) (same : SsaInsn → SsaInsn → Prop)
    (drop : SsaInsn → Prop) : Prop where
  exec : ∀ block pre i i' env world, prog.Reaches block → prog.At block pre i → same i i' →
    i.isPhi = false → Knows m prog block pre env → execInsn m i' env world = execInsn m i env world
  phi : ∀ block pre dst inputs inputs' pred env, prog.At block pre (.phi dst inputs) →
    same (.phi dst inputs) (.phi dst inputs') → Arrives m prog block env pred →
    (phiInput pred inputs').bind env = (phiInput pred inputs).bind env
  drop : ∀ block pre i env world, prog.Reaches block → prog.At block pre i → drop i →
    i.isPhi = false → Knows m prog block pre env →
    ∃ v x, i.defDst = some v ∧ execInsn m i env world = .next (env.set v x)

variable {m : Machine} {prog prog' : SsaProgram} {same : SsaInsn → SsaInsn → Prop}
  {drop : SsaInsn → Prop} {pre post rest rest' : List SsaInsn} {i i' insn : SsaInsn}
  {block : Nat} {u v : SsaValue} {env env' : Env} {world : World} {pred : Pred}

/-- Environments agree on the versions that are kept. -/
def Agree (prog' : SsaProgram) (env env' : Env) : Prop := ∀ v, Kept prog' v → env' v = env v

theorem Agree.set {x : Int64} (agree : Agree prog' env env') : Agree prog' (env.set v x) (env'.set v x) := by
  intro w kept
  unfold Env.set
  rw [agree w kept]

/-- Results that only differ where environments may. -/
inductive Alike (prog' : SsaProgram) : InsnResult → InsnResult → Prop
  | next {env env' : Env} (agree : Agree prog' env env') : Alike prog' (.next env) (.next env')
  | effect {env env' : Env} (world : World) (agree : Agree prog' env env') :
    Alike prog' (.effect env world) (.effect env' world)
  | leave (how : Leave) : Alike prog' (.leave how) (.leave how)

theorem operand_agree {o : SsaOperand} (same : ∀ u ∈ o.uses, env' u = env u) :
    env'.operand o = env.operand o := by
  cases o with
  | value u => exact same u (List.mem_singleton.mpr rfl)
  | imm k => rfl

theorem args_agree {args : Vector SsaValue 5} (same : ∀ u ∈ args.toList, env' u = env u) :
    env'.argRegs args = env.argRegs args := by
  have every : ∀ xs : List SsaValue, (∀ u ∈ xs, env' u = env u) → xs.mapM env' = xs.mapM env := by
    intro xs
    induction xs with
    | nil => exact fun _ => rfl
    | cons u xs ih =>
      intro same
      rw [List.mapM_cons, List.mapM_cons, same u List.mem_cons_self,
        ih fun w later => same w (List.mem_cons_of_mem _ later)]
  unfold Env.argRegs
  rw [every _ same]

/-- An instruction does the same in environments that agree on what it uses. -/
theorem exec_agree (m : Machine) (world : World) (agree : Agree prog' env env') (kept : ∀ u ∈ insn.uses, Kept prog' u) :
    Alike prog' (execInsn m insn env world) (execInsn m insn env' world) := by
  have same : ∀ u ∈ insn.uses, env' u = env u := fun u use => agree u (kept u use)
  cases insn with
  | const | framePtr | entryCtx | loadImm64 => exact .next agree.set
  | copy dst src =>
    simp only [execInsn, same src (List.mem_singleton.mpr rfl)]
    cases env src with
    | none => exact .leave _
    | some x => exact .next agree.set
  | binOp dst width op lhs rhs =>
    simp only [execInsn, operand_agree (o := lhs) fun u use => same u (List.mem_append_left _ use),
      operand_agree (o := rhs) fun u use => same u (List.mem_append_right _ use)]
    cases env.operand lhs with
    | none => exact .leave _
    | some l =>
      cases env.operand rhs with
      | none => exact .leave _
      | some r =>
        dsimp only [reading]
        split
        · exact .leave _
        · exact .next agree.set
  | load dst size base offset =>
    simp only [execInsn, same base (List.mem_singleton.mpr rfl)]
    cases env base with
    | none => exact .leave _
    | some addr =>
      dsimp only [reading]
      cases world.memory.load (addr + offset.toInt64) size with
      | error e => exact .leave _
      | ok x =>
        cases dst with
        | none => exact .next agree
        | some dst => exact .next agree.set
  | store size base offset src =>
    simp only [execInsn, same base List.mem_cons_self,
      operand_agree (o := src) fun u use => same u (List.mem_cons_of_mem _ use)]
    cases env base with
    | none => exact .leave _
    | some addr =>
      cases env.operand src with
      | none => exact .leave _
      | some x =>
        dsimp only [reading]
        cases world.memory.store (addr + offset.toInt64) size x with
        | error e => exact .leave _
        | ok memory => exact .effect _ agree
  | call dst func args =>
    simp only [execInsn, args_agree same]
    cases env.argRegs args with
    | none => exact .leave _
    | some regs =>
      dsimp only [reading]
      cases m.helpers func with
      | none => exact .leave _
      | some helper =>
        dsimp only
        cases helper regs world with
        | error e => exact .leave _
        | ok r => exact .effect _ agree.set
  | phi => exact .leave _
  | br width op lhs rhs trueTarget falseTarget =>
    simp only [execInsn, operand_agree (o := lhs) fun u use => same u (List.mem_append_left _ use),
      operand_agree (o := rhs) fun u use => same u (List.mem_append_right _ use)]
    cases env.operand lhs with
    | none => exact .leave _
    | some l =>
      cases env.operand rhs with
      | none => exact .leave _
      | some r => exact .leave _
  | ja target => exact .leave _
  | exit r0 =>
    simp only [execInsn, same r0 (List.mem_singleton.mpr rfl)]
    cases env r0 with
    | none => exact .leave _
    | some code => exact .leave _

/-- Results of lists that only differ where environments may. -/
structure ListResult.Alike (prog' : SsaProgram) (r r' : ListResult) : Prop where
  effects : r'.effects = r.effects
  world : r'.world = r.world
  how : r'.how = r.how
  agree : Agree prog' r.env r'.env

/-- A thinned list does what the list does. -/
theorem execList_thinned (world : World) (wf : prog.WellFormed) (pass : Pass prog prog' same drop)
    (sound : Sound m prog same drop) (reached : prog.Reaches block)
    (split : prog.insnsOf block = pre ++ rest ++ post) (plain : ∀ i ∈ rest, i.isPhi = false)
    (thinned : Thinned same drop rest rest') (knows : Knows m prog block pre env)
    (agree : Agree prog' env env') :
    (execList m rest env world).Alike prog' (execList m rest' env' world) := by
  induction thinned generalizing pre env env' world with
  | nil => exact ⟨rfl, rfl, rfl, agree⟩
  | @keep i i' rest rest' alike thinned ih =>
    have here : prog.At block pre i := ⟨rest ++ post, by rw [split]; simp⟩
    have plain_i := plain i List.mem_cons_self
    have next := wf.exec_knows world reached here plain_i knows
    have exec := exec_agree m world agree fun u (use : u ∈ i'.uses) =>
      (pass.uses block pre i i' reached here alike plain_i u use).2
    rw [sound.exec block pre i i' env world reached here alike plain_i knows] at exec
    have later : ∀ {env env' world}, Knows m prog block (pre ++ [i]) env → Agree prog' env env' →
        (execList m rest env world).Alike prog' (execList m rest' env' world) := by
      intro env env' world knows agree
      exact ih _ (by rw [split]; simp) (fun j later => plain j (List.mem_cons_of_mem _ later)) knows agree
    generalize ran : execInsn m i env world = r at exec next
    generalize ran' : execInsn m i' env' world = r' at exec
    cases exec with
    | next agree =>
      rw [execList_next ran, execList_next ran']
      exact later next agree
    | effect world agree =>
      rw [execList_effect ran, execList_effect ran']
      obtain ⟨effects, world, how, agree⟩ := later next agree
      exact ⟨congrArg (List.cons _) effects, world, how, agree⟩
    | leave how =>
      rw [execList_leave ran, execList_leave ran']
      exact ⟨rfl, rfl, rfl, agree⟩
  | @drop i rest rest' gone thinned ih =>
    have here : prog.At block pre i := ⟨rest ++ post, by rw [split]; simp⟩
    have plain_i := plain i List.mem_cons_self
    have next := wf.exec_knows world reached here plain_i knows
    obtain ⟨v, x, defines, ran⟩ := sound.drop block pre i env world reached here gone plain_i knows
    rw [ran] at next
    rw [execList_next ran]
    refine ih _ (by rw [split]; simp) (fun j later => plain j (List.mem_cons_of_mem _ later)) next ?_
    intro w kept
    have other : w ≠ v := by
      rintro rfl
      exact pass.unkept i w gone defines kept
    exact (agree w kept).trans (if_neg other).symm

/-- The phis that are left take what the phis before took. -/
theorem evalPhis_thinned {head phis phis' body : List SsaInsn} {env₁ : Env} (wf : prog.WellFormed)
    (pass : Pass prog prog' same drop) (sound : Sound m prog same drop)
    (split : prog.insnsOf block = head ++ phis ++ body) (phi : ∀ i ∈ phis, i.isPhi)
    (thinned : Thinned same drop phis phis')
    (comes : Comes prog block pred) (seen : ∀ v, Seen prog head v pred → Known m prog env v)
    (others : ∀ v, v ∉ defs phis → env₁ v = env v)
    (assigned : ∀ dst inputs, .phi dst inputs ∈ phis → env₁ dst = (phiInput pred inputs).bind env)
    (distinct : (defs phis').Nodup) (agree : Agree prog' env env') :
    ∃ env₁', evalPhis pred env' phis' env' = some env₁' ∧ Agree prog' env₁ env₁' := by
  have reached := comes.reached
  have arrives : Arrives m prog block env pred := by
    refine ⟨comes, ?_⟩
    rintro p rfl
    exact seen
  -- the inputs of a phi that is left, in both environments
  have taken : ∀ dst inputs', .phi dst inputs' ∈ phis' →
      (phiInput pred inputs').bind env' = env₁ dst ∧ ∃ x, (phiInput pred inputs').bind env' = some x := by
    intro dst inputs' present
    obtain ⟨i, before, alike⟩ := thinned.mem present
    obtain ⟨inputs, rfl⟩ := pass.place_phi alike
    obtain ⟨front, here, _⟩ := at_phi split before
    obtain ⟨_, ⟨⟩, _, uses, starts⟩ := pass.phis block _ dst inputs _ reached here alike
    have value := sound.phi block _ dst inputs inputs' pred env here alike arrives
    have kept : ∀ w, phiInput pred inputs' = some w → Kept prog' w := by
      intro w found
      obtain ⟨⟨q, w'⟩, first, same⟩ := Option.map_eq_some_iff.mp found
      have listed := List.mem_of_find?_eq_some first
      obtain rfl : q = pred := by simpa using List.find?_some first
      cases same
      cases q with
      | none => exact (starts _ listed).2
      | some p => exact (uses p _ listed comes.1).2
    have moved : (phiInput pred inputs').bind env' = (phiInput pred inputs').bind env := by
      cases found : phiInput pred inputs' with
      | none => rfl
      | some w => exact agree w (kept w found)
    obtain ⟨w, input, _, saw⟩ := wf.phi_seen split phi comes before
    rw [moved, value, assigned dst inputs before, input]
    exact ⟨rfl, (seen w saw).assigned⟩
  obtain ⟨env₁', ran, others', assigned'⟩ := evalPhis_spec pred env' env'
    (fun i' present => by
      obtain ⟨i, before, alike⟩ := thinned.mem present
      exact (pass.shape _ _ alike).isPhi.trans (phi i before))
    distinct (fun dst inputs' present => (taken dst inputs' present).2)
  refine ⟨env₁', ran, fun v kept => ?_⟩
  by_cases left : v ∈ defs phis'
  · obtain ⟨i', present, defines⟩ := mem_defs.mp left
    obtain ⟨i, before, alike⟩ := thinned.mem present
    cases i' with
    | phi dst inputs' =>
      cases defines
      rw [assigned' v inputs' present, (taken v inputs' present).1]
    | _ => exact absurd ((pass.shape _ _ alike).isPhi.trans (phi i before)) nofun
  · rw [others' v left, agree v kept, others v fun before => left (pass.keeps thinned kept before)]

/-- Results of blocks that only differ where environments may. -/
structure BlockResult.Alike (prog' : SsaProgram) (r r' : BlockResult) : Prop where
  effects : r'.effects = r.effects
  world : r'.world = r.world
  how : r'.how = r.how
  agree : Agree prog' r.env r'.env

theorem execBlock_thinned {b b' : SsaBlock} (world : World) (wf : prog.WellFormed) (pass : Pass prog prog' same drop)
    (sound : Sound m prog same drop) (arrives : Arrives m prog block env pred)
    (found : prog.blocks[block]? = some b) (found' : prog'.blocks[block]? = some b')
    (agree : Agree prog' env env') :
    (execBlock m prog pred block b env world).Alike prog'
      (execBlock m prog' pred block b' env' world) := by
  have reached := arrives.1.reached
  obtain ⟨head, phis, body, split, values, first, phi, plain⟩ := wf.leads block reached
  have thinned := pass.thinned block reached
  rw [split] at thinned
  obtain ⟨xs', body', split', front, back⟩ := thinned.append_left
  obtain ⟨head', phis', rfl, front, middle⟩ := front.append_left
  have plainHead : ∀ i ∈ head, i.isPhi = false := fun i present => entryValue_not_phi (values i present)
  have kinds : ∀ {xs ys : List SsaInsn} {kind : Bool}, Thinned same drop xs ys →
      (∀ i ∈ xs, i.isPhi = kind) → ∀ i ∈ ys, i.isPhi = kind := by
    intro xs ys kind thinned every i' present
    obtain ⟨i, before, alike⟩ := thinned.mem present
    exact (pass.shape _ _ alike).isPhi.trans (every i before)
  obtain ⟨env₀, start, _, seen⟩ := wf.arrives_known split values first world arrives
  obtain ⟨env₁, merged, knows, others, assigned⟩ :=
    wf.evalPhis_knows split first phi arrives.1 seen
  have started := execList_thinned world wf pass sound reached
    (show prog.insnsOf block = [] ++ head ++ (phis ++ body) by rw [split, List.append_assoc]; rfl) plainHead front
    (SsaProgram.WellFormed.arrives_knows split first arrives) agree
  rw [start] at started
  have start' : execList m head' env' world =
      { effects := [], env := (execList m head' env' world).env, world, how := none } := by
    obtain ⟨effects, world, how, _⟩ := started
    generalize execList m head' env' _ = r at effects world how
    cases r
    cases effects
    cases world
    cases how
    rfl
  have distinct : (defs phis').Nodup := by
    have whole := (wf.nodup_insnsOf block).sublist (pass.fewer block)
    rw [split', defs_append, defs_append] at whole
    exact whole.of_append_left.of_append_right
  obtain ⟨env₁', merged', agreed⟩ := evalPhis_thinned wf pass sound split phi middle arrives.1 seen
    others assigned distinct started.agree
  rw [execBlock_eq _ _ ((SsaProgram.insnsOf_eq found).symm.trans split) plainHead phi plain start merged,
    execBlock_eq _ _ ((SsaProgram.insnsOf_eq found').symm.trans split') (kinds front plainHead)
      (kinds middle phi) (kinds back plain) start' merged']
  obtain ⟨effects, world, how, agreed⟩ := execList_thinned _ wf pass sound
    reached (split.trans (List.append_nil _).symm) plain back knows agreed
  refine ⟨effects, world, ?_, agreed⟩
  unfold ListResult.close SsaProgram.fallsTo SsaProgram.outEdges
  rw [how, pass.edges]

theorem runFrom_thinned (wf : prog.WellFormed) (pass : Pass prog prog' same drop)
    (sound : Sound m prog same drop) (fuel : Nat) (arrives : Arrives m prog block env pred)
    (agree : Agree prog' env env') :
    runFrom m prog' fuel pred block env' world = runFrom m prog fuel pred block env world := by
  induction fuel generalizing pred block env env' world with
  | zero => rfl
  | succ fuel ih =>
    have reached := arrives.1.reached
    have inside : ∀ {prog : SsaProgram}, prog.isLive block → ∃ b, prog.blocks[block]? = some b := by
      intro prog lives
      unfold SsaProgram.isLive at lives
      cases found : prog.blocks[block]? with
      | none =>
        rw [found] at lives
        cases lives
      | some b => exact ⟨b, rfl⟩
    obtain ⟨b, found⟩ := inside (wf.live block reached)
    obtain ⟨b', found'⟩ := inside (pass.lives block reached)
    have leaves := leaves_knows world wf arrives found
    obtain ⟨effects, same, how, agreed⟩ := execBlock_thinned world wf pass sound arrives found
      found' agree
    rw [runFrom, runFrom, found, found']
    dsimp only
    rw [how, effects]
    cases left : (execBlock m prog pred block b env world).how with
    | goto next =>
      rw [left] at leaves
      dsimp only
      rw [same, ih (leaves_arrives reached leaves) agreed]
    | ended ending => rfl
    | stuck => rfl

/-- A sound pass does not change the runs of a well-formed program. -/
theorem run_thinned (wf : prog.WellFormed) (pass : Pass prog prog' same drop)
    (sound : Sound m prog same drop) (world : World) (fuel : Nat) :
    run m prog' world fuel = run m prog world fuel := by
  unfold run
  rw [pass.entry]
  exact runFrom_thinned wf pass sound fuel ⟨rfl, nofun⟩ fun _ _ => rfl

end EbpfLab.Ssa
