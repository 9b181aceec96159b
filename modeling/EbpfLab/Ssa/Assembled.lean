import EbpfLab.Ssa.Rendering

/-!
# What the built program is made of

Every block that is reached is its phis and its rendered code, and every input of its phis comes from a
version its predecessor leaves behind, inputs of the repair included.
-/

namespace EbpfLab.Ssa
open Isa FlowGraph

variable {petgraph : Petgraph} {insns : List Insn} {cfg : Cfg} {b b' b'' : Builder} {block p k fuel : Nat} {reg r : Reg}
  {v w : SsaValue} {insn : SsaInsn} {inputs : List (Pred × SsaValue)} {regOf : SsaValue → Reg} {own : Builder.Owned}
  {code : Nat → List Insn}

namespace Builder

/-- The instructions of a block. -/
def codeOf (insns : List Insn) (cfg : Cfg) (p : Nat) : List Insn :=
  (insns.drop (cfg.blocks.getD p ⟨0, 0⟩).start).take
    ((cfg.blocks.getD p ⟨0, 0⟩).stop - (cfg.blocks.getD p ⟨0, 0⟩).start)

/-- The instructions of the blocks that are filled. -/
def filledCode (insns : List Insn) (cfg : Cfg) (b : Builder) (p : Nat) : List Insn :=
  if b.isFilled p then codeOf insns cfg p else []

/-! ### Visits -/

section

variable (inner : ∀ {p q : Nat}, q ∈ cfg.preds p → q < cfg.blocks.length)
include inner

/-- The phis of a block that waited take their inputs. -/
theorem pending_grounds {pending : List (Nat × Reg)} (inside : block < cfg.blocks.length)
    (grounded : Grounded cfg regOf own b)
    (waits : ∀ entry ∈ pending, ∃ v inputs, (b.headOf block)[entry.1]? = some (.phi v inputs) ∧ regOf v = entry.2)
    (done : pending.foldlM (fun b (pos, reg) => completePhi cfg (read cfg fuel) b block pos reg) b = some b') :
    ∃ regOf', Grounds cfg own regOf b regOf' b' := by
  induction pending generalizing b regOf with
  | nil =>
    cases done
    exact ⟨regOf, .refl grounded⟩
  | cons entry pending ih =>
    rw [List.foldlM_cons] at done
    obtain ⟨mid, completed, done⟩ := Option.bind_eq_some_iff.mp done
    obtain ⟨v, inputs, there, names⟩ := waits entry List.mem_cons_self
    obtain ⟨regOf₁, first⟩ := completePhi_grounds inner
      (fun inside grounded found => read_grounds inner inside grounded found) inside grounded there names
      completed
    have still : ∀ entry ∈ pending, ∃ v inputs, (mid.headOf block)[entry.1]? = some (.phi v inputs) ∧
        regOf₁ v = entry.2 := by
      intro entry later
      obtain ⟨v, inputs, there, names⟩ := waits entry (List.mem_cons_of_mem _ later)
      obtain ⟨inputs', stands⟩ := first.later.phis block entry.1 v inputs there
      exact ⟨v, inputs', stands, (first.later.agree v (grounded.phis _ _ _ _ there).2).trans names⟩
    obtain ⟨regOf', rest⟩ := ih first.grounded still done
    exact ⟨regOf', first.trans rest⟩

theorem seal_rendered (rendered : Rendered cfg regOf own code b) (inside : block < cfg.blocks.length)
    (full : b.isFilled block) (done : «seal» cfg fuel b block = some b') :
    (∃ regOf', Rendered cfg regOf' own code b') ∧ b'.filled = b.filled := by
  obtain ⟨mid, completed, same⟩ := Option.bind_eq_some_iff.mp done
  cases same
  have place : block < b.incomplete.length := rendered.sized.incomplete.symm ▸ inside
  have opened : Rendered cfg regOf own code
      { b with sealing := b.sealing.set block true, incomplete := b.incomplete.set block [] } := by
    refine rendered.same (rendered.toGrounded.same ?_ rfl rfl rfl rfl rfl (fun _ => id) rendered.shut fun p entry waits =>
      Or.inl ?_) rfl rfl rfl fun _ => id
    · exact ⟨rendered.sized.cur, rendered.sized.heads, by simpa using rendered.sized.incomplete,
        rendered.sized.filled, rendered.sized.sealed⟩
    · unfold pendOf at waits
      rw [getD_set place] at waits
      split at waits
      · cases waits
      · exact waits
  obtain ⟨regOf', grounds⟩ := pending_grounds inner inside opened.toGrounded
    (fun entry queued => rendered.pend block entry queued) completed
  have after := opened.later grounds
  refine ⟨⟨regOf', after.same (after.toGrounded.same ?_ rfl rfl rfl rfl rfl (fun _ => id) (fun p shut self => ?_)
    fun _ _ => Or.inl) rfl rfl rfl fun _ => id⟩, grounds.later.filled⟩
  · exact ⟨after.sized.cur, after.sized.heads, after.sized.incomplete, after.sized.filled,
      by simpa using after.sized.sealed⟩
  · unfold isSealed at shut
    rw [getD_set (after.sized.sealed.symm ▸ inside)] at shut
    split at shut
    · rename_i here
      subst here
      change mid.filled.getD p false = true
      rw [grounds.later.filled]
      exact full
    · exact after.shut p shut self

theorem visit_rendered (rendered : Rendered cfg regOf own (filledCode insns cfg b) b)
    (inside : block < cfg.blocks.length) (open_ : b.isFilled block = false)
    (done : visit cfg fuel insns b block = some (.ok b')) :
    (∃ regOf own, Rendered cfg regOf own (filledCode insns cfg b') b') ∧
      ∀ p, b'.isFilled p = if p = block then true else b.isFilled p := by
  unfold visit at done
  dsimp only at done
  generalize started : (if ({ b with live := b.live.set block true } : Builder).allPredsSealed cfg block then
    { b with live := b.live.set block true, «sealed» := b.sealed.set block true }
    else { b with live := b.live.set block true } : Builder) = b₁ at done
  obtain ⟨result, filling, done⟩ := Option.bind_eq_some_iff.mp done
  cases result with
  | error e => cases done
  | ok b₂ =>
    obtain ⟨last, sealed_, same⟩ := Option.bind_eq_some_iff.mp done
    obtain rfl : last = b' := by
      cases same
      rfl
    have filled₁ : b₁.filled = b.filled := by subst started; split <;> rfl
    have first : Rendered cfg regOf own (filledCode insns cfg b) b₁ := by
      subst started
      split
      · rename_i shut
        refine rendered.same (rendered.toGrounded.same ?_ rfl rfl rfl rfl rfl (fun _ => id) (fun p closed self => ?_)
          fun _ _ => Or.inl) rfl rfl rfl fun _ => id
        · exact ⟨rendered.sized.cur, rendered.sized.heads, rendered.sized.incomplete, rendered.sized.filled,
            by simpa using rendered.sized.sealed⟩
        · refine rendered.shut p ?_ self
          unfold isSealed at closed
          rw [getD_set (rendered.sized.sealed.symm ▸ inside)] at closed
          split at closed
          · rename_i here
            subst here
            exact List.all_eq_true.mp shut p self
          · exact closed
      · exact rendered.same (rendered.toGrounded.same
          ⟨rendered.sized.cur, rendered.sized.heads, rendered.sized.incomplete, rendered.sized.filled, rendered.sized.sealed⟩
          rfl rfl rfl rfl rfl (fun _ => id) rendered.shut fun _ _ => Or.inl) rfl rfl rfl fun _ => id
    obtain ⟨⟨regOf₂, own₂, second⟩, filled₂⟩ := fillFrom_rendered inner inside
      (by rw [isFilled, filled₁]; exact open_) first filling
    have row : block < b₂.filled.length := second.sized.filled.symm ▸ inside
    have filled₃ : ∀ p, ({ b₂ with filled := b₂.filled.set block true } : Builder).isFilled p =
        if p = block then true else b.isFilled p := by
      intro p
      unfold isFilled
      rw [getD_set row, filled₂, filled₁]
    have third : Rendered cfg regOf₂ own₂ (Function.update (filledCode insns cfg b) block
        (filledCode insns cfg b block ++ codeOf insns cfg block))
        { b₂ with filled := b₂.filled.set block true } := by
      refine second.same (second.toGrounded.same ?_ rfl rfl rfl rfl rfl (fun _ => isSet_set) (fun p shut self =>
        isSet_set (second.shut p shut self)) fun _ _ => Or.inl) rfl rfl rfl fun _ => isSet_set
      exact ⟨second.sized.cur, second.sized.heads, second.sized.incomplete, by simpa using second.sized.filled,
        second.sized.sealed⟩
    obtain ⟨⟨regOf₄, fourth⟩, filled₄⟩ := seal_rendered inner third inside
      (by rw [filled₃, if_pos rfl]) sealed_
    have filled : ∀ p, last.isFilled p = if p = block then true else b.isFilled p := by
      intro p
      rw [← filled₃, isFilled, filled₄]
      rfl
    refine ⟨⟨regOf₄, own₂, ?_⟩, filled⟩
    have whole : filledCode insns cfg last = Function.update (filledCode insns cfg b) block
        (filledCode insns cfg b block ++ codeOf insns cfg block) := by
      funext p
      unfold filledCode
      rw [Function.update_apply, filled, open_]
      by_cases here : p = block <;> simp [here]
    rw [whole]
    exact fourth

theorem visitAll_rendered {nodes : List Nat} (rendered : Rendered cfg regOf own (filledCode insns cfg b) b)
    (inside : ∀ node ∈ nodes, node < cfg.blocks.length) (once : nodes.Nodup) (fresh : ∀ p, b.isFilled p → p ∉ nodes)
    (done : visitAll cfg fuel insns b nodes = some (.ok b')) :
    (∃ regOf own, Rendered cfg regOf own (filledCode insns cfg b') b') ∧
      ∀ p, b'.isFilled p ↔ b.isFilled p ∨ p ∈ nodes := by
  induction nodes generalizing b regOf own with
  | nil =>
    cases done
    exact ⟨⟨regOf, own, rendered⟩, fun p => by simp⟩
  | cons node nodes ih =>
    unfold visitAll at done
    obtain ⟨result, first, done⟩ := Option.bind_eq_some_iff.mp done
    cases result with
    | error e => cases done
    | ok mid =>
      obtain ⟨alone, once⟩ := List.nodup_cons.mp once
      have open_ : b.isFilled node = false :=
        Bool.eq_false_iff.mpr fun filled => fresh node filled List.mem_cons_self
      obtain ⟨⟨regOf₁, own₁, after⟩, filled⟩ :=
        visit_rendered inner rendered (inside node List.mem_cons_self) open_ first
      have fresh₁ : ∀ p, mid.isFilled p → p ∉ nodes := by
        intro p before later
        rw [filled] at before
        split at before
        · rename_i here
          exact alone (here ▸ later)
        · exact fresh p before (List.mem_cons_of_mem _ later)
      obtain ⟨rest, all⟩ := ih after (fun p later => inside p (List.mem_cons_of_mem _ later)) once fresh₁ done
      refine ⟨rest, fun p => ?_⟩
      rw [all, filled, List.mem_cons]
      by_cases here : p = node <;> simp [here]

end

/-! ### The prelude -/

/-- The registers an entry starts out with. -/
def Starts (cfg : Cfg) (r : Reg) : Bool := !entryLoop cfg || r.isFramePtr

theorem prelude_fold (regs : List Reg) (inside : cfg.entry < b.cur.length) :
    ∃ b', regs.foldl
        (fun b r => if !entryLoop cfg || r.isFramePtr then b.setCurrent cfg.entry r (b.entryEnv r) else b) b = b' ∧
      b'.heads = b.heads ∧ b'.bodies = b.bodies ∧ b'.next = b.next ∧ b'.sealed = b.sealed ∧
      ∀ p r, b'.current p r = if p = cfg.entry ∧ r ∈ regs ∧ Starts cfg r then some (b.entryEnv r) else b.current p r := by
  induction regs generalizing b with
  | nil => exact ⟨b, rfl, rfl, rfl, rfl, rfl, fun p r => by simp⟩
  | cons first regs ih =>
    rw [List.foldl_cons]
    by_cases starts : (!entryLoop cfg || first.isFramePtr) = true
    · rw [if_pos starts]
      obtain ⟨b', ran, heads, bodies, next, shut, current⟩ :=
        ih (b := b.setCurrent cfg.entry first (b.entryEnv first)) (by simpa [setCurrent] using inside)
      refine ⟨b', ran, heads, bodies, next, shut, fun p r => ?_⟩
      rw [current, current_setCurrent inside]
      by_cases here : r = first
      · subst here
        by_cases at_ : p = cfg.entry <;> simp [at_, Starts, starts, setCurrent]
      · by_cases at_ : p = cfg.entry <;> simp [at_, here, setCurrent]
    · rw [if_neg starts]
      obtain ⟨b', ran, heads, bodies, next, shut, current⟩ := ih (b := b) inside
      refine ⟨b', ran, heads, bodies, next, shut, fun p r => ?_⟩
      rw [current]
      by_cases here : r = first
      · subst here
        simp [Starts, starts]
      · simp [here]

theorem prelude_rendered (inside : cfg.entry < cfg.blocks.length) :
    Rendered cfg (fun _ => 0) (fun _ _ => none) (filledCode insns cfg ((new cfg).prelude cfg))
      ((new cfg).prelude cfg) := by
  have blank : Blank cfg ((new cfg).prelude cfg) := prelude_blank
  have absent : ∀ {α : Type} (n p : Nat) (d : α), (List.replicate n d).getD p d = d := by
    intro α n p d
    rw [List.getD_eq_getElem?_getD, List.getElem?_replicate]
    split <;> rfl
  obtain ⟨b, ran, heads, bodies, next, shut, current⟩ : ∃ b, (new cfg).prelude cfg = b ∧
      b.heads = (((List.replicate cfg.blocks.length []).modify cfg.entry (· ++ [.const 0 0])).modify
        cfg.entry (· ++ [.framePtr 1])).modify cfg.entry (· ++ [.entryCtx 2]) ∧
      b.bodies = List.replicate cfg.blocks.length [] ∧ b.next = 3 ∧
      b.sealed = List.replicate cfg.blocks.length false ∧
      ∀ p r, b.current p r = if p = cfg.entry ∧ Starts cfg r then some (entryVersion r) else none := by
    unfold prelude
    dsimp only
    generalize started : emitHead _ _ _ = b
    have cur : b.cur = List.replicate cfg.blocks.length (Vector.replicate 11 none) := by rw [← started]; rfl
    have row : cfg.entry < b.cur.length := by
      rw [cur, List.length_replicate]
      exact inside
    obtain ⟨b', ran, heads, bodies, next, shut, current⟩ := prelude_fold (List.finRange 11) row
    refine ⟨b', ran, heads.trans ?_, bodies.trans ?_, next.trans ?_, shut.trans ?_, fun p r => ?_⟩
    · rw [← started]; rfl
    · rw [← started]; rfl
    · rw [← started]; rfl
    · rw [← started]; rfl
    · have none_ : b.current p r = none := by
        rw [Builder.current, cur, List.getElem?_replicate]
        split
        · simp [Vector.get]
        · rfl
      have entryEnv : b.entryEnv = entryVersion := by rw [← started]; rfl
      rw [current, none_, entryEnv]
      simp
  rw [ran] at blank ⊢
  have place : cfg.entry < (List.replicate cfg.blocks.length ([] : List SsaInsn)).length := by
    rwa [List.length_replicate]
  have headOf_eq : ∀ p, b.headOf p = pseudo cfg p := by
    intro p
    unfold headOf pseudo
    have third : ∀ q, b.heads.getD q [] = _ := fun q => heads ▸ getD_modify (by simpa using place)
    have second : ∀ q, (((List.replicate cfg.blocks.length []).modify cfg.entry (· ++ [SsaInsn.const 0 0])).modify
        cfg.entry (· ++ [.framePtr 1])).getD q [] = _ := fun q => getD_modify (by simpa using place)
    have first : ∀ q, ((List.replicate cfg.blocks.length []).modify cfg.entry (· ++ [SsaInsn.const 0 0])).getD q [] = _ :=
      fun q => getD_modify place
    rw [third, second, second, first, first, absent, absent]
    simp only [if_true]
    split <;> rfl
  have never : ∀ {p k : Nat} {dst : SsaValue} {inputs : List (Pred × SsaValue)},
      (b.headOf p)[k]? ≠ some (.phi dst inputs) := by
    intro p k dst inputs there
    cases blank.heads p _ (List.mem_of_getElem? there)
  refine ⟨?_, by rw [bodies, List.length_replicate], fun p => ?_⟩
  · constructor
    case sized => exact blank.sized
    case entryEnv => exact blank.entryEnv
    case next => exact next.ge
    case phis => exact fun p k v inputs there => absurd there never
    case owned => exact fun p reg v owns => by cases owns
    case current =>
      intro p reg v found _
      rw [current] at found
      split at found
      · rename_i here
        obtain ⟨rfl, starts⟩ := here
        cases found
        exact .entry (by simpa [Starts] using starts)
      · cases found
    case given => exact fun p k v inputs there => absurd there never
    case starts => exact fun p k v inputs there => absurd there never
    case shut =>
      intro p closed
      rw [isSealed, shut, absent] at closed
      cases closed
    case pend =>
      intro p entry waits
      rw [blank.pend p] at waits
      cases waits
    case recorded =>
      rw [blank.stale]
      intro s present
      cases present
    case named =>
      intro once r
      rw [current, if_pos ⟨rfl, by simp [Starts, once]⟩]
      rfl
    case heads =>
      intro p
      rw [headOf_eq]
      exact ⟨[], (List.append_nil _).symm, fun i among => absurd among List.not_mem_nil, fun _ _ => rfl⟩
  · have empty : filledCode insns cfg b p = [] := by
      unfold filledCode
      rw [blank.filled p]
      rfl
    rw [bodies, absent, empty]
    exact .nil

/-! ### The repair -/

/-- A phi without its inputs. -/
def hollow : SsaInsn → SsaInsn
  | .phi dst _ => .phi dst []
  | insn => insn

theorem hollow_phi (same : hollow insn = .phi v []) : ∃ inputs, insn = .phi v inputs := by
  cases insn with
  | phi dst inputs =>
    cases same
    exact ⟨inputs, rfl⟩
  | _ => cases same

theorem hollow_plain {other : SsaInsn} (plain : insn.isPhi = false) (same : hollow other = insn) : other = insn := by
  cases other with
  | phi dst inputs =>
    rw [← same] at plain
    cases plain
  | _ => exact same

/-- The version the repair puts in place of an input. -/
def Settles (b : Builder) (s : StaleInput) (v : SsaValue) : Prop := b.isFilled s.pred ∧ b.current s.pred s.reg = some v

/-- Where the input at a place comes from, when those of `done` are repaired: it was there, or was put there. -/
def Origin (b : Builder) (done : List StaleInput) (p k idx : Nat) (before after : SsaValue) : Prop :=
  after = before ∧ (∀ s ∈ done, s.block = p → s.pos = k → s.idx = idx → ∀ u, ¬ Settles b s u) ∨
    ∃ s ∈ done, s.block = p ∧ s.pos = k ∧ s.idx = idx ∧ Settles b s after

/-- The edges of a phi stay when an input is replaced. -/
theorem map_fst_modify {idx : Nat} {value : SsaValue} :
    (inputs.modify idx fun input => (input.1, value)).map Prod.fst = inputs.map Prod.fst := by
  refine List.ext_getElem? fun j => ?_
  rw [List.getElem?_map, List.getElem?_map, List.getElem?_modify]
  cases inputs[j]? with
  | none => rfl
  | some old => by_cases here : idx = j <;> simp [here]

theorem Origin.snoc {s : StaleInput} {done : List StaleInput} {idx : Nat} (origin : Origin b done p k idx v w)
    (apart : s.block = p → s.pos = k → s.idx = idx → ∀ u, ¬ Settles b s u) : Origin b (done ++ [s]) p k idx v w := by
  refine origin.imp (fun kept => ⟨kept.1, fun t among => ?_⟩) fun ⟨t, among, rest⟩ =>
    ⟨t, List.mem_append_left _ among, rest⟩
  rcases List.mem_append.mp among with early | late
  · exact kept.2 t early
  · rw [List.mem_singleton.mp late]
    exact apart

/-- What the inputs are when those of `done` are repaired. -/
structure Replaces (b : Builder) (done : List StaleInput) (c : Builder) : Prop where
  cur : c.cur = b.cur
  filled : c.filled = b.filled
  bodies : c.bodies = b.bodies
  shape : ∀ p, (c.headOf p).map hollow = (b.headOf p).map hollow
  inputs : ∀ (p k : Nat) (v : SsaValue) (inputs : List (Pred × SsaValue)),
    (c.headOf p)[k]? = some (.phi v inputs) → ∃ before, (b.headOf p)[k]? = some (.phi v before) ∧
      inputs.map Prod.fst = before.map Prod.fst ∧ ∀ (idx : Nat) (q : Pred) (w : SsaValue), inputs[idx]? = some (q, w) →
        ∃ w', before[idx]? = some (q, w') ∧ Origin b done p k idx w' w

/-- The repair leaves the phis where they stand. -/
theorem Replaces.stands {done : List StaleInput} {c : Builder} (replaces : Replaces b done c)
    (there : (b.headOf p)[k]? = some (.phi v inputs)) : ∃ inputs', (c.headOf p)[k]? = some (.phi v inputs') := by
  have same := congrArg (fun head : List SsaInsn => head[k]?) (replaces.shape p)
  simp only [List.getElem?_map, there, Option.map_some, hollow] at same
  obtain ⟨insn, found, same⟩ := Option.map_eq_some_iff.mp same
  obtain ⟨inputs', rfl⟩ := hollow_phi same
  exact ⟨inputs', found⟩

theorem Replaces.step {s : StaleInput} {done : List StaleInput} {c : Builder} (replaces : Replaces b done c)
    (recorded : (b.headOf s.block)[s.pos]? = some (.phi v inputs)) : Replaces b (done ++ [s]) (repairInput c s) := by
  have isFilled_eq : c.isFilled = b.isFilled := by funext p; rw [isFilled, replaces.filled]; rfl
  have current_eq : c.current = b.current := by funext p r; rw [current, replaces.cur]; rfl
  obtain ⟨inputs₀, there⟩ := replaces.stands recorded
  by_cases settled : c.isFilled s.pred = true ∧ ∃ value, c.current s.pred s.reg = some value
  · obtain ⟨filled, value, found⟩ := settled
    obtain ⟨taken, others⟩ := repairInput_at filled found there
    have settles : Settles b s value := ⟨by rw [← isFilled_eq, filled], by rw [← current_eq, found]⟩
    have same : (repairInput c s).cur = c.cur ∧ (repairInput c s).filled = c.filled ∧
        (repairInput c s).bodies = c.bodies := by
      unfold repairInput
      rw [if_pos filled, found]
      exact ⟨rfl, rfl, rfl⟩
    refine ⟨same.1.trans replaces.cur, same.2.1.trans replaces.filled, same.2.2.trans replaces.bodies, fun p => ?_,
      fun p k u inputs stands => ?_⟩
    · rw [← replaces.shape]
      refine List.ext_getElem? fun k => ?_
      rw [List.getElem?_map, List.getElem?_map]
      by_cases here : (p, k) = (s.block, s.pos)
      · obtain ⟨rfl, rfl⟩ := Prod.mk.inj here
        rw [taken, there]
        rfl
      · rw [others p k here]
    · by_cases here : (p, k) = (s.block, s.pos)
      · obtain ⟨rfl, rfl⟩ := Prod.mk.inj here
        rw [taken] at stands
        cases stands
        obtain ⟨before, stood, edges, each⟩ := replaces.inputs _ _ _ _ there
        refine ⟨before, stood, map_fst_modify.trans edges, fun idx q w at_ => ?_⟩
        rcases getElem?_replaced at_ with ⟨rfl, rfl, old, was⟩ | ⟨away, was⟩
        · obtain ⟨w', old, _⟩ := each _ q old was
          exact ⟨w', old, Or.inr ⟨s, List.mem_append_right _ List.mem_cons_self, rfl, rfl, rfl, settles⟩⟩
        · obtain ⟨w', old, origin⟩ := each idx q w was
          exact ⟨w', old, origin.snoc fun _ _ same => absurd same.symm away⟩
      · rw [others p k here] at stands
        obtain ⟨before, stood, edges, each⟩ := replaces.inputs p k u inputs stands
        refine ⟨before, stood, edges, fun idx q w at_ => ?_⟩
        obtain ⟨w', old, origin⟩ := each idx q w at_
        exact ⟨w', old, origin.snoc fun same₁ same₂ => absurd (by rw [same₁, same₂]) here⟩
  · have unchanged : repairInput c s = c := by
      unfold repairInput
      split
      · split
        · rename_i filled _ value found
          exact absurd ⟨filled, value, found⟩ settled
        · rfl
      · rfl
    rw [unchanged]
    refine ⟨replaces.cur, replaces.filled, replaces.bodies, replaces.shape, fun p k u inputs stands => ?_⟩
    obtain ⟨before, stood, edges, each⟩ := replaces.inputs p k u inputs stands
    refine ⟨before, stood, edges, fun idx q w at_ => ?_⟩
    obtain ⟨w', old, origin⟩ := each idx q w at_
    refine ⟨w', old, origin.snoc fun _ _ _ u settles => settled ?_⟩
    rw [isFilled_eq, current_eq]
    exact ⟨settles.1, u, settles.2⟩

theorem repair_replaces
    (recorded : ∀ s ∈ b.stale, ∃ v inputs, (b.headOf s.block)[s.pos]? = some (.phi v inputs)) :
    Replaces b b.stale b.repair := by
  have run : ∀ (rest done : List StaleInput) (c : Builder),
      (∀ s ∈ rest, ∃ v inputs, (b.headOf s.block)[s.pos]? = some (.phi v inputs)) →
      Replaces b done c → Replaces b (done ++ rest) (rest.foldl repairInput c) := by
    intro rest
    induction rest with
    | nil =>
      intro done c _ replaces
      rwa [List.append_nil]
    | cons s rest ih =>
      intro done c stands replaces
      obtain ⟨v, inputs, there⟩ := stands s List.mem_cons_self
      rw [List.append_cons]
      exact ih _ _ (fun t later => stands t (List.mem_cons_of_mem _ later)) (replaces.step there)
  rw [repair_eq]
  refine run b.stale [] _ recorded ⟨rfl, rfl, rfl, fun _ => rfl, fun p k v inputs there => ⟨inputs, there, rfl, ?_⟩⟩
  exact fun idx q w at_ => ⟨w, at_, Or.inl ⟨rfl, fun s among => absurd among List.not_mem_nil⟩⟩

/-! ### The program -/

/-- When the only edge into the entry is its own, a block with another one for its only predecessor is not the
entry. -/
theorem ne_entry (open_entry : ∀ q, cfg.preds cfg.entry = [q] → q = cfg.entry) {q : Nat} (other : q ≠ p)
    (single : cfg.preds p = [q]) : p ≠ cfg.entry := by
  rintro rfl
  exact other (open_entry q single)

/-- The phis and the rendered instructions of a block. -/
structure Parts (insns : List Insn) (cfg : Cfg) (regOf : SsaValue → Reg) (own : Owned) (b : Builder) (p : Nat)
    (phis body : List SsaInsn) : Prop where
  merges : ∀ i ∈ phis, i.isPhi = true
  first : p = cfg.entry → entryLoop cfg = false → phis = []
  above : ∀ v inputs, .phi v inputs ∈ phis → 3 ≤ v
  stands : ∀ (k : Nat) (v : SsaValue) (inputs : List (Pred × SsaValue)),
    (b.headOf p)[k]? = some (.phi v inputs) → ∃ inputs', .phi v inputs' ∈ phis
  edges : ∀ v inputs, .phi v inputs ∈ phis →
    inputs.map Prod.fst = (if p = cfg.entry ∧ entryLoop cfg then [none] else []) ++ (cfg.preds p).map some
  sends : ∀ v inputs q w, .phi v inputs ∈ phis → (some q, w) ∈ inputs → b.isFilled q →
    Outbound cfg regOf own b q (regOf v) w
  supplies : ∀ v inputs q w, .phi v inputs ∈ phis → (some q, w) ∈ inputs → b.isFilled q →
    Supplies cfg regOf b q (regOf v) w
  starts : ∀ v inputs w, .phi v inputs ∈ phis → (none, w) ∈ inputs → w = entryVersion (regOf v)
  code : RendersAll cfg p regOf b.next (Inbound cfg regOf own b p) (fun _ => none) (codeOf insns cfg p) body (own p)

/-- The program is made of the parts of its blocks. -/
structure Assembled (insns : List Insn) (cfg : Cfg) (regOf : SsaValue → Reg) (own : Owned) (b : Builder)
    (prog : SsaProgram) : Prop where
  entry : prog.entry = cfg.entry
  edges : prog.edges = cfg.edges
  filled : ∀ p, b.isFilled p ↔ cfg.Reaches p
  owned : ∀ p reg v, own p reg = some v → regOf v = reg ∧ 3 ≤ v
  above : ∀ (p k : Nat) (v : SsaValue) (inputs : List (Pred × SsaValue)),
    (b.headOf p)[k]? = some (.phi v inputs) → 3 ≤ v
  blocks : ∀ p, cfg.Reaches p → ∃ phis body live,
    prog.blocks[p]? = some ⟨pseudo cfg p ++ phis ++ body, live⟩ ∧ Parts insns cfg regOf own b p phis body

theorem Rendered.replaces (rendered : Rendered cfg regOf own code b) : Replaces b b.stale b.repair :=
  repair_replaces fun s present => by
    obtain ⟨v, inputs, _, there, _⟩ := rendered.recorded s present
    exact ⟨v, inputs, there⟩

/-- The inputs of a filled builder, when it is repaired, are what the predecessors leave. -/
theorem Rendered.sends (rendered : Rendered cfg regOf own code b) {q : Nat}
    (there : (b.repair.headOf p)[k]? = some (.phi v inputs)) (input : (some q, w) ∈ inputs) (full : b.isFilled q) :
    Outbound cfg regOf own b q (regOf v) w ∧ Supplies cfg regOf b q (regOf v) w := by
  have replaces := rendered.replaces
  obtain ⟨idx, at_⟩ := List.mem_iff_getElem?.mp input
  obtain ⟨before, stood, _, each⟩ := replaces.inputs p k v inputs there
  obtain ⟨w', old, origin⟩ := each idx _ w at_
  rcases origin with ⟨rfl, kept⟩ | ⟨s, present, rfl, rfl, rfl, settles⟩
  · rcases rendered.given p k v before stood idx q w old with ⟨listed, named⟩ | out
    · obtain ⟨u, found⟩ := Option.isSome_iff_exists.mp named
      exact absurd ⟨full, found⟩ (kept _ listed rfl rfl rfl u)
    · exact out
  · -- the listed input is of this phi, and so of its register
    obtain ⟨v', inputs', u, there', names, input'⟩ := rendered.recorded s present
    rw [stood] at there'
    cases there'
    rw [old] at input'
    cases input'
    rw [names]
    exact ⟨⟨settles.1, rendered.toGrounded.holds settles.2⟩, Or.inl settles.2⟩

theorem Rendered.starts_repaired (rendered : Rendered cfg regOf own code b)
    (there : (b.repair.headOf p)[k]? = some (.phi v inputs)) (input : (none, w) ∈ inputs) :
    w = entryVersion (regOf v) := by
  have replaces := rendered.replaces
  obtain ⟨idx, at_⟩ := List.mem_iff_getElem?.mp input
  obtain ⟨before, stood, _, each⟩ := replaces.inputs p k v inputs there
  obtain ⟨w', old, origin⟩ := each idx _ w at_
  rcases origin with ⟨rfl, _⟩ | ⟨s, present, rfl, rfl, rfl, _⟩
  · exact rendered.starts p k v before stood w (List.mem_of_getElem? old)
  · obtain ⟨v', inputs', u, there', _, input'⟩ := rendered.recorded s present
    rw [stood] at there'
    cases there'
    rw [old] at input'
    cases input'

/-- The repair keeps what stands before the phis, and leaves phis. -/
theorem Rendered.heads_repaired (rendered : Rendered cfg regOf own code b) (p : Nat) :
    ∃ phis, b.repair.headOf p = pseudo cfg p ++ phis ∧ (∀ i ∈ phis, i.isPhi = true) ∧
      (p = cfg.entry → entryLoop cfg = false → phis = []) := by
  have replaces := rendered.replaces
  obtain ⟨phis, shape, phi, none_⟩ := rendered.heads p
  have same := replaces.shape p
  rw [shape, List.map_append, List.map_eq_append_iff] at same
  obtain ⟨front, rest, split, ahead, behind⟩ := same
  have fixed : front = pseudo cfg p := by
    have plain : ∀ i ∈ pseudo cfg p, i.isPhi = false := by
      unfold pseudo
      split <;> simp [SsaInsn.isPhi]
    refine List.ext_getElem? fun k => ?_
    have each := congrArg (fun head : List SsaInsn => head[k]?) ahead
    simp only [List.getElem?_map] at each
    cases found : (pseudo cfg p)[k]? with
    | none => rw [found] at each; simpa using each
    | some i =>
      rw [found] at each
      obtain ⟨insn, there, same⟩ := Option.map_eq_some_iff.mp each
      have simple := plain i (List.mem_of_getElem? found)
      have kept : hollow i = i := by cases i <;> first | rfl | cases simple
      rw [there, hollow_plain simple (same.trans kept)]
  refine ⟨rest, by rw [split, fixed], fun i among => ?_, fun here once => ?_⟩
  · obtain ⟨j, before, same⟩ := List.mem_map.mp (behind ▸ List.mem_map_of_mem (f := hollow) among)
    have stands := phi j before
    cases j with
    | phi dst inputs =>
      obtain ⟨inputs', rfl⟩ := hollow_phi same.symm
      rfl
    | _ => cases stands
  · rw [none_ here once] at behind
    exact List.map_eq_nil_iff.mp behind

/-- What the construction leaves behind: the builder it ends with, and how that was rendered. -/
structure Constructed (insns : List Insn) (cfg : Cfg) (regOf : SsaValue → Reg) (own : Owned) (b : Builder) : Prop
    extends Rendered cfg regOf own (filledCode insns cfg b) b where
  reached : ∀ p, b.isFilled p ↔ cfg.Reaches p
  settled : ∀ p, cfg.Reaches p → p < cfg.blocks.length ∧ Done b p
  merges : Phis cfg ∅ b

/-- The construction returns, and the builder of a program has rendered every block that is reached. -/
theorem buildSsaWith_constructed (documented : petgraph.Documented) (graph : buildCfg petgraph insns = .ok cfg)
    (enough : 2 * cfg.blocks.length < fuel) :
    ∃ result, buildSsaWith fuel insns cfg = some result ∧ ∀ prog, result = .ok prog →
      ∃ b regOf own, visitAll cfg fuel insns ((new cfg).prelude cfg) cfg.rpo = some (.ok b) ∧
        prog = b.repair.finish cfg ∧ Constructed insns cfg regOf own b := by
  obtain ⟨targets, parts⟩ := buildCfg_ordered documented graph
  have inner : ∀ {p q : Nat}, q ∈ cfg.preds p → q < cfg.blocks.length := by
    intro p q listed
    simp only [Cfg.preds, Cfg.inEdges, List.mem_map, List.mem_reverse, List.mem_filter] at listed
    obtain ⟨e, ⟨present, _⟩, rfl⟩ := listed
    exact (parts.edge_inside present).1
  have blank : Blank cfg ((new cfg).prelude cfg) := prelude_blank
  have fresh : ∀ p, ((new cfg).prelude cfg).isFilled p → p ∉ cfg.rpo := by
    intro p filled
    rw [blank.filled p] at filled
    cases filled
  obtain ⟨result, ran, ends⟩ := visitAll_visits inner enough blank.phis (fun node => parts.rpo_inside) parts.rpo_nodup
    fresh (fun node listed pc width dst src offset => unconditional_edge graph (parts.rpo_inside listed))
  unfold buildSsaWith
  rw [if_neg (by simpa using parts.nonempty)]
  dsimp only
  rw [ran]
  cases result with
  | error e => exact ⟨.error e, rfl, fun _ failed => by cases failed⟩
  | ok b =>
    refine ⟨.ok (b.repair.finish cfg), rfl, ?_⟩
    rintro _ ⟨⟩
    obtain ⟨merges, settled⟩ := ends b rfl
    obtain ⟨⟨regOf, own, rendered⟩, filled⟩ := visitAll_rendered inner
      (prelude_rendered parts.entry_inside) (fun node => parts.rpo_inside) parts.rpo_nodup fresh ran
    refine ⟨b, regOf, own, rfl, rfl, { rendered with reached := fun p => ?_, settled := fun p reached => ?_, merges }⟩
    · rw [filled, blank.filled, ← parts.mem_rpo]
      simp
    · have listed := (parts.mem_rpo p).mpr reached
      exact ⟨parts.rpo_inside listed, settled p (Or.inl listed)⟩

theorem Constructed.assembled (constructed : Constructed insns cfg regOf own b) :
    Assembled insns cfg regOf own b (b.repair.finish cfg) := by
  have replaces := constructed.toRendered.replaces
  refine ⟨rfl, rfl, constructed.reached, fun p reg v owns => ?_,
    fun p k v inputs there => (constructed.phis p k v inputs there).1, fun p reached => ?_⟩
  · obtain ⟨_, names, above, _⟩ := constructed.owned p reg v owns
    exact ⟨names, above⟩
  · obtain ⟨inside, full⟩ := constructed.settled p reached
    obtain ⟨phis', shape, phi, first⟩ := constructed.toRendered.heads_repaired p
    have here : ∀ {v : SsaValue} {inputs : List (Pred × SsaValue)}, .phi v inputs ∈ phis' →
        ∃ k : Nat, (b.repair.headOf p)[k]? = some (.phi v inputs) := by
      intro v inputs among
      exact List.mem_iff_getElem?.mp (shape ▸ List.mem_append_right _ among)
    refine ⟨phis', b.bodies.getD p [], b.repair.live.getD p false, ?_, phi, first, fun v inputs among => ?_,
      fun k v inputs there => ?_, fun v inputs among => ?_, fun v inputs q w among input full => ?_,
      fun v inputs q w among input full => ?_, fun v inputs w among input => ?_, ?_⟩
    · rw [← shape, ← replaces.bodies]
      simp [finish, inside, headOf]
    · obtain ⟨k, there⟩ := here among
      obtain ⟨before, stood, _⟩ := replaces.inputs p k v inputs there
      exact (constructed.phis p k v before stood).1
    · obtain ⟨inputs', still⟩ := replaces.stands there
      have among := List.mem_of_getElem? still
      rw [shape] at among
      refine ⟨inputs', (List.mem_append.mp among).resolve_left fun early => ?_⟩
      unfold pseudo at early
      split at early <;> simp at early
    · obtain ⟨k, there⟩ := here among
      obtain ⟨before, stood, edges, _⟩ := replaces.inputs p k v inputs there
      refine edges.trans ((constructed.merges.merges p k v before stood (Set.notMem_empty _)).resolve_left ?_)
      rw [full.empty]
      exact List.not_mem_nil
    · obtain ⟨k, there⟩ := here among
      exact (constructed.toRendered.sends there input full).1
    · obtain ⟨k, there⟩ := here among
      exact (constructed.toRendered.sends there input full).2
    · obtain ⟨k, there⟩ := here among
      exact constructed.toRendered.starts_repaired there input
    · have rendering := constructed.bodies p
      rwa [filledCode, if_pos full.filled] at rendering

end Builder

open Builder

theorem buildSsaWith_assembled {prog : SsaProgram} (documented : petgraph.Documented)
    (graph : buildCfg petgraph insns = .ok cfg) (enough : 2 * cfg.blocks.length < fuel)
    (built : buildSsaWith fuel insns cfg = some (.ok prog)) : ∃ b regOf own, Assembled insns cfg regOf own b prog := by
  obtain ⟨result, ran, ends⟩ := buildSsaWith_constructed documented graph enough
  rw [built] at ran
  cases ran
  obtain ⟨b, regOf, own, _, rfl, constructed⟩ := ends prog rfl
  exact ⟨b, regOf, own, constructed.assembled⟩

end EbpfLab.Ssa
