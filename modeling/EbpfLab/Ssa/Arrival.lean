import EbpfLab.Ssa.Known

/-!
# Entering a block

A block is entered with everything known at the end of its predecessor. Its entry values are
assigned what they hold already, its phis find their inputs, and its body runs to an end: no run of
a well-formed program is stuck.
-/

namespace EbpfLab.Ssa
open Isa FlowGraph Library Interp

variable {m : Machine} {prog : SsaProgram} {block p : Nat} {pre rest head phis body : List SsaInsn}
  {insn : SsaInsn} {u v w dst : SsaValue} {inputs : List (Pred × SsaValue)} {pred : Pred}
  {env env' before : Env} {world : World} {b : SsaBlock}

/-- Control comes into a block from where it can. -/
def Comes (prog : SsaProgram) (block : Nat) : Pred → Prop
  | none => block = prog.entry
  | some p => prog.Reaches p ∧ prog.Flows p block

/-- A machine state at the entry of a block. -/
def Arrives (m : Machine) (prog : SsaProgram) (block : Nat) (env : Env) (pred : Pred) : Prop :=
  Comes prog block pred ∧ ∀ p, pred = some p → Knows m prog p (prog.insnsOf p) env

/-- The versions phis may take: those of the start, or of the predecessor's end. -/
def Seen (prog : SsaProgram) (head : List SsaInsn) (v : SsaValue) : Pred → Prop
  | none => v ∈ defs head
  | some p => prog.Available p (prog.insnsOf p) v

theorem Comes.reached (comes : Comes prog block pred) : prog.Reaches block := by
  cases pred with
  | none => exact comes ▸ .root
  | some p => exact comes.1.step comes.2

/-! ### Lists of instructions -/

theorem execList_next (ran : execInsn m insn env world = .next env') :
    execList m (insn :: rest) env world = execList m rest env' world := by
  rw [execList, ran]

theorem execList_effect {world' : World} (ran : execInsn m insn env world = .effect env' world') :
    execList m (insn :: rest) env world =
      { execList m rest env' world' with
        effects := world' :: (execList m rest env' world').effects } := by
  rw [execList, ran]

theorem execList_leave {how : Leave} (ran : execInsn m insn env world = .leave how) :
    execList m (insn :: rest) env world = { effects := [], env, world, how := some how } := by
  rw [execList, ran]

theorem execList_append (ended : (execList m pre env world).how = none) :
    execList m (pre ++ rest) env world =
      { execList m rest (execList m pre env world).env (execList m pre env world).world with
        effects := (execList m pre env world).effects ++
          (execList m rest (execList m pre env world).env (execList m pre env world).world).effects } := by
  induction pre generalizing env world with
  | nil => rfl
  | cons i pre ih =>
    rw [List.cons_append]
    cases ran : execInsn m i env world with
    | next env' =>
      rw [execList_next ran] at ended
      rw [execList_next ran, execList_next ran, ih ended]
    | effect env' world' =>
      rw [execList_effect ran] at ended
      rw [execList_effect ran, execList_effect ran, ih ended, List.cons_append]
    | leave how =>
      rw [execList_leave ran] at ended
      cases ended

theorem execList_append_left (left : (execList m pre env world).how ≠ none) :
    execList m (pre ++ rest) env world = execList m pre env world := by
  induction pre generalizing env world with
  | nil => exact absurd rfl left
  | cons i pre ih =>
    rw [List.cons_append]
    cases ran : execInsn m i env world with
    | next env' =>
      rw [execList_next ran] at left
      rw [execList_next ran, execList_next ran, ih left]
    | effect env' world' =>
      rw [execList_effect ran] at left
      rw [execList_effect ran, execList_effect ran, ih left]
    | leave how => rw [execList_leave ran, execList_leave ran]

theorem exec_entryValue (value : insn.isEntryValue) : ∃ v x, insn.defDst = some v ∧
    insn.fixed m = some x ∧ ∀ env world, execInsn m insn env world = .next (env.set v x) := by
  cases insn with
  | const dst x => exact ⟨dst, x, rfl, rfl, fun _ _ => rfl⟩
  | framePtr dst => exact ⟨dst, stackBase, rfl, rfl, fun _ _ => rfl⟩
  | entryCtx dst => exact ⟨dst, m.ctx, rfl, rfl, fun _ _ => rfl⟩
  | loadImm64 dst x => exact ⟨dst, x, rfl, rfl, fun _ _ => rfl⟩
  | _ => cases value

theorem execList_values (env : Env) (world : World) (values : ∀ i ∈ head, i.isEntryValue) :
    ∃ env', execList m head env world = { effects := [], env := env', world, how := none } := by
  induction head generalizing env with
  | nil => exact ⟨env, rfl⟩
  | cons i head ih =>
    obtain ⟨v, x, _, _, exec⟩ := exec_entryValue (values i List.mem_cons_self)
    rw [execList_next (exec env world)]
    exact ih _ fun j later => values j (List.mem_cons_of_mem _ later)

/-- Entry values that are there already are assigned to no effect. -/
theorem execList_again (values : ∀ i ∈ head, i.isEntryValue)
    (held : ∀ i ∈ head, ∀ v x, i.defDst = some v → i.fixed m = some x → env v = some x) :
    execList m head env world = { effects := [], env, world, how := none } := by
  induction head with
  | nil => rfl
  | cons i head ih =>
    obtain ⟨v, x, defines, fixed, exec⟩ := exec_entryValue (values i List.mem_cons_self)
    have same : env.set v x = env := by
      funext w
      unfold Env.set
      split
      · rename_i here
        rw [here, held i List.mem_cons_self v x defines fixed]
      · rfl
    rw [execList_next (exec env world), same]
    exact ih (fun j later => values j (List.mem_cons_of_mem _ later))
      fun j later => held j (List.mem_cons_of_mem _ later)

/-- A list without phis keeps what is known, and is not stuck. -/
theorem execList_knows {post : List SsaInsn} (world : World) (wf : prog.WellFormed)
    (reached : prog.Reaches block)
    (split : prog.insnsOf block = pre ++ rest ++ post) (plain : ∀ i ∈ rest, i.isPhi = false)
    (knows : Knows m prog block pre env) :
    (∀ how, (execList m rest env world).how = some how →
      Leaves m prog block (execList m rest env world).env how) ∧
    ((execList m rest env world).how = none →
      Knows m prog block (pre ++ rest) (execList m rest env world).env) := by
  induction rest generalizing pre env world with
  | nil =>
    rw [List.append_nil]
    exact ⟨nofun, fun _ => knows⟩
  | cons i rest ih =>
    have here : prog.At block pre i := ⟨rest ++ post, by rw [split]; simp⟩
    have next := wf.exec_knows world reached here (plain i List.mem_cons_self) knows
    have later : ∀ {env world}, Knows m prog block (pre ++ [i]) env → _ := fun {env world} knows =>
      ih world (show prog.insnsOf block = (pre ++ [i]) ++ rest ++ post by rw [split]; simp)
        (fun j later => plain j (List.mem_cons_of_mem _ later)) knows
    cases ran : execInsn m i env world with
    | next env' =>
      rw [ran] at next
      rw [execList_next ran, List.append_cons]
      exact later next
    | effect env' world' =>
      rw [ran] at next
      rw [execList_effect ran, List.append_cons]
      exact later next
    | leave how =>
      rw [ran] at next
      rw [execList_leave ran]
      exact ⟨fun _ same => Option.some.inj same ▸ next, nofun⟩

/-! ### Phis -/

/-- Phis are assigned their inputs and nothing else. -/
theorem evalPhis_spec (pred : Pred) (before env : Env) (phi : ∀ i ∈ phis, i.isPhi) (distinct : (defs phis).Nodup)
    (given : ∀ dst inputs, .phi dst inputs ∈ phis → ∃ x, (phiInput pred inputs).bind before = some x) :
    ∃ env', evalPhis pred before phis env = some env' ∧ (∀ v, v ∉ defs phis → env' v = env v) ∧
      ∀ dst inputs, .phi dst inputs ∈ phis → env' dst = (phiInput pred inputs).bind before := by
  induction phis generalizing env with
  | nil => exact ⟨env, rfl, fun _ _ => rfl, nofun⟩
  | cons i rest ih =>
    cases i with
    | phi dst inputs =>
      obtain ⟨x, read⟩ := given dst inputs List.mem_cons_self
      have apart : dst ∉ defs rest ∧ (defs rest).Nodup := List.nodup_cons.mp distinct
      obtain ⟨env', ran, others, assigned⟩ := ih (env.set dst x)
        (fun j later => phi j (List.mem_cons_of_mem _ later)) apart.2
        fun dst inputs later => given dst inputs (List.mem_cons_of_mem _ later)
      refine ⟨env', ?_, ?_, ?_⟩
      · unfold evalPhis
        rw [read]
        exact ran
      · intro v absent
        have away : v ≠ dst ∧ v ∉ defs rest := by
          constructor
          · rintro rfl
            exact absent (mem_defs.mpr ⟨_, List.mem_cons_self, rfl⟩)
          · intro later
            obtain ⟨j, present, defines⟩ := mem_defs.mp later
            exact absent (mem_defs.mpr ⟨j, List.mem_cons_of_mem _ present, defines⟩)
        rw [others v away.2]
        exact if_neg away.1
      · intro dst' inputs' present
        rcases List.mem_cons.mp present with same | later
        · cases same
          rw [others dst apart.1, read]
          exact if_pos rfl
        · exact assigned dst' inputs' later
    | _ => exact absurd (phi _ List.mem_cons_self) (by simp [SsaInsn.isPhi])

/-! ### A block from its entry -/

section

variable (split : prog.insnsOf block = head ++ phis ++ body) (values : ∀ i ∈ head, i.isEntryValue)
  (first : head ≠ [] → block = prog.entry) (phi : ∀ i ∈ phis, i.isPhi)
  (plain : ∀ i ∈ body, i.isPhi = false)

theorem entryValue_not_phi (value : insn.isEntryValue) : insn.isPhi = false := by
  cases insn with
  | phi dst inputs => cases value
  | _ => rfl

include split in
theorem at_phi {i : SsaInsn} (present : i ∈ phis) :
    ∃ front, prog.At block (head ++ front) i ∧ ∀ j ∈ front, j ∈ phis := by
  obtain ⟨front, back, cut⟩ := List.append_of_mem present
  refine ⟨front, ⟨back ++ body, by rw [split, cut]; simp⟩, fun j earlier => ?_⟩
  rw [cut]
  exact List.mem_append_left _ earlier

namespace SsaProgram.WellFormed

variable (wf : prog.WellFormed)
include wf

omit wf in
include split first in
/-- What is available behind the entry values was seen by the phis. -/
theorem seen_of_available (comes : Comes prog block pred) (available : prog.Available block head v) :
    Seen prog head v pred := by
  cases pred with
  | none =>
    rcases available with defined | ⟨d, dominates, _⟩
    · exact defined
    · cases comes
      exact absurd dominates prog.not_dominates_entry
  | some p =>
    rcases available.pred comes.2 with defined | available
    · have proper : head ≠ [] := by
        rintro rfl
        cases defined
      have here : v ∈ defs (prog.insnsOf prog.entry) := by
        rw [← first proper, split, List.append_assoc, defs_append]
        exact List.mem_append_left _ defined
      by_cases same : prog.entry = p
      · exact Or.inl (same ▸ here)
      · exact Or.inr ⟨_, prog.entry_dominates same, here⟩
    · exact available

omit wf in
include split first in
theorem arrives_knows (arrives : Arrives m prog block env pred) : Knows m prog block [] env := by
  intro v available
  cases pred with
  | none =>
    rcases available with defined | ⟨d, dominates, _⟩
    · cases defined
    · obtain rfl : block = prog.entry := arrives.1
      exact absurd dominates prog.not_dominates_entry
  | some p => exact arrives.2 p rfl v (seen_of_available split first arrives.1 available.later)

include split values first in
/-- The entry values of a block leave its phis with everything known that they may take. -/
theorem arrives_known (world : World) (arrives : Arrives m prog block env pred) :
    ∃ env', execList m head env world = { effects := [], env := env', world, how := none } ∧
      Knows m prog block head env' ∧ ∀ v, Seen prog head v pred → Known m prog env' v := by
  obtain ⟨env', ran⟩ := execList_values (m := m) env world values
  have knows := (execList_knows world wf arrives.1.reached
    (show prog.insnsOf block = [] ++ head ++ (phis ++ body) by rw [split, List.append_assoc]; rfl)
    (fun i present => entryValue_not_phi (values i present)) (arrives_knows split first arrives)).2 (by rw [ran])
  rw [ran] at knows
  refine ⟨env', ran, knows, ?_⟩
  cases pred with
  | none => exact fun v seen => knows v (Or.inl seen)
  | some p =>
    have again : execList m head env world = { effects := [], env, world, how := none } := by
      refine execList_again values fun i present v x defines fixed => ?_
      obtain ⟨front, back, cut⟩ := List.append_of_mem present
      have here : prog.At block front i := ⟨back ++ phis ++ body, by rw [split, cut]; simp⟩
      have seen : Seen prog head v (some p) := seen_of_available split first arrives.1
        (Or.inl (mem_defs.mpr ⟨i, present, defines⟩))
      exact (arrives.2 p rfl v seen).fixed _ _ _ x here defines fixed
    obtain rfl := congrArg ListResult.env (ran.symm.trans again)
    exact arrives.2 p rfl

include split phi in
/-- A phi takes an input that was seen. -/
theorem phi_seen (comes : Comes prog block pred) (present : .phi dst inputs ∈ phis) :
    ∃ w, phiInput pred inputs = some w ∧ (pred, w) ∈ inputs ∧ Seen prog head w pred := by
  obtain ⟨front, here, earlier⟩ := at_phi split present
  cases pred with
  | none =>
    obtain rfl : block = prog.entry := comes
    obtain ⟨w, taken, listed⟩ := wf.phi_start .root here
    obtain ⟨i, before, value, defines⟩ := wf.startUses _ _ _ _ .root here w listed
    refine ⟨w, taken, listed, mem_defs.mpr ⟨i, ?_, defines⟩⟩
    rcases List.mem_append.mp before with inHead | inFront
    · exact inHead
    · exact absurd (phi i (earlier i inFront)) (by rw [entryValue_not_phi value]; exact nofun)
  | some p =>
    obtain ⟨w, taken, listed⟩ := wf.phi_input comes.reached here comes.1 comes.2
    exact ⟨w, taken, listed, wf.inputUses _ _ _ _ comes.reached here p w listed comes.1⟩

include split phi in
/-- A phi leaves its version as every other definition does. -/
theorem known_phi (comes : Comes prog block pred) (seen : ∀ v, Seen prog head v pred → Known m prog env v)
    (others : ∀ v, v ∉ defs phis → env' v = env v)
    (assigned : ∀ dst inputs, .phi dst inputs ∈ phis → env' dst = (phiInput pred inputs).bind env)
    (present : .phi dst inputs ∈ phis) : Known m prog env' dst := by
  obtain ⟨front, here, _⟩ := at_phi split present
  obtain ⟨w, taken, listed, saw⟩ := wf.phi_seen split phi comes present
  have holds : env' dst = env w := by rw [assigned dst inputs present, taken]; rfl
  refine ⟨?_, ?_, ?_, ?_⟩
  · rw [holds]
    exact (seen w saw).assigned
  · intro _ _ _ x there defines fixed
    obtain ⟨_, _, rfl⟩ := wf.same_place here there rfl defines
    cases fixed
  · intro c settled
    rcases wf.settled_cases here rfl settled with value | ⟨_, _, folds⟩
    · cases value
    · cases folds
  · rintro u ⟨_, _, _, _, there, copies⟩
    obtain ⟨_, _, rfl⟩ := wf.same_place here there rfl (copyOf_dst copies)
    have away : u ∉ defs phis := by
      intro defined
      obtain ⟨i, inPhis, defines⟩ := mem_defs.mp defined
      obtain ⟨_, there, _⟩ := at_phi split inPhis
      rcases wf.phi_copied comes.reached here copies with ⟨j, earlier, value, defines'⟩ | ⟨d, dominates, defined'⟩
      · obtain ⟨before, after, cut⟩ := List.append_of_mem earlier
        obtain ⟨post, whole⟩ := here
        have at_j : prog.At block before j :=
          ⟨after ++ .phi dst inputs :: post, by rw [whole, cut]; simp⟩
        obtain ⟨_, _, rfl⟩ := wf.same_place there at_j defines defines'
        exact absurd (phi _ inPhis) (by rw [entryValue_not_phi value]; exact nofun)
      · obtain rfl := wf.same_block defined' (there.dst_mem defines)
        exact dominates.irrefl
    have lives : prog.predLive pred := by
      cases pred with
      | none => rfl
      | some p => exact wf.live p comes.1
    rw [holds, others u away]
    rcases (copyOf_phi copies).2 pred w listed lives with rfl | rfl
    · rfl
    · exact (seen w saw).copied u ⟨_, _, _, wf.live _ comes.reached, here, copies⟩

include split first phi in
/-- The phis of a block leave its body with everything known that is available. -/
theorem evalPhis_knows (comes : Comes prog block pred)
    (seen : ∀ v, Seen prog head v pred → Known m prog env v) :
    ∃ env', evalPhis pred env phis env = some env' ∧ Knows m prog block (head ++ phis) env' ∧
      (∀ v, v ∉ defs phis → env' v = env v) ∧
      ∀ dst inputs, .phi dst inputs ∈ phis → env' dst = (phiInput pred inputs).bind env := by
  have distinct : (defs phis).Nodup := by
    have whole := wf.nodup_insnsOf block
    rw [split, defs_append, defs_append] at whole
    exact whole.of_append_left.of_append_right
  obtain ⟨env', ran, others, assigned⟩ := evalPhis_spec pred env env phi
    distinct fun dst inputs present => by
      obtain ⟨w, taken, _, saw⟩ := wf.phi_seen split phi comes present
      rw [taken]
      exact (seen w saw).assigned
  refine ⟨env', ran, fun v available => ?_, others, assigned⟩
  by_cases new : v ∈ defs phis
  · obtain ⟨i, present, defines⟩ := mem_defs.mp new
    cases i with
    | phi dst inputs =>
      cases defines
      exact wf.known_phi split phi comes seen others assigned present
    | _ => exact absurd (phi _ present) (by simp [SsaInsn.isPhi])
  · have earlier : prog.Available block head v := by
      rcases available with defined | dominated
      · rw [defs_append] at defined
        exact Or.inl ((List.mem_append.mp defined).resolve_right new)
      · exact Or.inr dominated
    have inside : head <+: prog.insnsOf block := ⟨phis ++ body, by rw [split, List.append_assoc]⟩
    have known := seen v (seen_of_available split first comes earlier)
    have away : ∀ u, prog.Available block head u → u ∉ defs phis := by
      intro u available defined
      obtain ⟨i, present, defines⟩ := mem_defs.mp defined
      obtain ⟨front, here, _⟩ := at_phi split present
      exact wf.not_available here defines available.later
    refine ⟨?_, ?_, ?_, ?_⟩
    · rw [others v new]
      exact known.assigned
    · rw [others v new]
      exact known.fixed
    · rw [others v new]
      exact known.settled
    · intro u copies
      have before := wf.precedes_of_copies comes.reached inside earlier copies
      rw [others v new,
        others u (away u (wf.available_of_precedes comes.reached before inside earlier))]
      exact known.copied u copies

end SsaProgram.WellFormed

end

/-! ### Blocks and runs -/

theorem takeWhile_append_of {α : Type} {q : α → Bool} {xs ys : List α} (every : ∀ x ∈ xs, q x)
    (stops : ∀ y ∈ ys.head?, q y = false) :
    (xs ++ ys).takeWhile q = xs ∧ (xs ++ ys).dropWhile q = ys := by
  induction xs with
  | nil =>
    cases ys with
    | nil => exact ⟨rfl, rfl⟩
    | cons y ys =>
      have stop := stops y rfl
      simp [stop]
  | cons x xs ih =>
    obtain ⟨taken, dropped⟩ := ih fun y later => every y (List.mem_cons_of_mem _ later)
    have here := every x List.mem_cons_self
    exact ⟨by simp [here, taken], by simp [here, dropped]⟩

/-- A block runs its entry values, its phis and its body, in whatever parts of it are there. -/
theorem execBlock_eq (prog : SsaProgram) (block : Nat) (split : b.insns = head ++ phis ++ body)
    (plainHead : ∀ i ∈ head, i.isPhi = false) (phi : ∀ i ∈ phis, i.isPhi) (plain : ∀ i ∈ body, i.isPhi = false) {env₀ env₁ : Env}
    (start : execList m head env world = { effects := [], env := env₀, world, how := none })
    (merged : evalPhis pred env₀ phis env₀ = some env₁) :
    execBlock m prog pred block b env world = (execList m body env₁ world).close prog block := by
  have headNot : ∀ i ∈ head, (!i.isPhi) = true := fun i present => by simp [plainHead i present]
  have bodyNot : ∀ i ∈ body, (!i.isPhi) = true := fun i present => by simp [plain i present]
  unfold execBlock SsaBlock.prelude SsaBlock.phis SsaBlock.body
  by_cases none_ : phis = []
  · subst none_
    cases merged
    have whole := takeWhile_append_of (q := fun i => !SsaInsn.isPhi i)
      (fun i (present : i ∈ head ++ body) => (List.mem_append.mp present).elim (headNot i) (bodyNot i))
      (fun y (none : y ∈ ([] : List SsaInsn).head?) => nomatch none)
    rw [List.append_nil] at whole
    rw [split, List.append_nil, whole.1, whole.2,
      execList_append (by rw [start]), start]
    dsimp only [List.nil_append, List.takeWhile_nil, List.dropWhile_nil, evalPhis, execList]
    split
    · rfl
    · rename_i ended
      rw [Option.not_isSome_iff_eq_none] at ended
      simp only [ListResult.close, ended, List.append_nil]
  · have stop : ∀ y ∈ (phis ++ body).head?, (!y.isPhi) = false := by
      intro y here
      cases phis with
      | nil => exact absurd rfl none_
      | cons i phis =>
        obtain rfl : i = y := Option.some.inj here
        simp [phi i List.mem_cons_self]
    have outer := takeWhile_append_of (q := fun i => !SsaInsn.isPhi i) headNot stop
    have inner := takeWhile_append_of (q := SsaInsn.isPhi) phi fun y (here : y ∈ body.head?) =>
      plain y (List.mem_of_mem_head? here)
    rw [split, List.append_assoc, outer.1, outer.2, inner.1, inner.2, start]
    dsimp only
    rw [if_neg (by simp), merged]
    rfl

theorem falls_flows {t : Nat} (falls : prog.fallsTo block = some t) : prog.Flows block t := by
  obtain ⟨e, found, rfl⟩ := Option.map_eq_some_iff.mp falls
  have kind := List.find?_some found
  have present := List.mem_of_find?_eq_some found
  obtain ⟨listed, source⟩ := List.mem_filter.mp (List.mem_reverse.mp present)
  refine mem_liveSuccessors.mpr ⟨e, listed, by simpa using source, rfl, fun taken => ?_⟩
  rw [beq_iff_eq.mp kind] at taken
  cases taken.2

theorem leaves_arrives {t : Nat} (reached : prog.Reaches block)
    (leaves : Leaves m prog block env (.goto t)) : Arrives m prog t env (some block) := by
  obtain ⟨flows, knows⟩ := leaves.2 t rfl
  refine ⟨⟨reached, flows⟩, ?_⟩
  rintro _ ⟨⟩
  exact knows

/-- A block of a well-formed program is left for one that control flows to, with everything it
defines known, or ends the run. -/
theorem leaves_knows (world : World) (wf : prog.WellFormed) (arrives : Arrives m prog block env pred)
    (found : prog.blocks[block]? = some b) :
    Leaves m prog block (execBlock m prog pred block b env world).env
      (execBlock m prog pred block b env world).how := by
  have reached := arrives.1.reached
  obtain ⟨head, phis, body, split, values, first, phi, plain⟩ := wf.leads block reached
  obtain ⟨env₀, start, _, seen⟩ := wf.arrives_known split values first world arrives
  obtain ⟨env₁, merged, knows, _⟩ := wf.evalPhis_knows split first phi arrives.1 seen
  have run := execBlock_eq prog block
    ((SsaProgram.insnsOf_eq found).symm.trans split)
    (fun i present => entryValue_not_phi (values i present)) phi plain start merged
  obtain ⟨left, ended⟩ := execList_knows world wf reached
    (split.trans (List.append_nil _).symm) plain knows
  rw [run]
  unfold ListResult.close
  cases how : (execList m body env₁ world).how with
  | some how => exact left _ how
  | none =>
    have whole := ended how
    rw [← split] at whole
    cases falls : prog.fallsTo block with
    | none => exact leaves_ended
    | some t =>
      refine ⟨nofun, ?_⟩
      rintro _ ⟨⟩
      exact ⟨falls_flows falls, whole⟩

theorem runFrom_not_stuck (wf : prog.WellFormed) (fuel : Nat)
    (arrives : Arrives m prog block env pred) :
    (runFrom m prog fuel pred block env world).2 ≠ .stuck := by
  induction fuel generalizing pred block env world with
  | zero => exact nofun
  | succ fuel ih =>
    have lives := wf.live block arrives.1.reached
    cases found : prog.blocks[block]? with
    | none =>
      rw [SsaProgram.isLive, found] at lives
      cases lives
    | some b =>
      have leaves := leaves_knows world wf arrives found
      rw [runFrom, found]
      dsimp only
      cases left : (execBlock m prog pred block b env world).how with
      | goto next =>
        rw [left] at leaves
        exact ih (leaves_arrives arrives.1.reached leaves)
      | ended ending => exact nofun
      | stuck => exact absurd left leaves.1

/-- No run of a well-formed program is stuck. -/
theorem run_not_stuck (wf : prog.WellFormed) (world : World) (fuel : Nat) :
    (run m prog world fuel).2 ≠ .stuck :=
  runFrom_not_stuck wf fuel ⟨rfl, nofun⟩

end EbpfLab.Ssa
