import EbpfLab.Ssa.Arrival
import EbpfLab.Ssa.Points

/-!
# What a run knows where it stands

A run of a well-formed program arrives at its blocks with what their predecessors left known. Point by point that
becomes what is available: the entry values are assigned, the phis take their inputs, and the rest of the block
defines more.
-/

namespace EbpfLab.Ssa
open Isa FlowGraph Library Interp

variable {prog : SsaProgram} {m : Machine} {s s' : Standing} {block k : Nat} {insn : SsaInsn} {env : Env}
  {pred : Pred} {pre rest : List SsaInsn} {world start : World}

/-- Before the phis of its block a run knows what the predecessor left, and behind them what is available. -/
inductive Informed (m : Machine) (prog : SsaProgram) : Standing → Prop where
  | ahead {pred : Pred} {block : Nat} {env : Env} {world : World} {pre rest phis body : List SsaInsn}
      (comes : Comes prog block pred) (split : prog.insnsOf block = pre ++ rest ++ phis ++ body)
      (values : ∀ i ∈ pre ++ rest, i.isEntryValue) (first : pre ++ rest ≠ [] → block = prog.entry) (some_phi : phis ≠ [])
      (phi : ∀ i ∈ phis, i.isPhi) (plain : ∀ i ∈ body, i.isPhi = false) (knows : Knows m prog block pre env)
      (left : ∀ p, pred = some p → Knows m prog p (prog.insnsOf p) env) :
      Informed m prog ⟨⟨pred, block, pre.length⟩, env, world⟩
  | behind {pred : Pred} {block : Nat} {env : Env} {world : World} {pre rest : List SsaInsn}
      (comes : Comes prog block pred) (split : prog.insnsOf block = pre ++ rest) (plain : ∀ i ∈ rest, i.isPhi = false)
      (knows : Knows m prog block pre env) : Informed m prog ⟨⟨pred, block, pre.length⟩, env, world⟩

theorem Arrives.informed (arrives : Arrives m prog block env pred) (wf : prog.WellFormed) (world : World) :
    Informed m prog ⟨⟨pred, block, 0⟩, env, world⟩ := by
  obtain ⟨head, phis, body, split, values, first, phi, plain⟩ := wf.leads block arrives.1.reached
  have knows := SsaProgram.WellFormed.arrives_knows split first arrives
  by_cases none_ : phis = []
  · subst none_
    refine @Informed.behind m prog pred block env world [] (head ++ body) arrives.1 (by simpa using split) (fun i among => ?_) knows
    exact (List.mem_append.mp among).elim (fun early => entryValue_not_phi (values i early)) (plain i)
  · exact @Informed.ahead m prog pred block env world [] head phis body arrives.1 split values first none_ phi plain knows
      arrives.2

theorem Informed.entered {how : Leave} (leaves : Leaves m prog block env how) (wf : prog.WellFormed)
    (reached : prog.Reaches block) (enters : Standing.enter ⟨⟨pred, block, k⟩, env, world⟩ how = some s') :
    Informed m prog s' := by
  obtain ⟨t, rfl, rfl⟩ := enter_eq_some enters
  exact (leaves_arrives reached leaves).informed wf world

/-- An instruction that is no phi goes on with what is known behind it, or leaves the block. -/
theorem Informed.plain_step (wf : prog.WellFormed) (reached : prog.Reaches block)
    (split : prog.insnsOf block = pre ++ insn :: rest) (plain : insn.isPhi = false) (knows : Knows m prog block pre env)
    (step : advance m prog ⟨⟨pred, block, pre.length⟩, env, world⟩ = some s') :
    (∃ env' world', s' = ⟨⟨pred, block, (pre ++ [insn]).length⟩, env', world'⟩ ∧ Knows m prog block (pre ++ [insn]) env' ∧
      ∀ v x, execInsn m insn env world = .next (env.set v x) → env' = env.set v x) ∨ Informed m prog s' := by
  have next := wf.exec_knows world reached ⟨rest, split⟩ plain knows
  rw [advance_plain split plain] at step
  cases ran : execInsn m insn env world with
  | next env' =>
    rw [ran] at next step
    cases step
    refine Or.inl ⟨env', world, by simp [Standing.past], next, fun v x same => ?_⟩
    cases same
    rfl
  | effect env' world' =>
    rw [ran] at next step
    cases step
    exact Or.inl ⟨env', world', by simp [Standing.past], next, fun v x same => by cases same⟩
  | leave how =>
    rw [ran] at next step
    exact Or.inr (Informed.entered next wf reached step)

theorem Informed.advance (informed : Informed m prog s) (wf : prog.WellFormed) (step : advance m prog s = some s') :
    Informed m prog s' := by
  cases informed with
  | @behind pred block env world pre rest comes split plain knows =>
    have reached := comes.reached
    cases rest with
    | nil =>
      rw [List.append_nil] at split
      rw [advance_nil split] at step
      obtain ⟨t, falls, rfl⟩ := enter_eq_some step
      have leaves : Leaves m prog block env (.goto t) := by
        refine ⟨nofun, ?_⟩
        rintro _ ⟨⟩
        exact ⟨falls_flows (goto_eq falls), split ▸ knows⟩
      exact (leaves_arrives reached leaves).informed wf world
    | cons insn rest =>
      rcases Informed.plain_step wf reached split (plain insn List.mem_cons_self) knows step with
        ⟨env', world', rfl, knows', _⟩ | there
      · exact .behind comes (by rw [split]; simp) (fun i among => plain i (List.mem_cons_of_mem _ among)) knows'
      · exact there
  | @ahead pred block env world pre rest phis body comes split values first some_phi phi plain knows left =>
    have reached := comes.reached
    cases rest with
    | nil =>
      rw [List.append_nil] at split values first
      have none_before : ∀ i ∈ pre, i.isPhi = false := fun i among => entryValue_not_phi (values i among)
      have group := (takeWhile_append_of (q := SsaInsn.isPhi) phi fun y (here : y ∈ body.head?) =>
        plain y (List.mem_of_mem_head? here)).1
      have seen : ∀ v, Seen prog pre v pred → Known m prog env v := by
        cases pred with
        | none => exact fun v seen => knows v (Or.inl seen)
        | some p => exact left p rfl
      obtain ⟨env', merged, knows', _⟩ := wf.evalPhis_knows split first phi comes seen
      rw [advance_phis (split.trans (List.append_assoc _ _ _)) group some_phi none_before, merged] at step
      cases step
      have informed : Informed m prog ⟨⟨pred, block, (pre ++ phis).length⟩, env', world⟩ := .behind comes split plain knows'
      rwa [List.length_append] at informed
    | cons insn rest =>
      have value : insn.isEntryValue := values insn (List.mem_append_right _ List.mem_cons_self)
      have split' : prog.insnsOf block = pre ++ insn :: (rest ++ phis ++ body) := by rw [split]; simp
      have same : pre ++ insn :: rest = (pre ++ [insn]) ++ rest := by simp
      obtain ⟨v, x, defines, fixed, exec⟩ := exec_entryValue (m := m) value
      rcases Informed.plain_step wf reached split' (entryValue_not_phi value) knows step with
        ⟨env', world', rfl, knows', sets⟩ | there
      · have env_eq := sets v x (exec env world)
        subst env_eq
        refine .ahead comes (by rw [split, same]) (same ▸ values) (same ▸ first) some_phi phi plain knows' fun p from_ => ?_
        -- the predecessor left the entry value as it is
        subst from_
        have available : prog.Available block (pre ++ insn :: rest) v :=
          Or.inl (mem_defs.mpr ⟨insn, List.mem_append_right _ List.mem_cons_self, defines⟩)
        have held := (left p rfl v (SsaProgram.WellFormed.seen_of_available split first comes available)).fixed _ _ _ x ⟨_, split'⟩ defines fixed
        have still : env.set v x = env := by
          funext w
          unfold Env.set
          split
          · rename_i here
            rw [here, held]
          · rfl
        rw [still]
        exact left p rfl
      · exact there

/-- A run of a well-formed program knows what is available where it stands. -/
theorem Visits.informed (visits : Visits m prog start s) (wf : prog.WellFormed) : Informed m prog s := by
  obtain ⟨n, reached⟩ := visits
  have along : ∀ n {s₀ : Standing}, Informed m prog s₀ → travel m prog n s₀ = some s → Informed m prog s := by
    intro n
    induction n with
    | zero =>
      intro s₀ here reached
      cases reached
      exact here
    | succ n ih =>
      intro s₀ here reached
      obtain ⟨mid, step, reached⟩ := Option.bind_eq_some_iff.mp reached
      exact ih (here.advance wf step) reached
  have arrives : Arrives m prog prog.entry (fun _ => none) none := ⟨rfl, nofun⟩
  exact along n (arrives.informed wf start) reached

theorem Informed.knows (informed : Informed m prog s) : prog.Reaches s.point.block ∧
    Knows m prog s.point.block ((prog.insnsOf s.point.block).take s.point.index) s.env := by
  cases informed with
  | ahead comes split _ _ _ _ _ knows =>
    refine ⟨comes.reached, ?_⟩
    dsimp only
    rw [split, List.append_assoc, List.append_assoc, List.take_left]
    exact knows
  | behind comes split _ knows =>
    refine ⟨comes.reached, ?_⟩
    dsimp only
    rw [split, List.take_left]
    exact knows

end EbpfLab.Ssa
