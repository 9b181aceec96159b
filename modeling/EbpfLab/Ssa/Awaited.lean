import EbpfLab.Library.Trails
import EbpfLab.Ssa.Informed
import EbpfLab.Ssa.Layout

/-!
# Awaited versions

A version is awaited where a trail that keeps it leads to a read. Along a run of a well-formed program
it has been assigned, so a trail from its last assignment keeps it too, and what control carries into a
block passes behind the phis there.
-/

namespace EbpfLab.Ssa
open Isa FlowGraph Interp Library Relation

variable {m : Machine} {prog : SsaProgram} {s s' z : Standing} {u v dst : SsaValue} {world start : World}
  {insn : SsaInsn} {env env' : Env} {block : Nat} {pred : Pred} {pre rest phis body : List SsaInsn} {x : Int64}

/-- From one point of a run to the next. -/
def Steps (m : Machine) (prog : SsaProgram) (s s' : Standing) : Prop := advance m prog s = some s'

/-- From a point that does not assign a version to the next. -/
abbrev Keeping (m : Machine) (prog : SsaProgram) (v : SsaValue) : Standing → Standing → Prop :=
  Unmarked (Steps m prog) fun s => v ∈ prog.assigns s.point

theorem awaits_iff : Awaits m prog v s ↔ ∃ z, ReflTransGen (Keeping m prog v) s z ∧ v ∈ prog.reads z.point := by
  constructor
  · intro awaits
    induction awaits with
    | read here => exact ⟨_, .refl, here⟩
    | later next kept _ ih =>
      obtain ⟨z, trail, here⟩ := ih
      exact ⟨z, .head ⟨next, kept⟩ trail, here⟩
  · rintro ⟨z, trail, here⟩
    induction trail using ReflTransGen.head_induction_on with
    | refl => exact .read here
    | head step _ ih => exact .later step.1 step.2 ih

theorem visits_iff : Visits m prog start s ↔ ReflTransGen (Steps m prog) (prog.start start) s := by
  constructor
  · rintro ⟨n, reached⟩
    have along : ∀ n {s₀ : Standing}, travel m prog n s₀ = some s → ReflTransGen (Steps m prog) s₀ s := by
      intro n
      induction n with
      | zero =>
        intro s₀ reached
        cases reached
        exact .refl
      | succ n ih =>
        intro s₀ reached
        obtain ⟨mid, step, reached⟩ := Option.bind_eq_some_iff.mp reached
        exact .head step (ih reached)
    exact along n reached
  · intro trail
    induction trail with
    | refl => exact ⟨0, rfl⟩
    | tail _ step ih =>
      obtain ⟨n, reached⟩ := ih
      exact ⟨n + 1, travel_succ reached step⟩

theorem Visits.along (visits : Visits m prog start s) (trail : ReflTransGen (Steps m prog) s z) : Visits m prog start z :=
  visits_iff.mpr ((visits_iff.mp visits).trans trail)

/-! ### What a step leaves -/

theorem set_other (other : some dst ≠ some v) : env.set dst x v = env v :=
  if_neg fun same => other (congrArg some same.symm)

theorem satisfies_reading {α : Type} {o : Option α} {use : α → InsnResult} {next : Env → Prop}
    (each : ∀ y, (use y).Satisfies next fun _ => True) : (reading o use).Satisfies next fun _ => True := by
  cases o with
  | none => trivial
  | some y => exact each y

/-- An instruction assigns no version but its own. -/
theorem execInsn_others (other : insn.defDst ≠ some v) :
    (execInsn m insn env world).Satisfies (fun env' => env' v = env v) fun _ => True := by
  cases insn with
  | const | framePtr | entryCtx | loadImm64 => exact set_other other
  | copy => exact satisfies_reading fun _ => set_other other
  | binOp =>
    refine satisfies_reading fun _ => satisfies_reading fun _ => ?_
    split
    · trivial
    · exact set_other other
  | load dst =>
    refine satisfies_reading fun _ => ?_
    split
    · trivial
    · split
      · exact set_other other
      · rfl
  | store =>
    refine satisfies_reading fun _ => satisfies_reading fun _ => ?_
    split
    · trivial
    · rfl
  | call =>
    refine satisfies_reading fun _ => ?_
    split
    · trivial
    · split
      · trivial
      · exact set_other other
  | phi | ja => trivial
  | br => exact satisfies_reading fun _ => satisfies_reading fun _ => trivial
  | exit => exact satisfies_reading fun _ => trivial

theorem evalPhis_others {before : Env} {insns : List SsaInsn} (ran : evalPhis pred before insns env = some env')
    (other : v ∉ defs insns) : env' v = env v := by
  induction insns generalizing env with
  | nil =>
    cases ran
    rfl
  | cons i rest ih =>
    have later : v ∉ defs rest := fun among => other (by
      obtain ⟨j, present, defines⟩ := mem_defs.mp among
      exact mem_defs.mpr ⟨j, List.mem_cons_of_mem _ present, defines⟩)
    cases i with
    | phi dst inputs =>
      obtain ⟨x, _, ran⟩ := Option.bind_eq_some_iff.mp ran
      have away : some dst ≠ some v := fun same => other (mem_defs.mpr ⟨_, List.mem_cons_self, same⟩)
      exact (ih ran later).trans (set_other away)
    | _ => exact ih ran later

/-- A step leaves what it does not assign. -/
theorem keeping_env (step : Keeping m prog v s s') : s'.env v = s.env v := by
  have kept : v ∉ defs (prog.front s.point) := step.2
  have step : advance m prog s = some s' := step.1
  unfold advance at step
  split at step
  · obtain ⟨t, _, rfl⟩ := enter_eq_some step
    rfl
  · rename_i dst inputs phis group
    rw [group] at kept
    split at step
    · cases step
    · obtain ⟨env, ran, rfl⟩ := Option.map_eq_some_iff.mp step
      exact evalPhis_others ran kept
  · rename_i insn rest _ first
    rw [first] at kept
    have other : insn.defDst ≠ some v := fun same => kept (mem_defs.mpr ⟨insn, List.mem_cons_self, same⟩)
    have others : (execInsn m insn s.env s.world).Satisfies _ _ := execInsn_others other
    cases ran : execInsn m insn s.env s.world with
    | next env | effect env world =>
      rw [ran] at step others
      cases step
      exact others
    | leave how =>
      rw [ran] at step
      obtain ⟨t, _, rfl⟩ := enter_eq_some step
      rfl

theorem kept_env (trail : ReflTransGen (Keeping m prog v) s z) : z.env v = s.env v := by
  induction trail with
  | refl => rfl
  | tail _ step ih => exact (keeping_env step).trans ih

/-! ### What was assigned -/

theorem readsFrom_plain (plain : insn.isPhi = false) : insn.readsFrom pred = insn.uses := by
  cases insn with
  | phi => cases plain
  | _ => rfl

theorem uses_entryValue (value : insn.isEntryValue) : insn.uses = [] := by
  cases insn with
  | const | framePtr | entryCtx | loadImm64 => rfl
  | _ => cases value

/-- The phis of a block are executed at once. -/
theorem front_group (split : prog.insnsOf block = pre ++ phis ++ body) (some_phi : phis ≠ [])
    (phi : ∀ i ∈ phis, i.isPhi) (plain : ∀ i ∈ body, i.isPhi = false) : prog.front ⟨pred, block, pre.length⟩ = phis := by
  obtain ⟨i, more, rfl⟩ := List.exists_cons_of_ne_nil some_phi
  have whole : prog.insnsOf block = pre ++ (i :: more ++ body) := by rw [split, List.append_assoc]
  rw [front_phis whole rfl (phi i List.mem_cons_self)]
  exact (takeWhile_append_of phi fun y here => plain y (List.mem_of_mem_head? here)).1

/-- Only entry values were passed on the way to a point before the phis of its block. -/
structure AheadOfPhis (prog : SsaProgram) (p : Point) : Prop where
  ahead : p.index < prog.behindPhis p.block
  values : ∀ i ∈ (prog.insnsOf p.block).take p.index, i.isEntryValue
  first : p.index ≠ 0 → p.block = prog.entry

theorem behindPhis_le (split : prog.insnsOf block = pre ++ rest) (plain : ∀ i ∈ rest, i.isPhi = false) :
    prog.behindPhis block ≤ pre.length := by
  rw [behindPhis_append split plain]
  exact (List.rdropWhile_prefix _ _).length_le

theorem Informed.place (informed : Informed m prog s) :
    AheadOfPhis prog s.point ∨ prog.behindPhis s.point.block ≤ s.point.index := by
  cases informed with
  | @behind pred block env world pre rest comes split plain knows => exact Or.inr (behindPhis_le split plain)
  | @ahead pred block env world pre rest phis body comes split values first some_phi phi plain knows left =>
    refine Or.inl ⟨?_, fun i among => ?_, fun moved => ?_⟩
    · have := List.length_pos_iff.mpr some_phi
      rw [behindPhis_eq split some_phi phi plain]
      simp only [List.length_append]
      omega
    · dsimp only at among
      rw [split, List.append_assoc, List.append_assoc, List.take_left] at among
      exact values i (List.mem_append_left _ among)
    · refine first fun empty => moved ?_
      rw [(List.append_eq_nil_iff.mp empty).1]
      rfl

theorem Informed.index_le (informed : Informed m prog s) : s.point.index ≤ (prog.insnsOf s.point.block).length := by
  cases informed with
  | behind comes split => simp [split]
  | ahead comes split =>
    simp only [split, List.length_append]
    omega

theorem Informed.comes (informed : Informed m prog s) : Comes prog s.point.block s.point.pred := by
  cases informed with
  | ahead comes | behind comes => exact comes

/-- What a point of a run reads is assigned: an operand of an instruction behind the phis, or an input of a phi. -/
theorem Informed.read_cases (informed : Informed m prog s) (wf : prog.WellFormed) (read : v ∈ prog.reads s.point) :
    (∃ x, s.env v = some x) ∧
    ((∃ insn, prog.front s.point = [insn] ∧ insn.isPhi = false ∧ v ∈ insn.uses ∧
        prog.behindPhis s.point.block ≤ s.point.index) ∨
      AheadOfPhis prog s.point ∧
        ∃ dst inputs, .phi dst inputs ∈ prog.front s.point ∧ (s.point.pred, v) ∈ inputs) := by
  obtain ⟨i, among, read⟩ := List.mem_flatMap.mp read
  have place := informed.place
  cases informed with
  | @behind pred block env world pre rest comes split plain knows =>
    cases rest with
    | nil =>
      rw [front_nil split rfl] at among
      cases among
    | cons insn rest =>
      have other := plain insn List.mem_cons_self
      have only : prog.front ⟨pred, block, pre.length⟩ = [insn] := front_plain split rfl other
      rw [only] at among
      obtain rfl := List.mem_singleton.mp among
      rw [readsFrom_plain other] at read
      exact ⟨(knows v (wf.uses _ _ _ comes.reached ⟨rest, split⟩ other v read)).assigned,
        Or.inl ⟨i, only, other, read, behindPhis_le split plain⟩⟩
  | @ahead pred block env world pre rest phis body comes split values first some_phi phi plain knows left =>
    cases rest with
    | nil =>
      rw [List.append_nil] at split values
      have group : prog.front ⟨pred, block, pre.length⟩ = phis := front_group split some_phi phi plain
      have early : ¬ prog.behindPhis block ≤ pre.length := by
        have := List.length_pos_iff.mpr some_phi
        rw [behindPhis_eq split some_phi phi plain, List.length_append]
        omega
      rw [group] at among
      cases i with
      | phi dst inputs =>
        obtain ⟨w, taken, member, seen⟩ := wf.phi_seen split phi comes among
        have same : v ∈ (phiInput pred inputs).toList := read
        rw [taken] at same
        obtain rfl := List.mem_singleton.mp same
        refine ⟨?_, Or.inr ⟨place.resolve_right early, dst, inputs, group ▸ among, member⟩⟩
        cases pred with
        | none => exact (knows v (Or.inl seen)).assigned
        | some p => exact (left p rfl v seen).assigned
      | _ => cases phi _ among
    | cons insn rest =>
      have value := values insn (List.mem_append_right _ List.mem_cons_self)
      have whole : prog.insnsOf block = pre ++ insn :: (rest ++ phis ++ body) := by rw [split]; simp
      rw [front_plain whole rfl (entryValue_not_phi value)] at among
      obtain rfl := List.mem_singleton.mp among
      rw [readsFrom_plain (entryValue_not_phi value), uses_entryValue value] at read
      cases read

/-- An awaited version was assigned, and is kept from its last assignment. -/
theorem Visits.last_assigned (visits : Visits m prog start s) (wf : prog.WellFormed) (awaits : Awaits m prog v s) :
    ∃ d d', Visits m prog start d ∧ Steps m prog d d' ∧ v ∈ prog.assigns d.point ∧
      ReflTransGen (Keeping m prog v) d' s := by
  obtain ⟨z, trail, read⟩ := awaits_iff.mp awaits
  have informed := (visits.along (trail_of_unmarked trail)).informed wf
  obtain ⟨⟨x, assigned⟩, _⟩ := informed.read_cases wf read
  rcases last_marked (fun s => v ∈ prog.assigns s.point) (visits_iff.mp visits) with
    clear | ⟨d, d', before, step, here, kept⟩
  · have never : z.env v = none := (kept_env trail).trans (kept_env clear)
    rw [never] at assigned
    cases assigned
  · exact ⟨d, d', visits_iff.mpr before, step, here, kept⟩

/-! ### Into a block -/

/-- A trail from the head of a block ends there or passes behind the phis, and what it keeps is not assigned on
the way. -/
theorem through_phis (split : prog.insnsOf block = pre ++ rest ++ phis ++ body) (values : ∀ i ∈ rest, i.isEntryValue)
    (none_before : ∀ i ∈ pre, i.isPhi = false) (some_phi : phis ≠ []) (phi : ∀ i ∈ phis, i.isPhi)
    (plain : ∀ i ∈ body, i.isPhi = false)
    (trail : ReflTransGen (Keeping m prog v) ⟨⟨pred, block, pre.length⟩, env, world⟩ z) :
    (∃ w, ReflTransGen (Steps m prog) ⟨⟨pred, block, pre.length⟩, env, world⟩ w ∧
      ReflTransGen (Keeping m prog v) w z ∧ w.point = ⟨pred, block, prog.behindPhis block⟩ ∧ v ∉ defs (rest ++ phis)) ∨
    z.point.pred = pred ∧ z.point.block = block ∧ z.point.index < prog.behindPhis block := by
  have behind := behindPhis_eq split some_phi phi plain
  have short : pre.length < (pre ++ rest ++ phis).length := by
    have := List.length_pos_iff.mpr some_phi
    simp only [List.length_append]
    omega
  induction rest generalizing pre env with
  | nil =>
    rcases trail.cases_head with rfl | ⟨s', step, trail⟩
    · exact Or.inr ⟨rfl, rfl, behind ▸ short⟩
    · rw [List.append_nil] at split behind
      have group : prog.front ⟨pred, block, pre.length⟩ = phis := front_group split some_phi phi plain
      have kept : v ∉ defs (prog.front ⟨pred, block, pre.length⟩) := step.2
      have stepped : advance m prog ⟨⟨pred, block, pre.length⟩, env, world⟩ = some s' := step.1
      have whole : prog.insnsOf block = pre ++ (phis ++ body) := by rw [split, List.append_assoc]
      rw [advance_phis whole (takeWhile_append_of phi fun y here => plain y (List.mem_of_mem_head? here)).1 some_phi
        none_before] at stepped
      obtain ⟨env', _, rfl⟩ := Option.map_eq_some_iff.mp stepped
      exact Or.inl ⟨_, .single step.1, trail, by rw [behind, List.length_append], group ▸ kept⟩
  | cons i rest ih =>
    rcases trail.cases_head with rfl | ⟨s', step, trail⟩
    · exact Or.inr ⟨rfl, rfl, behind ▸ short⟩
    · have value := values i List.mem_cons_self
      have other := entryValue_not_phi value
      have whole : prog.insnsOf block = pre ++ i :: (rest ++ phis ++ body) := by rw [split]; simp
      have kept : v ∉ defs (prog.front ⟨pred, block, pre.length⟩) := step.2
      have stepped : advance m prog ⟨⟨pred, block, pre.length⟩, env, world⟩ = some s' := step.1
      obtain ⟨w, x, _, _, exec⟩ := exec_entryValue (m := m) value
      rw [advance_plain whole other, exec env world] at stepped
      cases stepped
      rw [front_plain whole rfl other] at kept
      have next : pre ++ i :: rest = (pre ++ [i]) ++ rest := by simp
      have at_next : (Standing.past ⟨⟨pred, block, pre.length⟩, env, world⟩ 1 (env.set w x) world) =
          ⟨⟨pred, block, (pre ++ [i]).length⟩, env.set w x, world⟩ := by simp [Standing.past]
      rw [at_next] at trail step
      rw [next] at split behind short
      have long : (pre ++ [i]).length < (pre ++ [i] ++ rest ++ phis).length := by
        have := List.length_pos_iff.mpr some_phi
        simp only [List.length_append]
        omega
      rcases ih split (fun j later => values j (List.mem_cons_of_mem _ later)) (List.forall_mem_append.mpr
        ⟨none_before, by simpa using other⟩) trail behind long with ⟨w, there, onward, place, unassigned⟩ | inHead
      · refine Or.inl ⟨w, .head step.1 there, onward, place, ?_⟩
        rw [show i :: rest ++ phis = [i] ++ (rest ++ phis) from rfl, defs_append]
        exact fun among => (List.mem_append.mp among).elim kept unassigned
      · exact Or.inr inHead

/-- From before the phis a trail leads behind them, unless it ends before. -/
theorem Informed.through (informed : Informed m prog s) (ahead : s.point.index < prog.behindPhis s.point.block)
    (trail : ReflTransGen (Keeping m prog v) s z) :
    (∃ w, ReflTransGen (Steps m prog) s w ∧ ReflTransGen (Keeping m prog v) w z ∧
      w.point = { s.point with index := prog.behindPhis s.point.block } ∧
      (∀ inputs, .phi v inputs ∉ prog.insnsOf s.point.block) ∧
      v ∉ defs (((prog.insnsOf s.point.block).take (prog.behindPhis s.point.block)).drop s.point.index)) ∨
    z.point.pred = s.point.pred ∧ z.point.block = s.point.block ∧ z.point.index < prog.behindPhis s.point.block := by
  cases informed with
  | behind comes split plain => exact absurd ahead (Nat.not_lt.mpr (behindPhis_le split plain))
  | @ahead pred block env world pre rest phis body comes split values first some_phi phi plain knows left =>
    have before : ∀ i ∈ pre, i.isPhi = false := fun i among =>
      entryValue_not_phi (values i (List.mem_append_left _ among))
    have later : ∀ i ∈ rest, i.isEntryValue := fun i among => values i (List.mem_append_right _ among)
    refine (through_phis split later before some_phi phi plain trail).imp_left ?_
    rintro ⟨w, there, onward, place, kept⟩
    refine ⟨w, there, onward, place, fun inputs among => kept ?_, ?_⟩
    · dsimp only at among
      rw [split] at among
      rcases List.mem_append.mp among with early | late
      · rcases List.mem_append.mp early with head | here
        · cases entryValue_not_phi (values _ head)
        · exact mem_defs.mpr ⟨_, List.mem_append_right _ here, rfl⟩
      · cases plain _ late
    · dsimp only
      rwa [behindPhis_eq split some_phi phi plain, split, List.take_left, List.append_assoc, List.drop_left]

/-- From the start of a block a trail leads behind its phis, unless it ends before. -/
theorem Informed.enters (informed : Informed m prog s) (first : s.point.index = 0)
    (trail : ReflTransGen (Keeping m prog v) s z) :
    (∃ w, ReflTransGen (Steps m prog) s w ∧ ReflTransGen (Keeping m prog v) w z ∧
      w.point = { s.point with index := prog.behindPhis s.point.block } ∧
      (∀ inputs, .phi v inputs ∉ prog.insnsOf s.point.block) ∧
      v ∉ defs ((prog.insnsOf s.point.block).take (prog.behindPhis s.point.block))) ∨
    z.point.pred = s.point.pred ∧ z.point.block = s.point.block ∧ z.point.index < prog.behindPhis s.point.block := by
  by_cases ahead : s.point.index < prog.behindPhis s.point.block
  · have through := informed.through ahead trail
    rwa [first, List.drop_zero] at through
  · have none_ : prog.behindPhis s.point.block = 0 := by omega
    refine Or.inl ⟨s, .refl, trail, by rw [none_, ← first], fun inputs among => ?_, by simp [none_, defs]⟩
    have plain : ∀ i ∈ prog.insnsOf s.point.block, (!i.isPhi) = true :=
      List.rdropWhile_eq_nil_iff.mp (List.length_eq_zero_iff.mp none_)
    exact absurd (plain _ among) (by simp [SsaInsn.isPhi])

/-! ### From block to block -/

/-- Control leaves the block of a point for another. -/
def Jumps (m : Machine) (prog : SsaProgram) (s : Standing) : Prop :=
  ∃ s', advance m prog s = some s' ∧ s'.point.index = 0 ∧ s'.point.pred = some s.point.block

/-- A step goes behind what is executed at a point, or jumps to the start of a block. -/
theorem step_cases (step : Steps m prog s s') :
    s'.point = { s.point with index := s.point.index + (prog.front s.point).length } ∨
      Jumps m prog s ∧ s'.point.index = 0 ∧ s'.point.pred = some s.point.block := by
  rcases advance_cases step with ⟨env, world, rfl, _⟩ | ⟨t, rfl, _⟩
  · exact Or.inl rfl
  · exact Or.inr ⟨⟨_, step, rfl, rfl⟩, rfl, rfl⟩

theorem Informed.jumps_behind (informed : Informed m prog s) (jumps : Jumps m prog s) :
    prog.behindPhis s.point.block ≤ s.point.index := by
  obtain ⟨s', step, first, _⟩ := jumps
  cases informed with
  | behind comes split plain => exact behindPhis_le split plain
  | @ahead pred block env world pre rest phis body comes split values _ some_phi phi plain knows left =>
    exfalso
    cases rest with
    | nil =>
      rw [List.append_nil] at split values
      have before : ∀ i ∈ pre, i.isPhi = false := fun i among => entryValue_not_phi (values i among)
      have whole : prog.insnsOf block = pre ++ (phis ++ body) := by rw [split, List.append_assoc]
      rw [advance_phis whole (takeWhile_append_of phi fun y here => plain y (List.mem_of_mem_head? here)).1 some_phi
        before] at step
      obtain ⟨env', _, rfl⟩ := Option.map_eq_some_iff.mp step
      have := List.length_pos_iff.mpr some_phi
      dsimp only at first
      omega
    | cons i rest =>
      have value := values i (List.mem_append_right _ List.mem_cons_self)
      have whole : prog.insnsOf block = pre ++ i :: (rest ++ phis ++ body) := by rw [split]; simp
      obtain ⟨w, x, _, _, exec⟩ := exec_entryValue (m := m) value
      rw [advance_plain whole (entryValue_not_phi value), exec env world] at step
      cases step
      cases first

/-- A trail stays in its block, or is cut at the jump that leads to the block it ends in. -/
theorem last_jump (trail : ReflTransGen (Keeping m prog v) s z) :
    (z.point.pred = s.point.pred ∧ z.point.block = s.point.block ∧ s.point.index ≤ z.point.index) ∨
    ∃ y, ReflTransGen (Keeping m prog v) s y ∧ Jumps m prog y ∧ ReflTransGen (Keeping m prog v) y z ∧
      z.point.pred = some y.point.block := by
  have stays : ∀ {a b : Standing}, ReflTransGen (Unmarked (Keeping m prog v) (Jumps m prog)) a b →
      b.point.pred = a.point.pred ∧ b.point.block = a.point.block ∧ a.point.index ≤ b.point.index := by
    intro a b trail
    induction trail with
    | refl => exact ⟨rfl, rfl, Nat.le_refl _⟩
    | tail _ step ih =>
      rcases step_cases step.1.1 with place | ⟨jumps, _⟩
      · rw [place]
        exact ⟨ih.1, ih.2.1, Nat.le_add_right_of_le ih.2.2⟩
      · exact absurd jumps step.2
  rcases last_marked (Jumps m prog) trail with clear | ⟨y, y', before, step, jumps, behind⟩
  · exact Or.inl (stays clear)
  · obtain ⟨target, stepped, first, from_⟩ := jumps
    obtain rfl : y' = target := Option.some.inj (step.1.symm.trans stepped)
    exact Or.inr ⟨y, before, ⟨y', stepped, first, from_⟩, .head step (trail_of_unmarked behind),
      (stays behind).1.trans from_⟩

theorem Awaits.before (awaits : Awaits m prog v z) (trail : ReflTransGen (Keeping m prog v) s z) : Awaits m prog v s := by
  obtain ⟨place, onward, read⟩ := awaits_iff.mp awaits
  exact awaits_iff.mpr ⟨place, trail.trans onward, read⟩

end EbpfLab.Ssa
