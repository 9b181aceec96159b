import EbpfLab.Ssa.Awaited
import EbpfLab.Ssa.Pins

/-!
# Live ranges along a run

Ranges are intervals of the flat order, and a run leaves that order where it jumps back. What a jump back
carries has to be read on cycles up to the jump, so that its range is pinned. Then the ranges of versions
that are awaited together overlap.
-/

namespace EbpfLab.Ssa
open Isa FlowGraph Interp Library Relation

variable {petgraph : Petgraph}
  {m : Machine} {prog : SsaProgram} {s s' z a b d d' : Standing} {u v dst : SsaValue} {start : World}
  {insn : SsaInsn} {pos r p q : Nat} {inputs : List (Pred × SsaValue)} {pred : Pred} {site : Site}

/-! ### Reads and their places -/

theorem input_mem_regUses (there : (site, .phi dst inputs) ∈ prog.liveSites) (live : prog.isLive q)
    (listed : (some q, v) ∈ inputs) : (prog.blockEnd q, v) ∈ prog.regUses :=
  List.mem_flatMap.mpr ⟨_, there, List.mem_filterMap.mpr ⟨_, listed, by simp [live]⟩⟩

theorem start_mem_startUses (there : (site, .phi dst inputs) ∈ prog.liveSites) (listed : (none, v) ∈ inputs) :
    (prog.flat site, v) ∈ prog.startUses :=
  List.mem_flatMap.mpr ⟨_, there, List.mem_map.mpr ⟨_, List.mem_filter.mpr ⟨listed, rfl⟩, rfl⟩⟩

/-- What is executed at a point stands at its place or behind it. -/
theorem front_site {i : SsaInsn} {point : Point} (among : i ∈ prog.front point) : ∃ k < (prog.front point).length,
    (prog.insnsOf point.block)[point.index + k]? = some i := by
  obtain ⟨k, found⟩ := List.getElem?_of_mem among
  obtain ⟨rest, split⟩ := front_starts prog point
  have inside := (List.getElem?_eq_some_iff.mp found).1
  refine ⟨k, inside, ?_⟩
  rw [← List.getElem?_drop, ← split, List.getElem?_append_left inside]
  exact found

/-- A read is a use at its place, or one of the phis: at the end of the predecessor, or of the start. -/
theorem Informed.read_place (informed : Informed m prog s) (wf : prog.WellFormed) (read : v ∈ prog.reads s.point) :
    prog.behindPhis s.point.block ≤ s.point.index ∧ (prog.flat s.point.site, v) ∈ prog.regUses ∨
    AheadOfPhis prog s.point ∧ (∀ q, s.point.pred = some q → (prog.blockEnd q, v) ∈ prog.regUses) ∧
      (s.point.pred = none → ∃ pos, prog.flat s.point.site ≤ pos ∧ (pos, v) ∈ prog.startUses) := by
  have live := wf.live _ informed.knows.1
  rcases (informed.read_cases wf read).2 with ⟨insn, only, plain, used, behind⟩ | ⟨ahead, dst, inputs, among, member⟩
  · obtain ⟨k, short, found⟩ := front_site (only ▸ List.mem_singleton.mpr rfl : insn ∈ prog.front s.point)
    rw [only, List.length_singleton, Nat.lt_one_iff] at short
    subst short
    exact Or.inl ⟨behind, mem_regUses (mem_liveSites.mpr ⟨live, found⟩) plain used⟩
  · obtain ⟨k, _, found⟩ := front_site among
    have listed : ((s.point.block, s.point.index + k), .phi dst inputs) ∈ prog.liveSites :=
      mem_liveSites.mpr ⟨live, found⟩
    have comes := informed.comes
    refine Or.inr ⟨ahead, fun q from_ => ?_, fun from_ => ?_⟩
    · rw [from_] at member comes
      exact input_mem_regUses listed (wf.live q comes.1) member
    · rw [from_] at member
      exact ⟨_, Nat.add_le_add_left (Nat.le_add_right _ _) _, start_mem_startUses listed member⟩

/-! ### The ends of ranges -/

theorem le_foldl_max (ends : List Nat) (x : Nat) : x ≤ ends.foldl max x ∧ ∀ e ∈ ends, e ≤ ends.foldl max x := by
  induction ends generalizing x with
  | nil => exact ⟨Nat.le_refl _, nofun⟩
  | cons e ends ih =>
    obtain ⟨first, later⟩ := ih (max x e)
    exact ⟨(Nat.le_max_left x e).trans first,
      List.forall_mem_cons.mpr ⟨(Nat.le_max_right x e).trans first, later⟩⟩

theorem range_compute (inside : v < prog.defSites.length) :
    (Liveness.compute petgraph prog).range v = prog.liveRange petgraph v := by
  simp [Liveness.range, Liveness.compute, inside]

theorem start_compute (inside : v < prog.defSites.length) :
    (Liveness.compute petgraph prog).start v = prog.defPos v :=
  congrArg Prod.fst (range_compute inside)

/-- A range ends behind its uses, and is pinned by those on cycles. -/
theorem stop_of_use (inside : v < prog.defSites.length) (use : (pos, v) ∈ prog.regUses) :
    prog.useEnd petgraph (prog.defPos v) pos ≤ (Liveness.compute petgraph prog).stop v := by
  rw [Liveness.stop, range_compute inside]
  refine (le_foldl_max _ _).2 _ (List.mem_append_left _ (List.mem_map.mpr ⟨(pos, v), ?_, rfl⟩))
  exact List.mem_filter.mpr ⟨use, beq_self_eq_true v⟩

theorem stop_of_start (inside : v < prog.defSites.length) (use : (pos, v) ∈ prog.startUses) :
    prog.startEnd petgraph v (prog.defPos v) pos ≤ (Liveness.compute petgraph prog).stop v := by
  rw [Liveness.stop, range_compute inside]
  refine (le_foldl_max _ _).2 _ (List.mem_append_right _ (List.mem_map.mpr ⟨(pos, v), ?_, rfl⟩))
  exact List.mem_filter.mpr ⟨use, beq_self_eq_true v⟩

theorem useEnd_pinned (documented : petgraph.Documented) (targets : ∀ e ∈ prog.edges, e.target < prog.blocks.length)
    (cycle : prog.OnCycle pos) (first : Nat) : prog.useEnd petgraph first pos = prog.len := by
  simp [SsaProgram.useEnd, (inCycle_iff documented targets).mpr cycle]

theorem useEnd_cases (petgraph : Petgraph) (prog : SsaProgram) (first pos : Nat) :
    prog.useEnd petgraph first pos = prog.len ∨ prog.useEnd petgraph first pos = pos + 1 := by
  unfold SsaProgram.useEnd
  split
  · exact Or.inl rfl
  · exact Or.inr rfl

theorem startEnd_cases (petgraph : Petgraph) (prog : SsaProgram) (v : SsaValue) (first pos : Nat) :
    prog.startEnd petgraph v first pos = prog.len ∨ prog.startEnd petgraph v first pos = pos := by
  unfold SsaProgram.startEnd
  split
  · exact Or.inl rfl
  · exact Or.inr rfl

/-! ### Places along a run -/

theorem Informed.flat_le (informed : Informed m prog s) : prog.flat s.point.site ≤ prog.blockEnd s.point.block := by
  rw [blockEnd_eq]
  exact Nat.add_le_add_left informed.index_le _

theorem flat_lt_of_front {i : SsaInsn} (among : i ∈ prog.front s.point) :
    prog.flat s.point.site < prog.blockEnd s.point.block := by
  obtain ⟨k, _, found⟩ := front_site among
  have inside := (List.getElem?_eq_some_iff.mp found).1
  rw [blockEnd_eq]
  exact Nat.add_lt_add_left ((Nat.le_add_right _ k).trans_lt inside) _

/-- An awaited version is awaited before the end of the program. -/
theorem Awaits.flat_lt (awaits : Awaits m prog v s) (visits : Visits m prog start s) (wf : prog.WellFormed)
    (laid : Laid prog) : prog.flat s.point.site < prog.len := by
  induction awaits with
  | read here =>
    obtain ⟨i, among, _⟩ := List.mem_flatMap.mp here
    exact (flat_lt_of_front among).trans_le blockEnd_le_len
  | @later s s' step kept _ ih =>
    cases first : prog.front s.point with
    | cons i rest =>
      have among : i ∈ prog.front s.point := first ▸ List.mem_cons_self
      exact (flat_lt_of_front among).trans_le blockEnd_le_len
    | nil =>
      have onward := ih (visits.along (.single step))
      rcases advance_cases step with ⟨env, world, rfl, _⟩ | ⟨t, rfl, ⟨_, falls⟩ | ⟨insn, only, _⟩⟩
      · rw [first] at onward
        exact onward
      · exact ((visits.informed wf).flat_le.trans (blockEnd_le_blockStart (laid.falls_lt falls))).trans_lt onward
      · rw [first] at only
        cases only

/-- The definition of a version, among what is executed at a point. -/
structure DefinedAt (prog : SsaProgram) (point : Point) (v : SsaValue) (k : Nat) (i : SsaInsn) : Prop where
  short : k < (prog.front point).length
  found : (prog.insnsOf point.block)[point.index + k]? = some i
  dst : i.defDst = some v
  recorded : prog.defOf v = some i
  defPos : prog.defPos v = prog.blockStart point.block + (point.index + k)
  inside : v < prog.defSites.length

theorem definedAt_of_assigned (reached : prog.Reaches s.point.block) (wf : prog.WellFormed)
    (assigned : v ∈ prog.assigns s.point) : ∃ k i, DefinedAt prog s.point v k i := by
  obtain ⟨i, among, defines⟩ := mem_defs.mp assigned
  obtain ⟨k, short, found⟩ := front_site among
  obtain ⟨inside, at_⟩ := List.getElem?_eq_some_iff.mp found
  have here : prog.At s.point.block ((prog.insnsOf s.point.block).take (s.point.index + k)) i :=
    ⟨(prog.insnsOf s.point.block).drop (s.point.index + k + 1), by
      rw [← at_, List.getElem_cons_drop, List.take_append_drop]⟩
  have site := wf.recorded _ _ _ v (wf.live _ reached) here defines
  rw [List.length_take_of_le inside.le] at site
  refine ⟨k, i, short, found, defines, ?_, ?_, (List.getElem?_eq_some_iff.mp site).1⟩
  · rw [SsaProgram.defOf, site, Option.join_some, Option.bind_some, insnAt_eq]
    exact found
  · rw [SsaProgram.defPos, site]
    rfl

/-- Control goes on behind what it assigns. -/
theorem step_of_assigned (step : Steps m prog d d') (assigned : v ∈ prog.assigns d.point) :
    d'.point = { d.point with index := d.point.index + (prog.front d.point).length } := by
  obtain ⟨i, among, defines⟩ := mem_defs.mp assigned
  rcases advance_cases step with ⟨env, world, rfl, _⟩ | ⟨t, rfl, ⟨none_, _⟩ | ⟨insn, only, ran⟩⟩
  · rfl
  · rw [none_] at among
    cases among
  · rw [only] at among
    obtain rfl := List.mem_singleton.mp among
    have control := (execInsn_goto d.point.block ran).1
    cases i <;> first | exact absurd control Bool.false_ne_true | cases defines

/-- A version that is defined at a block's start or behind, but not in its first instructions, is defined behind them. -/
theorem DefinedAt.beyond {point : Point} {block k n : Nat} {i : SsaInsn} (definedAt : DefinedAt prog point v k i)
    (low : prog.blockStart block ≤ prog.defPos v) (short : n ≤ (prog.insnsOf block).length)
    (unassigned : v ∉ defs ((prog.insnsOf block).take n)) : prog.blockStart block + n ≤ prog.defPos v := by
  by_contra early
  have inside := (List.getElem?_eq_some_iff.mp definedAt.found).1
  have ends : ∀ b, prog.blockEnd b = prog.blockStart b + (prog.insnsOf b).length := fun _ => blockEnd_eq
  have own := ends point.block
  have other := ends block
  have defPos := definedAt.defPos
  rcases Nat.lt_trichotomy point.block block with lt | same | gt
  · have apart : prog.blockEnd point.block ≤ prog.blockStart block := blockEnd_le_blockStart lt
    omega
  · subst same
    refine unassigned (mem_defs.mpr ⟨i, ?_, definedAt.dst⟩)
    refine List.mem_of_getElem? (i := point.index + k) ?_
    rw [List.getElem?_take_of_lt (by omega)]
    exact definedAt.found
  · have apart : prog.blockEnd block ≤ prog.blockStart point.block := blockEnd_le_blockStart gt
    omega

/-- What is defined before a point ahead of the phis is an entry value. -/
theorem DefinedAt.in_head {point point' : Point} {k : Nat} {i : SsaInsn} (definedAt : DefinedAt prog point v k i)
    (ahead : AheadOfPhis prog point') (block : point'.block = point.block) (before : point.index + k < point'.index) :
    prog.defPos v < prog.flat point'.site ∧ i.isEntryValue := by
  constructor
  · rw [definedAt.defPos, ← block]
    exact Nat.add_lt_add_left before _
  · refine ahead.values i (List.mem_of_getElem? (i := point.index + k) ?_)
    rw [List.getElem?_take_of_lt before, block]
    exact definedAt.found

/-- An awaited version is kept from behind its definition. -/
theorem Visits.last_defined (visits : Visits m prog start s) (wf : prog.WellFormed) (awaits : Awaits m prog v s) :
    ∃ (d d' : Standing) (k : Nat) (i : SsaInsn), Visits m prog start d' ∧ DefinedAt prog d.point v k i ∧
      d'.point = { d.point with index := d.point.index + (prog.front d.point).length } ∧
      ReflTransGen (Keeping m prog v) d' s := by
  obtain ⟨d, d', there, step, assigned, kept⟩ := visits.last_assigned wf awaits
  obtain ⟨k, i, definedAt⟩ := definedAt_of_assigned (there.informed wf).knows.1 wf assigned
  exact ⟨d, d', k, i, there.along (.single step), definedAt, step_of_assigned step assigned, kept⟩

/-! ### In order -/

namespace SsaProgram

/-- What a jump back from `p` brings to a point behind the phis of its target is read on cycles between the two,
and so is everything there when it is defined further down. -/
def Carries (prog : SsaProgram) (p : Nat) (point : Point) (v : SsaValue) : Prop :=
  ∀ use ∈ prog.regUses, prog.blockStart point.block ≤ use.1 → use.1 < prog.blockEnd p →
    use.2 = v ∨ prog.flat point.site ≤ prog.defPos v → prog.OnCycle use.1

end SsaProgram

/-- The flat order serves a run at a point: behind the phis of its block what a jump back has brought is read on
cycles, and behind a call only versions are awaited that are defined above it. -/
structure InOrder (m : Machine) (prog : SsaProgram) (s : Standing) : Prop where
  carried : ∀ p v, s.point.pred = some p → s.point.index = prog.behindPhis s.point.block → Awaits m prog v s →
    (∀ inputs, .phi v inputs ∉ prog.insnsOf s.point.block) → prog.Carries p s.point v
  above : ∀ dst func args s' v, prog.front s.point = [.call dst func args] → advance m prog s = some s' →
    Awaits m prog v s' → v ≠ dst → prog.defPos v < prog.flat s.point.site

theorem InOrder.carries {w : Standing} {x : Point} (order : InOrder m prog w)
    (place : w.point = { x with index := prog.behindPhis x.block }) (from_ : x.pred = some p) (awaits : Awaits m prog v w)
    (other : ∀ inputs, .phi v inputs ∉ prog.insnsOf x.block) :
    prog.Carries p { x with index := prog.behindPhis x.block } v := by
  have carried := order.carried p v
  rw [place] at carried
  exact carried from_ rfl awaits other

section

variable (wf : prog.WellFormed)
include wf

/-- A trail to a place further up jumps back across every place between. -/
theorem jump_across (visits : Visits m prog start a) (trail : ReflTransGen (Keeping m prog v) a b)
    (above : r < prog.flat a.point.site) (below : prog.flat b.point.site ≤ r) :
    ∃ x p, Visits m prog start x ∧ ReflTransGen (Keeping m prog v) x b ∧ x.point.index = 0 ∧ x.point.pred = some p ∧
      prog.blockStart x.point.block ≤ r ∧ r < prog.blockEnd p := by
  obtain ⟨x, y, before, step, behind, high, low⟩ :=
    exists_crossing trail (fun s => prog.flat s.point.site) above below
  have there := visits.along (trail_of_unmarked before)
  rcases step_cases step.1 with place | ⟨_, first, from_⟩
  · rw [place] at low
    have low : prog.blockStart x.point.block + (x.point.index + (prog.front x.point).length) ≤ r := low
    have high : r < prog.blockStart x.point.block + x.point.index := high
    omega
  · have low : prog.blockStart y.point.block + y.point.index ≤ r := low
    exact ⟨y, x.point.block, there.along (.single step.1), behind, first, from_, by omega,
      high.trans_le (there.informed wf).flat_le⟩

variable (inOrder : ∀ s, Visits m prog start s → InOrder m prog s)
include inOrder

/-- Where a version is brought from further down, the reads on the way are on cycles, unless the trail ends before
the phis of the block that the jump goes to. -/
theorem cycle_of_kept {k : Nat} {point : Point} (visits : Visits m prog start a)
    (trail : ReflTransGen (Keeping m prog v) a b) (awaits : Awaits m prog v b) (definedAt : DefinedAt prog point v k insn)
    (use : (r, u) ∈ prog.regUses) (above : r < prog.flat a.point.site) (below : prog.flat b.point.site ≤ r)
    (late : r ≤ prog.defPos v) : prog.OnCycle r ∨ ∃ p, b.point.pred = some p ∧
      b.point.index < prog.behindPhis b.point.block ∧ prog.blockStart b.point.block ≤ r ∧ r < prog.blockEnd p := by
  obtain ⟨x, p, there, onward, first, from_, low, high⟩ := jump_across wf visits trail above below
  rcases (there.informed wf).enters first onward with ⟨w, toW, onward, place, other, unassigned⟩ | ⟨pred, block, ahead⟩
  · have order := inOrder w (there.along toW)
    have short : prog.behindPhis x.point.block ≤ (prog.insnsOf x.point.block).length :=
      (List.rdropWhile_prefix _ _).length_le
    have beyond := definedAt.beyond (low.trans late) short unassigned
    have carries := (inOrder w (there.along toW)).carries place from_ (awaits.before onward) other
    exact Or.inl (carries _ use low high (Or.inr beyond))
  · exact Or.inr ⟨p, pred.trans from_, block ▸ ahead, block ▸ low, high⟩

/-- A read that is laid out above a point, but comes after it, is on a cycle. -/
theorem cycle_of_read (visits : Visits m prog start a) (trail : ReflTransGen (Keeping m prog u) a z)
    (awaits : Awaits m prog u z) (behind : prog.behindPhis z.point.block ≤ z.point.index) (use : (r, u) ∈ prog.regUses)
    (above : r < prog.flat a.point.site) (below : prog.flat z.point.site ≤ r) : prog.OnCycle r := by
  obtain ⟨x, p, there, onward, first, from_, low, high⟩ := jump_across wf visits trail above below
  rcases (there.informed wf).enters first onward with ⟨w, toW, onward, place, other, _⟩ | ⟨_, block, ahead⟩
  · have carries := (inOrder w (there.along toW)).carries place from_ (awaits.before onward) other
    exact carries _ use low high (Or.inl rfl)
  · rw [block] at behind
    omega

/-- While `v` is kept a run comes to a read of `u`: the read is laid out behind the definition of `v`, or on a cycle. -/
theorem cycle_of_awaited {k : Nat} {point : Point} (visits : Visits m prog start a)
    (kept : ReflTransGen (Keeping m prog v) a s) (awaitsV : Awaits m prog v s) (definedAt : DefinedAt prog point v k insn)
    (trail : ReflTransGen (Keeping m prog u) s z) (awaitsU : Awaits m prog u z)
    (behind : prog.behindPhis z.point.block ≤ z.point.index) (use : (r, u) ∈ prog.regUses)
    (above : r < prog.flat a.point.site) (below : prog.flat z.point.site ≤ r) (late : r ≤ prog.defPos v) :
    prog.OnCycle r := by
  have here := visits.along (trail_of_unmarked kept)
  by_cases high : r < prog.flat s.point.site
  · exact cycle_of_read wf inOrder here trail awaitsU behind use high below
  rcases cycle_of_kept wf inOrder visits kept awaitsV definedAt use above (Nat.not_lt.mp high) late with
    cycle | ⟨p, from_, ahead, low, high⟩
  · exact cycle
  -- the jump has just come to the block of `s`
  rcases (here.informed wf).through ahead trail with ⟨w, toW, onward, place, other, _⟩ | ⟨_, block, early⟩
  · have carries := (inOrder w (here.along toW)).carries place from_ (awaitsU.before onward) other
    exact carries _ use low high (Or.inl rfl)
  · rw [block] at behind
    omega

/-! ### The ranges -/

variable (documented : petgraph.Documented)
include documented

/-- The range of a version that is read behind a call goes on behind the call. -/
theorem stop_behind_call {func : UInt32} {args : Vector SsaValue 5} (visits : Visits m prog start s)
    (calls : prog.front s.point = [.call dst func args]) (step : Steps m prog s s') (awaits : Awaits m prog v s') :
    prog.flat s.point.site < (Liveness.compute petgraph prog).stop v := by
  have there := visits.along (.single step)
  have inside : v < prog.defSites.length := by
    obtain ⟨_, _, _, _, _, definedAt, _⟩ := there.last_defined wf awaits
    exact definedAt.inside
  have onward := step_of_assigned step (v := dst) (mem_defs.mpr ⟨_, calls ▸ List.mem_singleton.mpr rfl, rfl⟩)
  rw [calls, List.length_singleton] at onward
  have next : prog.flat s'.point.site = prog.flat s.point.site + 1 := by rw [onward]; rfl
  have here : .call dst func args ∈ prog.front s.point := calls ▸ List.mem_singleton.mpr rfl
  have short : prog.flat s.point.site < prog.len := (flat_lt_of_front here).trans_le blockEnd_le_len
  have reaches : ∀ {r}, (r, v) ∈ prog.regUses → (r ≤ prog.flat s.point.site → prog.OnCycle r) →
      prog.flat s.point.site < (Liveness.compute petgraph prog).stop v := by
    intro r use cycle
    have stop : _ ≤ (Liveness.compute petgraph prog).stop v := stop_of_use inside use
    by_cases late : r ≤ prog.flat s.point.site
    · rw [useEnd_pinned documented wf.inside (cycle late)] at stop
      omega
    · rcases useEnd_cases petgraph prog (prog.defPos v) r with pinned | plain <;> omega
  obtain ⟨z, trail, read⟩ := awaits_iff.mp awaits
  have atZ := (there.along (trail_of_unmarked trail)).informed wf
  rcases atZ.read_place wf read with ⟨behind, use⟩ | ⟨ahead, inputs, _⟩
  · exact reaches use fun late => cycle_of_read wf inOrder there trail (.read read) behind use (by omega) (Nat.le_refl _)
  rcases last_jump trail with ⟨_, block, le⟩ | ⟨y, toY, jumps, fromY, from_⟩
  · -- a call does not stand ahead of phis
    obtain ⟨k, first, found⟩ := front_site here
    rw [calls, List.length_singleton, Nat.lt_one_iff] at first
    subst first
    have among : .call dst func args ∈ (prog.insnsOf z.point.block).take z.point.index := by
      refine List.mem_of_getElem? (i := s.point.index) ?_
      rw [onward] at le block
      have le : s.point.index + 1 ≤ z.point.index := le
      rw [List.getElem?_take_of_lt (by omega), block]
      exact found
    cases ahead.values _ among
  · have informed := (there.along (trail_of_unmarked toY)).informed wf
    have use := inputs _ from_
    exact reaches use fun late => cycle_of_read wf inOrder there toY (Awaits.before (.read read) fromY)
      (informed.jumps_behind jumps) use (by omega) informed.flat_le

variable (laid : Laid prog)
include laid

/-- The range of `u` goes on behind the definition of `v`: by an instruction at least, unless an entry value is
followed by the inputs of the start. -/
def Outlasts (petgraph : Petgraph) (prog : SsaProgram) (u v : SsaValue) : Prop :=
  prog.defPos v + 1 < (Liveness.compute petgraph prog).stop u ∨
    prog.defPos v < (Liveness.compute petgraph prog).stop u ∧ ∃ i, prog.defOf v = some i ∧ i.isEntryValue

omit inOrder in
theorem outlasts_of_use (visits : Visits m prog start a) (awaits : Awaits m prog v a)
    (past : prog.defPos v < prog.flat a.point.site) (inside : u < prog.defSites.length) (use : (r, u) ∈ prog.regUses)
    (cycle : r ≤ prog.defPos v → prog.OnCycle r) : Outlasts petgraph prog u v := by
  have stop : _ ≤ (Liveness.compute petgraph prog).stop u := stop_of_use inside use
  have short := awaits.flat_lt visits wf laid
  by_cases late : r ≤ prog.defPos v
  · rw [useEnd_pinned documented wf.inside (cycle late)] at stop
    exact Or.inl (by omega)
  · rcases useEnd_cases petgraph prog (prog.defPos u) r with pinned | plain
    · exact Or.inl (by omega)
    · exact Or.inl (by omega)

/-- An input of a phi that is read in the block of the point: it is used where the jump came from, or at the start. -/
theorem outlasts_ahead {k : Nat} (visits : Visits m prog start a) (past : prog.defPos v < prog.flat a.point.site)
    (definedAt : DefinedAt prog d.point v k insn)
    (onward : a.point = { d.point with index := d.point.index + (prog.front d.point).length })
    (kept : ReflTransGen (Keeping m prog v) a s) (awaits : Awaits m prog v s) (inside : u < prog.defSites.length)
    (atZ : Informed m prog z) (ahead : AheadOfPhis prog z.point)
    (inputs : ∀ q, z.point.pred = some q → (prog.blockEnd q, u) ∈ prog.regUses)
    (starts : z.point.pred = none → ∃ pos, prog.flat z.point.site ≤ pos ∧ (pos, u) ∈ prog.startUses)
    (pred : z.point.pred = s.point.pred) (block : z.point.block = s.point.block) (le : s.point.index ≤ z.point.index) :
    Outlasts petgraph prog u v := by
  have awaitsA := awaits.before kept
  rcases last_jump kept with ⟨pred', block', le'⟩ | ⟨y, toY, jumps, fromY, from_⟩
  · have short := definedAt.short
    have before : d.point.index + k < z.point.index := by
      rw [onward] at le'
      have le' : d.point.index + (prog.front d.point).length ≤ s.point.index := le'
      omega
    have same : z.point.block = d.point.block := by rw [block, block', onward]
    obtain ⟨early, value⟩ := definedAt.in_head ahead same before
    cases from_ : z.point.pred with
    | some q =>
      refine outlasts_of_use wf documented laid visits awaitsA past inside (inputs q from_) fun late =>
        absurd early (Nat.not_lt.mpr ?_)
      -- only the entry has values ahead of its phis, and it is laid out first
      have first : z.point.block ≤ q := by
        rw [ahead.first (by omega), laid.entry]
        exact Nat.zero_le q
      exact (atZ.flat_le.trans (blockEnd_mono first)).trans late
    | none =>
      obtain ⟨pos, le, use⟩ := starts from_
      have stop : _ ≤ (Liveness.compute petgraph prog).stop u := stop_of_start inside use
      have short := awaitsA.flat_lt visits wf laid
      refine Or.inr ⟨?_, insn, definedAt.recorded, value⟩
      rcases startEnd_cases petgraph prog u (prog.defPos u) pos with pinned | plain <;> omega
  · have informed := (visits.along (trail_of_unmarked toY)).informed wf
    have behind := informed.jumps_behind jumps
    have use := inputs _ (pred.trans from_)
    refine outlasts_of_use wf documented laid visits awaitsA past inside use fun late => ?_
    rcases cycle_of_kept wf inOrder visits toY (awaits.before fromY) definedAt use (late.trans_lt past)
      informed.flat_le late with cycle | ⟨_, _, early, _⟩
    · exact cycle
    · omega

/-- Where two versions are awaited, the range of each goes on behind the definition of the other. -/
theorem outlasts (visits : Visits m prog start s) (awaitsU : Awaits m prog u s) (awaitsV : Awaits m prog v s) :
    Outlasts petgraph prog u v := by
  obtain ⟨d, d', k, i, behindD, definedAt, onward, kept⟩ := visits.last_defined wf awaitsV
  have past : prog.defPos v < prog.flat d'.point.site := by
    rw [definedAt.defPos, onward]
    exact Nat.add_lt_add_left (Nat.add_lt_add_left definedAt.short _) _
  have inside : u < prog.defSites.length := by
    obtain ⟨_, _, _, _, _, definedAt, _⟩ := visits.last_defined wf awaitsU
    exact definedAt.inside
  have awaitsD := awaitsV.before kept
  obtain ⟨z, trail, read⟩ := awaits_iff.mp awaitsU
  have atZ := (visits.along (trail_of_unmarked trail)).informed wf
  rcases atZ.read_place wf read with ⟨behind, use⟩ | ⟨ahead, inputs, starts⟩
  · exact outlasts_of_use wf documented laid behindD awaitsD past inside use fun late =>
      cycle_of_awaited wf inOrder behindD kept awaitsV definedAt trail (.read read) behind use (late.trans_lt past)
        (Nat.le_refl _) late
  -- the phis of a block read `u`: of the block of the point, or of one that a run jumps to
  rcases last_jump trail with ⟨pred, block, le⟩ | ⟨y, toY, jumps, fromY, from_⟩
  · exact outlasts_ahead wf inOrder documented laid behindD past definedAt onward kept awaitsV inside atZ ahead inputs
      starts pred block le
  · have informed := (visits.along (trail_of_unmarked toY)).informed wf
    have use := inputs _ from_
    exact outlasts_of_use wf documented laid behindD awaitsD past inside use fun late =>
      cycle_of_awaited wf inOrder behindD kept awaitsV definedAt toY (Awaits.before (.read read) fromY)
        (informed.jumps_behind jumps) use (late.trans_lt past) informed.flat_le late

/-- A version that is awaited does not give up its home to another that is. -/
theorem not_passes (visits : Visits m prog start s) (awaitsU : Awaits m prog u s) (awaitsV : Awaits m prog v s) :
    ¬Passes prog (.compute petgraph prog) u v := by
  have inside : v < prog.defSites.length := by
    obtain ⟨_, _, _, _, _, definedAt, _⟩ := visits.last_defined wf awaitsV
    exact definedAt.inside
  unfold Passes
  rw [start_compute inside]
  rcases outlasts wf inOrder documented laid visits awaitsU awaitsV with longer | ⟨longer, i, recorded, value⟩
  · rintro (done | ⟨_, dies, _⟩) <;> omega
  · rintro (done | ⟨⟨_, _, _, _, computed⟩, _⟩)
    · omega
    · rw [recorded] at computed
      cases computed
      cases value

end

end EbpfLab.Ssa
