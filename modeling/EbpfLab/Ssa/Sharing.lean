import EbpfLab.Ssa.BuiltForm
import EbpfLab.Ssa.Ranges

/-!
# Shared homes

The scan compares live ranges, which are intervals of the flat program order. Where a run is in order,
versions that are awaited together have ranges that overlap, and so different homes. Behind a jump back
that closes no loop they can share one.
-/

namespace EbpfLab.Ssa
open Isa FlowGraph Interp

variable {petgraph : Petgraph} {m : Machine} {prog : SsaProgram} {homes : Homes} {s s' : Standing}
  {u v dst : SsaValue} {h : Reg} {world : World} {func : UInt32} {args : Vector SsaValue 5}

namespace SsaProgram

/-- The version is a phi whose home may be that of its input. -/
def Coalesces (prog : SsaProgram) (v u : SsaValue) : Prop :=
  ∃ dst inputs, prog.defOf v = some (.phi dst inputs) ∧ u ∈ inputs.map Prod.snd

end SsaProgram

/-- Two versions hold one value by a copy that the allocator may coalesce. -/
def Standing.Copied (s : Standing) (prog : SsaProgram) (u v : SsaValue) : Prop :=
  s.env u = s.env v ∧ (prog.Coalesces u v ∨ prog.Coalesces v u)

/-- What homes have to do for the versions that are still awaited. -/
structure Homes.Serve (homes : Homes) (m : Machine) (prog : SsaProgram) (s : Standing) : Prop where
  apart : ∀ u v h, u ≠ v → Awaits m prog u s → Awaits m prog v s → homes.home u = some h →
    homes.home v = some h → s.Copied prog u v
  across : ∀ dst func args s' v, prog.front s.point = [.call dst func args] → advance m prog s = some s' →
    Awaits m prog v s' → v ≠ dst → homes.home v ≠ some 0
  frame : ∀ v, homes.home v = some 10 → .framePtr v ∈ prog.code

/-- A call that a run comes to is one of those the scan keeps `r0` free for. -/
theorem Visiting.mem_calls (regular : Regular prog) (visiting : Visiting prog s.point)
    (calls : prog.front s.point = [.call dst func args]) : prog.flat s.point.site ∈ prog.calls := by
  obtain ⟨rest, split⟩ := front_starts prog s.point
  rw [calls] at split
  have found : (prog.insnsOf s.point.block)[s.point.index]? = some (.call dst func args) := by
    rw [← List.head?_drop, ← split]
    rfl
  have listed : (s.point.site, .call dst func args) ∈ prog.liveSites :=
    mem_liveSites.mpr ⟨regular.live _ visiting.reaches, found⟩
  exact List.mem_map.mpr ⟨_, List.mem_filter.mpr ⟨listed, rfl⟩, rfl⟩

/-- In a run of a well-formed program that is in order at all its points, the homes of an allocation serve. -/
theorem homes_serve (documented : petgraph.Documented) (produced : Produced prog) (wf : prog.WellFormed)
    (ok : allocate prog (.compute petgraph prog) = .ok homes)
    (inOrder : ∀ s, Visits m prog world s → InOrder m prog s) :
    ∀ s, Visits m prog world s → homes.Serve m prog s := by
  intro s visits
  have regular := produced.regular
  refine ⟨fun u v h ne awaitsU awaitsV left right => ?_, fun dst func args s' v calls step awaits other zero => ?_,
    fun v homed => ?_⟩
  · rcases allocate_apart ok regular.distinct ne left right with passes | passes
    · exact absurd passes (not_passes wf inOrder documented produced.laid visits awaitsU awaitsV)
    · exact absurd passes (not_passes wf inOrder documented produced.laid visits awaitsV awaitsU)
  · rcases allocate_home ok zero with (⟨clash, _⟩ | ⟨clash, _⟩) | ⟨_, available⟩
    · cases clash
    · cases clash
    · have listed := (visits.visiting regular).mem_calls regular calls
      have above := (inOrder s visits).above dst func args s' v calls step awaits other
      have below := stop_behind_call wf inOrder documented visits calls step awaits
      obtain ⟨_, _, _, _, _, definedAt, _⟩ := (visits.along (.single step)).last_defined wf awaits
      have free := available rfl
      unfold r0Available at free
      simp only [Bool.not_eq_true', List.any_eq_false] at free
      exact free _ listed (by simp [start_compute definedAt.inside, above, below])
  · rcases allocate_home ok homed with (⟨_, frame⟩ | ⟨clash, _⟩) | ⟨plain, _⟩
    · exact frame
    · cases clash
    · exact absurd rfl plain

theorem homes_serve_spilling :
    ∃ s, travel ⟨.empty, 0⟩ spillingSsa 10 (spillingSsa.start (Vm.new spilling).toWorld) = some s ∧
      s.point = ⟨some 1, 1, 2⟩ ∧
      Homes.Serve [none, some 10, some 1, some 1, some 0, some 2, some 3, some 4] ⟨.empty, 0⟩ spillingSsa s := by
  have graph : buildCfg searching spilling = .ok spillingCfg := by rfl
  have built : buildSsa spilling spillingCfg = some (.ok spillingSsa) := by decide +kernel
  have wf : spillingSsa.WellFormed := buildSsa_form searching_documented graph (fun q single => by cases single) built
  have allocated : allocate spillingSsa (.compute searching spillingSsa) =
      .ok [none, some 10, some 1, some 1, some 0, some 2, some 3, some 4] := by rfl
  have loop : ∀ pos, 4 ≤ pos → pos < 9 → spillingSsa.OnCycle pos := fun pos low high =>
    ⟨1, rfl, low, high, .single ⟨⟨1, 1, .branchTrue⟩, by decide, rfl, rfl⟩⟩
  have inOrder : ∀ s, Visits ⟨.empty, 0⟩ spillingSsa (Vm.new spilling).toWorld s →
      InOrder ⟨.empty, 0⟩ spillingSsa s := by
    intro s visits
    refine ⟨fun p v from_ _ _ _ use _ low high _ => ?_, fun dst func args s' v calls => ?_⟩
    · have comes := (visits.informed wf).comes
      rw [from_] at comes
      obtain ⟨e, listed, rfl, target, _⟩ := mem_liveSuccessors.mp comes.2
      rw [← target] at low
      have edges : spillingSsa.edges = spillingCfg.edges := rfl
      simp only [edges, spillingCfg, List.mem_cons, List.not_mem_nil, or_false] at listed
      rcases listed with rfl | rfl | rfl
      · exact absurd (low.trans_lt high) (by decide)
      · exact loop _ low high
      · exact absurd (low.trans_lt high) (by decide)
    · have among := front_subset s.point (.call dst func args) (calls ▸ List.mem_singleton.mpr rfl)
      have code : .call dst func args ∈ spillingSsa.code := SsaProgram.mem_code among
      simp [spillingSsa, SsaProgram.code] at code
  have produced : Produced spillingSsa := .built searching_documented graph built
  exact ⟨_, rfl, rfl, homes_serve searching_documented produced wf allocated inOrder _ ⟨10, rfl⟩⟩

/-- `goto 5; 1: r7 = 5; r0 = r6; r0 += r7; exit; 5: r6 = 3; goto 1`. -/
def behind : SsaProgram where
  blocks := [
    { insns := [.const 0 0, .framePtr 1, .entryCtx 2, .ja 2], live := true },
    { insns := [.binOp 4 .b64 .mov (.value 0) (.imm 5), .copy 5 3, .binOp 6 .b64 .add (.value 5) (.value 4), .exit 6]
      live := true },
    { insns := [.loadImm64 3 3, .ja 1], live := true }]
  edges := [⟨0, 2, .unconditional⟩, ⟨2, 1, .unconditional⟩]
  entry := 0
  defSites := [some (0, 0), some (0, 1), some (0, 2), some (2, 0), some (1, 0), some (1, 1), some (1, 2)]

def behindInsns : List Insn :=
  [.jump .b64 .always 0 (.imm 0) 4, .alu .b64 .mov 7 (.imm 5), .alu .b64 .mov 0 (.reg 6), .alu .b64 .add 0 (.reg 7),
    .exit, .loadImm64 6 3, .jump .b64 .always 0 (.imm 0) (-7)]

theorem behind_produced : Produced behind :=
  @Produced.built searching behindInsns
    ⟨[⟨0, 1⟩, ⟨1, 5⟩, ⟨5, 7⟩], behind.edges, 0, [0, 1, 1, 1, 1, 2, 2], [0, 1, 2, 3, 4, 5, 7], [0, 2, 1]⟩ 8 behind
    searching_documented (by rfl) (by decide +kernel)

/-- What a run has assigned once it is behind the second constant. -/
def sharing : Env :=
  Env.set (Env.set (Env.set (Env.set (Env.set (fun _ => none) 0 0) 1 stackBase) 2 0) 3 3) 4 5

/-- The first constant is defined behind its use, so the second has its home too. -/
theorem homes_shared : ¬∀ (petgraph : Petgraph) (prog : SsaProgram) (homes : Homes) (m : Machine) (world : World),
    petgraph.Documented → Produced prog → allocate prog (.compute petgraph prog) = .ok homes →
    ∀ s, Visits m prog world s → homes.Serve m prog s := by
  intro serve
  have allocated : allocate behind (.compute searching behind) =
      .ok [some 0, none, none, some 0, some 0, some 2, some 2] := rfl
  let world := (Vm.new []).toWorld
  have reached : travel ⟨.empty, 0⟩ behind 7 (behind.start world) = some ⟨⟨some 2, 1, 1⟩, sharing, world⟩ := rfl
  have first : Awaits ⟨.empty, 0⟩ behind 3 ⟨⟨some 2, 1, 1⟩, sharing, world⟩ := .read (by decide)
  have step : advance ⟨.empty, 0⟩ behind ⟨⟨some 2, 1, 1⟩, sharing, world⟩ =
      some ⟨⟨some 2, 1, 2⟩, sharing.set 5 3, world⟩ := rfl
  have second : Awaits ⟨.empty, 0⟩ behind 4 ⟨⟨some 2, 1, 1⟩, sharing, world⟩ :=
    .later step (by decide) (.read (by decide))
  have served := serve searching behind _ _ world searching_documented behind_produced allocated _ ⟨7, reached⟩
  have copied := served.apart 3 4 0 (by decide) first second rfl rfl
  exact absurd copied.1 (by decide)

end EbpfLab.Ssa
