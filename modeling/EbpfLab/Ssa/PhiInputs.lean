import EbpfLab.Ssa.Assembled

/-!
# Inputs of phis

The construction returns, and then every phi of a reachable block has one input for each edge into its block
and the start input where there is one. An input is the version its predecessor ends with: the one that the
rendering of its instructions defined last for the register, or one that the block was entered with.
-/

namespace EbpfLab.Ssa
open Isa FlowGraph Builder

variable {petgraph : Petgraph}
  {insns : List Insn} {cfg : Cfg} {b : Builder} {p fuel : Nat} {regOf : SsaValue → Reg} {own : Owned}

/-- The versions of a block and its instructions: the body renders them, `own` is what it defined last for each
register, and the version the block ends with is that one, or else an inbound one. -/
structure Versions (insns : List Insn) (cfg : Cfg) (regOf : SsaValue → Reg) (own : Owned) (b : Builder) (p : Nat) :
    Prop where
  code : RendersAll cfg p regOf b.next (Inbound cfg regOf own b p) (fun _ => none) (codeOf insns cfg p)
    (b.bodies.getD p []) (own p)
  defined : ∀ reg v, own p reg = some v → b.current p reg = some v
  inbound : ∀ reg v, b.current p reg = some v → own p reg = none → Inbound cfg regOf own b p reg v

/-- The inputs of a phi of the program: one for each edge into its block, and the entry version where
the program starts in a block that is jumped back to. Each is the last version of its block, or where
that block defines none and has one predecessor, a phi of it for the register. -/
structure PhiInputs (cfg : Cfg) (regOf : SsaValue → Reg) (own : Owned) (b : Builder) (prog : SsaProgram) (node : Nat)
    (dst : SsaValue) (inputs : List (Pred × SsaValue)) : Prop where
  edges : inputs.map Prod.fst =
    (if node = cfg.entry ∧ entryLoop cfg then [none] else []) ++ (cfg.preds node).map some
  start : ∀ v, (none, v) ∈ inputs → v = (Builder.new cfg).entryEnv (regOf dst)
  versions : ∀ p v, (some p, v) ∈ inputs → cfg.Reaches p →
    own p (regOf dst) = some v ∨ own p (regOf dst) = none ∧ (b.current p (regOf dst) = some v ∨
      (∃ q, cfg.preds p = [q]) ∧ regOf v = regOf dst ∧ ∃ others, .phi v others ∈ prog.insnsOf p)

theorem Builder.Constructed.versions (constructed : Constructed insns cfg regOf own b) (reached : cfg.Reaches p) :
    Versions insns cfg regOf own b p := by
  obtain ⟨inside, full⟩ := constructed.settled p reached
  refine ⟨?_, fun reg v owns => (constructed.owned p reg v owns).1, constructed.current p⟩
  have rendering := constructed.bodies p
  rwa [filledCode, if_pos full.filled] at rendering

/-- What stands among the rendered instructions or before the phis is no phi. -/
theorem Builder.Parts.phi_mem {phis body : List SsaInsn} {dst : SsaValue} {inputs : List (Pred × SsaValue)}
    (parts : Parts insns cfg regOf own b p phis body) (present : .phi dst inputs ∈ pseudo cfg p ++ phis ++ body) :
    .phi dst inputs ∈ phis := by
  rcases List.mem_append.mp present with before | inBody
  · refine (List.mem_append.mp before).resolve_left fun early => ?_
    unfold pseudo at early
    split at early <;> simp at early
  · cases parts.code.plain _ inBody

theorem Builder.Constructed.phiInputs (constructed : Constructed insns cfg regOf own b) (reached : cfg.Reaches p)
    {dst : SsaValue} {inputs : List (Pred × SsaValue)} (present : .phi dst inputs ∈ (b.repair.finish cfg).insnsOf p) :
    PhiInputs cfg regOf own b (b.repair.finish cfg) p dst inputs := by
  have assembled := constructed.assembled
  obtain ⟨phis, body, live, found, parts⟩ := assembled.blocks p reached
  rw [SsaProgram.insnsOf_eq found] at present
  have among := parts.phi_mem present
  refine ⟨parts.edges dst inputs among, fun v input => parts.starts dst inputs v among input, fun q v input before => ?_⟩
  have full := (constructed.reached q).mpr before
  -- what the predecessor sends out, and where it has it from
  refine (parts.sends dst inputs q v among input full).2.imp id fun inbound => ⟨inbound.1, ?_⟩
  refine (parts.supplies dst inputs q v among input full).imp id fun ⟨single, named, k, before', there⟩ =>
    ⟨single, named, ?_⟩
  obtain ⟨phis', body', live', found', parts'⟩ := assembled.blocks q before
  obtain ⟨others, stands⟩ := parts'.stands k v before' there
  refine ⟨others, ?_⟩
  rw [SsaProgram.insnsOf_eq found']
  exact List.mem_append_left _ (List.mem_append_right _ stands)

/-- The inputs of every phi of a built program, whose versions are counted without the bound of `u32`. -/
theorem buildSsa_inputs (documented : petgraph.Documented) (graph : buildCfg petgraph insns = .ok cfg)
    (enough : 2 * cfg.blocks.length < fuel) :
    ∃ result, buildSsaWith fuel insns cfg = some result ∧ ∀ prog, result = .ok prog →
      ∃ b regOf own, visitAll cfg fuel insns ((Builder.new cfg).prelude cfg) cfg.rpo = some (.ok b) ∧
        prog = b.repair.finish cfg ∧ (∀ p, cfg.Reaches p → Versions insns cfg regOf own b p) ∧
        ∀ node, cfg.Reaches node → ∀ dst inputs, .phi dst inputs ∈ prog.insnsOf node →
          PhiInputs cfg regOf own b prog node dst inputs := by
  obtain ⟨result, ran, ends⟩ := buildSsaWith_constructed documented graph enough
  refine ⟨result, ran, fun prog same => ?_⟩
  obtain ⟨b, regOf, own, visited, rfl, constructed⟩ := ends prog same
  exact ⟨b, regOf, own, visited, rfl, fun p => constructed.versions,
    fun node reached dst inputs => constructed.phiInputs reached⟩

/-- `if r1 != 0 goto +1; goto -2; r0 = r5; exit`. -/
def spinning : SsaProgram where
  blocks := [
    { insns := [.const 0 0, .framePtr 1, .entryCtx 2, .phi 3 [(none, 2), (some 1, 4)],
        .phi 5 [(none, 0), (some 1, 6)], .br .b64 .ne (.value 3) (.imm 0) (some 2) (some 1)]
      live := true },
    { insns := [.phi 4 [(some 0, 3)], .phi 6 [(some 0, 5)], .ja 0], live := true },
    { insns := [.copy 7 5, .exit 7], live := true }]
  edges := [⟨0, 2, .branchTrue⟩, ⟨0, 1, .branchFalse⟩, ⟨1, 0, .unconditional⟩]
  entry := 0
  defSites := [some (0, 0), some (0, 1), some (0, 2), some (0, 3), some (1, 0), some (0, 4), some (1, 1), some (2, 0)]

def spinningInsns : List Insn :=
  [.jump .b64 .ne 1 (.imm 0) 1, .jump .b64 .always 0 (.imm 0) (-2), .alu .b64 .mov 0 (.reg 5), .exit]

def spinningCfg : Cfg where
  blocks := [⟨0, 1⟩, ⟨1, 2⟩, ⟨2, 4⟩]
  edges := spinning.edges
  entry := 0
  blockOfPc := [0, 1, 2, 2]
  slotOf := [0, 1, 2, 3]
  rpo := [0, 1, 2]

theorem buildSsa_inputs_spinning :
    ∃ b regOf own, visitAll spinningCfg 8 spinningInsns ((Builder.new spinningCfg).prelude spinningCfg) [0, 1, 2] =
        some (.ok b) ∧ spinning = b.repair.finish spinningCfg ∧
      Versions spinningInsns spinningCfg regOf own b 2 ∧
      PhiInputs spinningCfg regOf own b spinning 0 5 [(none, 0), (some 1, 6)] := by
  have graph : buildCfg searching spinningInsns = .ok spinningCfg := by rfl
  have built : buildSsaWith 8 spinningInsns spinningCfg = some (.ok spinning) := by decide +kernel
  obtain ⟨result, ran, ends⟩ := buildSsa_inputs searching_documented graph (by decide : 2 * spinningCfg.blocks.length < 8)
  rw [built] at ran
  cases ran
  obtain ⟨b, regOf, own, visited, finished, versions, inputs⟩ := ends spinning rfl
  exact ⟨b, regOf, own, visited, finished, versions 2 (Library.Reached.root.step (by decide)),
    inputs 0 .root 5 _ (by decide)⟩

/-- The last version of `r5` in the second block is the phi of the first, but the first takes it from a
phi of its own: its resolution was entered again while it was in flight. -/
theorem input_not_final :
    ¬∀ (petgraph : Petgraph) (insns : List Insn) (cfg : Cfg) (fuel : Nat) (prog : SsaProgram) (b : Builder),
      petgraph.Documented → buildCfg petgraph insns = .ok cfg → buildSsaWith fuel insns cfg = some (.ok prog) →
      visitAll cfg fuel insns ((Builder.new cfg).prelude cfg) cfg.rpo = some (.ok b) →
      ∀ node, cfg.Reaches node → ∀ dst inputs, .phi dst inputs ∈ prog.insnsOf node →
        ∃ reg, ∀ p v, (some p, v) ∈ inputs → cfg.Reaches p → b.current p reg = some v := by
  intro final
  have built : buildSsaWith 8 spinningInsns spinningCfg = some (.ok spinning) := by decide +kernel
  have never : (visitAll spinningCfg 8 spinningInsns ((Builder.new spinningCfg).prelude spinningCfg)
      spinningCfg.rpo).any (fun result =>
        result.toOption.any fun b => decide (∀ reg, b.current 1 reg ≠ some 6)) = true := by decide +kernel
  obtain ⟨result, visited, never⟩ := (Option.any_eq_true _ _).mp never
  cases result with
  | error e => cases never
  | ok b =>
    have absent : ∀ reg, b.current 1 reg ≠ some 6 := of_decide_eq_true never
    have second : spinningCfg.Reaches 1 := Library.Reached.root.step (by decide)
    obtain ⟨reg, last⟩ := final searching spinningInsns spinningCfg 8 spinning b searching_documented rfl built visited
      0 .root 5 [(none, 0), (some 1, 6)] (by decide)
    exact absent reg (last 1 6 (by decide) second)

end EbpfLab.Ssa
