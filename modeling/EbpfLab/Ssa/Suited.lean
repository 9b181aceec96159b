import EbpfLab.Ssa.CallCode
import EbpfLab.Ssa.EdgeMoves
import Mathlib.Data.List.DropRight

/-!
# Homes that suit a run

What lowered code relies on at a point of a run. A version is needed where the code still reads its home: an
input of a phi is read where its edge is taken, and what a pseudo stands for is at home from the start. The moves of
an edge bring the inputs to the homes of its phis.
-/

namespace EbpfLab.Ssa
open Isa FlowGraph Library Interp

variable {petgraph : Petgraph}
  {prog : SsaProgram} {lower : Lower} {m : Machine} {s s' : Standing} {block p t i : Nat} {insn : SsaInsn}
  {u v w dst : SsaValue} {h r : Reg} {env env' : Env} {regs regs' : Regs} {src : MoveSrc} {x : Int64} {pred : Pred}
  {ends middle : List PlacedMove} {cycle cycle' : SsaError} {pre rest : List SsaInsn} {world : World}

/-! ### What the code reads -/

namespace SsaProgram

variable (prog : SsaProgram)

/-- The versions whose homes the code reads at a point. At the start of a run phis read where they stand, and
elsewhere where their block is entered. -/
def wants (p : Point) : List SsaValue :=
  match p.pred with
  | none => prog.reads p
  | some _ =>
    (if p.index = 0 then ((prog.insnsOf p.block).filter SsaInsn.isPhi).flatMap (SsaInsn.readsFrom p.pred) else []) ++
      ((prog.front p).filter fun i => !i.isPhi).flatMap SsaInsn.uses

/-- The versions that are computed at a point. -/
def computes (p : Point) : List SsaValue := defs ((prog.front p).filter fun i => !i.isPseudo)

/-- Where a block is behind its phis. -/
def bodyStart (block : Nat) : Nat := ((prog.insnsOf block).rdropWhile fun i => !i.isPhi).length

/-- The value of a version, which that of a pseudo is all along. -/
def valueIn (m : Machine) (env : Env) (v : SsaValue) : Option Int64 :=
  if .framePtr v ∈ prog.code then some stackBase else if .entryCtx v ∈ prog.code then some m.ctx else env v

end SsaProgram

/-- The code will read the home of the version before the version is computed again. -/
inductive Needs (m : Machine) (prog : SsaProgram) (v : SsaValue) : Standing → Prop where
  | read {s : Standing} (here : v ∈ prog.wants s.point) : Needs m prog v s
  | later {s s' : Standing} (next : advance m prog s = some s') (kept : v ∉ prog.computes s.point)
      (needs : Needs m prog v s') : Needs m prog v s

/-- The homes of the needed versions hold their values. -/
def Agrees (lower : Lower) (m : Machine) (prog : SsaProgram) (needs : SsaValue → Prop) (env : Env) (regs : Regs) : Prop :=
  ∀ v h x, needs v → lower.homeOf v = some h → prog.valueIn m env v = some x → regs h = x

/-! ### Carried over an edge -/

namespace Lower

variable (lower : Lower)

/-- The moves of the trampoline of an edge. -/
def trampMoves (p t : Nat) : List PlacedMove :=
  (((lower.trampIndex p t).bind fun i => lower.tramps[i]?).map Trampoline.moves).getD []

/-- Whatever is moved to the register on the edge comes from one source, which the moves before leave alone. -/
structure Carries (p t : Nat) (h : Reg) (src : MoveSrc) : Prop where
  ends : ∀ m ∈ lower.endMoves.getD p [], m.dst = h → m.src = src
  middle : ∀ m ∈ lower.trampMoves p t, m.dst = h → m.src = src ∧ ∀ r, src = .reg r → Spares (lower.endMoves.getD p []) r

end Lower

/-- The homes suit what a run does at a point. -/
structure Suits (lower : Lower) (m : Machine) (prog : SsaProgram) (s : Standing) : Prop where
  fits : ∀ insn v h, prog.front s.point = [insn] → insn.isData = true → insn.defDst = some v →
    lower.homeOf v = some h → DataFits lower h insn
  apart : ∀ insn s' u v h, prog.front s.point = [insn] → insn.isPhi = false → insn.isPseudo = false →
    SsaProgram.isCall insn = false → advance m prog s = some s' → insn.defDst = some v → lower.homeOf v = some h →
    (s.point.pred = none ∨ prog.bodyStart s.point.block ≤ s.point.index) → u ≠ v → Needs m prog u s' →
    lower.homeOf u = some h → prog.valueIn m s'.env u = s'.env v
  inPlace : ∀ dst func args h i, prog.front s.point = [.call dst func args] →
    (lower.argHomes args.toList)[i]? = some h → h = convention i →
    ∀ d, (d, h) ∉ lower.savedTo (lower.argHomes args.toList) (prog.flat s.point.site)
  result : ∀ dst func args h, prog.front s.point = [.call dst func args] → lower.homeOf dst = some h →
    h ∉ lower.endangered (lower.argHomes args.toList) (prog.flat s.point.site)
  across : ∀ dst func args s' v h, prog.front s.point = [.call dst func args] → advance m prog s = some s' →
    Needs m prog v s' → v ≠ dst → lower.homeOf v = some h →
    lower.Keeps (lower.argHomes args.toList) (prog.flat s.point.site) dst h

/-! ### Edges -/

theorem Lower.Carries.run (carries : lower.Carries p t h src) (moved : src = .reg h ∨ lower.OnEdge p t ⟨h, src⟩)
    (first : orderMoves (lower.endMoves.getD p []) cycle = .ok ends)
    (second : orderMoves (lower.trampMoves p t) cycle' = .ok middle) (regs : Regs) :
    runMoves MoveSrc.eval middle (runMoves MoveSrc.eval ends regs) h = src.eval regs := by
  by_cases late : ∃ m ∈ lower.trampMoves p t, m.dst = h
  · obtain ⟨m, present, taken⟩ := late
    rw [orderMoves_takes second (fun m among taken => (carries.middle m among taken).1) ⟨m, present, taken⟩]
    refine eval_depends _ _ _ fun r read => ?_
    exact orderMoves_spares first ((carries.middle m present taken).2 r (reads_eq_some.mp read))
  · rw [orderMoves_spares second fun m present taken => absurd ⟨m, present, taken⟩ late]
    rcases moved with rfl | early | ⟨i, tramp, found, there, present⟩
    · exact orderMoves_spares first carries.ends
    · exact orderMoves_takes first carries.ends ⟨⟨h, src⟩, early, rfl⟩
    · refine absurd ⟨⟨h, src⟩, ?_, rfl⟩ late
      rw [Lower.trampMoves, found, Option.bind_some, there]
      exact present

/-- The moves on an edge bring each phi its input, and leave the other homes, where nothing else is moved in between. -/
theorem prepare_brings (produced : Produced prog) (ok : prepare petgraph prog = .ok lower) (alive : lower.isLive t = true)
    (from_ : lower.isLive p = true) (first : orderMoves (lower.endMoves.getD p []) .phiCycle = .ok ends)
    (second : orderMoves (lower.trampMoves p t) .phiCycle = .ok middle) (regs : Regs) :
    (∀ inputs, .phi v inputs ∈ prog.insnsOf t → (some p, w) ∈ inputs → lower.homeOf v = some h →
      ∃ src, lower.moveSrc w = .ok src ∧ (lower.Carries p t h src →
        runMoves MoveSrc.eval middle (runMoves MoveSrc.eval ends regs) h = lower.valueOf regs w)) ∧
    (lower.Carries p t r (.reg r) → runMoves MoveSrc.eval middle (runMoves MoveSrc.eval ends regs) r = regs r) := by
  refine ⟨fun inputs phi input homed => ?_, fun carries => carries.run (.inl rfl) first second regs⟩
  obtain ⟨src, located, moved⟩ := (prepare_filed produced.regular ok).2 t v inputs _ h alive phi input homed from_
  exact ⟨src, located, fun carries => (carries.run (.inr moved) first second regs).trans (moveSrc_eval located)⟩

/-- `r0 = 7 ll; r1 += 1; if r1 != 0 goto -2; exit`. -/
def stepping : SsaProgram where
  blocks := [
    { insns := [.const 0 0, .framePtr 1, .entryCtx 2, .loadImm64 3 7], live := true },
    { insns := [.phi 4 [(some 1, 5), (some 0, 2)], .phi 6 [(some 1, 6), (some 0, 3)],
        .binOp 5 .b64 .add (.value 4) (.imm 1), .br .b64 .ne (.value 5) (.imm 0) (some 1) (some 2)]
      live := true },
    { insns := [.exit 6], live := true }]
  edges := [⟨0, 1, .fallthrough⟩, ⟨1, 1, .branchTrue⟩, ⟨1, 2, .branchFalse⟩]
  entry := 0
  defSites := [some (0, 0), some (0, 1), some (0, 2), some (0, 3), some (1, 0), some (1, 2), some (1, 1)]

theorem stepping_produced : Produced stepping :=
  @Produced.built searching [.loadImm64 0 7, .alu .b64 .add 1 (.imm 1), .jump .b64 .ne 1 (.imm 0) (-2), .exit]
    ⟨[⟨0, 1⟩, ⟨1, 3⟩, ⟨3, 4⟩], [⟨0, 1, .fallthrough⟩, ⟨1, 1, .branchTrue⟩, ⟨1, 2, .branchFalse⟩], 0,
      [0, 1, 1, 2], [0, 2, 3, 4], [0, 1, 2]⟩ 8 stepping searching_documented (by rfl) (by decide +kernel)

/-- What collecting the moves of `stepping` leaves. -/
def steppingLower : Lower :=
  { Lower.new stepping [none, none, some 1, some 0, some 2, some 4, some 3] (.compute searching stepping) with
    endMoves := [[⟨2, .reg 1⟩, ⟨3, .reg 0⟩], [], []]
    tramps := [⟨[⟨2, .reg 4⟩, ⟨3, .reg 3⟩], 1⟩]
    trampOf := [((1, 1), 0)] }

/-- The phi of the counter is brought its input at the end of the first block, and on the trampoline of the loop. -/
theorem prepare_brings_stepping : prepare searching stepping = .ok steppingLower ∧ ∀ regs : Regs,
    runMoves MoveSrc.eval [] (runMoves MoveSrc.eval [⟨2, .reg 1⟩, ⟨3, .reg 0⟩] regs) 2 = steppingLower.valueOf regs 2 ∧
    runMoves MoveSrc.eval [⟨2, .reg 4⟩] (runMoves MoveSrc.eval [] regs) 2 = steppingLower.valueOf regs 5 := by
  have ok : prepare searching stepping = .ok steppingLower := by rfl
  have nothing : steppingLower.trampMoves 0 1 = [] := by rfl
  have entering : steppingLower.Carries 0 1 2 (.reg 1) :=
    ⟨by decide, fun move present => absurd (nothing ▸ present) List.not_mem_nil⟩
  have looping : steppingLower.Carries 1 1 2 (.reg 4) :=
    ⟨fun move present => absurd present List.not_mem_nil,
      fun move present taken => ⟨by revert move; decide, fun r _ move present => absurd present List.not_mem_nil⟩⟩
  refine ⟨ok, fun regs => ⟨?_, ?_⟩⟩
  · obtain ⟨src, located, brings⟩ := (@prepare_brings searching stepping steppingLower 0 1 4 2 2 2 _ _ stepping_produced ok
      (by rfl) (by rfl) (by rfl) (by rfl) regs).1 [(some 1, 5), (some 0, 2)] (by decide) (by decide) (by rfl)
    cases (show Except.ok (.reg 1) = Except.ok src from located)
    exact brings entering
  · obtain ⟨src, located, brings⟩ := (@prepare_brings searching stepping steppingLower 1 1 4 5 2 2 _ _ stepping_produced ok
      (by rfl) (by rfl) (by rfl) (by rfl) regs).1 [(some 1, 5), (some 0, 2)] (by decide) (by decide) (by rfl)
    cases (show Except.ok (.reg 4) = Except.ok src from located)
    exact brings looping

/-! ### Values -/

theorem valueIn_congr (prog : SsaProgram) (m : Machine) (env env' : Env) (same : env v = env' v) :
    prog.valueIn m env v = prog.valueIn m env' v := by
  unfold SsaProgram.valueIn
  rw [same]

end EbpfLab.Ssa
