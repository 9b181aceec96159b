import EbpfLab.Cfg.Faithful
import EbpfLab.Verifier.PostFixpoint
import EbpfLab.Vm.Trace

/-!
# States along a run

The recorded block states of an accepted program annotate every reachable instruction with an
abstract state. A property that the entry state has of the initial machine, that larger states keep
and that every checked transfer carries over one step, holds of every machine a run reaches.
-/

namespace EbpfLab.Verifier
open Isa FlowGraph Interp Library

variable {petgraph : Petgraph} {insns : List Insn} {cfg : Cfg} {config : VerifyConfig} {targets : List (Option Nat)}
  {states : Nat → Option VerifierState} {pc : Nat} {insn : Insn} {s s' : VerifierState}

/-! ### The matching machine -/

/-- What the interpreter is given to match a configuration. Without maps the helpers may be left
out. -/
structure Setup (config : VerifyConfig) where
  stores : Stores
  built : buildStores config.maps = .ok stores
  helpers : HelperRegistry
  registered : helpers = .withMapHelpers ∨ config.maps = [] ∧ helpers = .empty
  packet : Option Bytes
  packetLen : packet.map List.length = config.packetLen
  data : Option Bytes
  dataLen : data.map List.length = config.dataLen

/-- The machine before its first step. -/
def Setup.vm (setup : Setup config) (insns : List Insn) : Vm :=
  let vm : Vm := { Vm.newWithStores insns setup.stores with helpers := setup.helpers }
  let vm := match setup.packet with
    | some packet => vm.installXdpPacket packet
    | none => vm
  match setup.data with
  | some data => vm.installRodata data
  | none => vm

theorem Setup.absent : (none : Option Bytes).map List.length = none := rfl

/-- No maps, no packet and no data. -/
def Setup.bare : Setup .default where
  stores := []
  built := rfl
  helpers := .withMapHelpers
  registered := Or.inl rfl
  packet := none
  packetLen := Setup.absent
  data := none
  dataLen := Setup.absent

theorem Setup.loaded (setup : Setup config) (insns : List Insn) : (setup.vm insns).Loaded insns := by
  unfold Setup.vm
  cases setup.packet <;> cases setup.data <;> rfl

theorem Setup.pc_vm (setup : Setup config) (insns : List Insn) : (setup.vm insns).pc = 0 := by
  unfold Setup.vm
  cases setup.packet <;> cases setup.data <;> rfl

theorem Setup.helpers_vm (setup : Setup config) (insns : List Insn) :
    (setup.vm insns).helpers = setup.helpers := by
  unfold Setup.vm
  cases setup.packet <;> cases setup.data <;> rfl

/-! ### Annotated instructions -/

theorem transferFrom_append {first rest : List Insn} :
    transferFrom pc (first ++ rest) s = .ok s' ↔
      ∃ mid, transferFrom pc first s = .ok mid ∧
        transferFrom (pc + first.length) rest mid = .ok s' := by
  induction first generalizing pc s with
  | nil => simp [transferFrom]
  | cons insn first ih =>
    simp only [List.cons_append, transferFrom, bind_eq_ok, ih, List.length_cons, ← Nat.add_assoc,
      Nat.add_right_comm pc first.length 1]
    constructor
    · rintro ⟨next, moved, mid, left, right⟩
      exact ⟨mid, ⟨next, moved, left⟩, right⟩
    · rintro ⟨mid, ⟨next, moved, left⟩, right⟩
      exact ⟨next, moved, mid, left, right⟩

/-- The block state carried to the instruction at `pc`. -/
def At (insns : List Insn) (cfg : Cfg) (states : Nat → Option VerifierState) (pc : Nat)
    (s : VerifierState) : Prop :=
  ∃ block b entry, cfg.Reachable block ∧ cfg.blocks[block]? = some b ∧ states block = some entry ∧
    b.start ≤ pc ∧ pc < b.stop ∧
    transferFrom b.start ((insns.drop b.start).take (pc - b.start)) entry = .ok s

/-- Splitting a block at an instruction. -/
theorem blockInsns_split {b : BasicBlock} (lower : b.start ≤ pc) (upper : pc < b.stop)
    (fetched : insns[pc]? = some insn) :
    ∃ rest, blockInsns insns b = (insns.drop b.start).take (pc - b.start) ++ insn :: rest ∧
      (pc + 1 = b.stop → rest = []) := by
  refine ⟨(insns.drop (pc + 1)).take (b.stop - (pc + 1)), ?_, fun last => by simp [last]⟩
  have inside := (List.getElem?_eq_some_iff.mp fetched).1
  have here : (insns.drop b.start).drop (pc - b.start) = insn :: insns.drop (pc + 1) := by
    rw [List.drop_drop, show b.start + (pc - b.start) = pc by omega,
      List.drop_eq_getElem_cons inside, (List.getElem?_eq_some_iff.mp fetched).2]
  rw [blockInsns, show b.stop - b.start = (pc - b.start) + (b.stop - (pc + 1) + 1) by omega,
    List.take_add, here, List.take_succ_cons]

theorem take_succ_at {b : BasicBlock} (lower : b.start ≤ pc) (fetched : insns[pc]? = some insn) :
    (insns.drop b.start).take (pc + 1 - b.start) =
      (insns.drop b.start).take (pc - b.start) ++ [insn] := by
  rw [show pc + 1 - b.start = (pc - b.start) + 1 by omega, List.take_add_one, List.getElem?_drop,
    show b.start + (pc - b.start) = pc by omega, fetched, Option.toList_some]

theorem transferFrom_single : transferFrom pc [insn] s = checkAndTransfer pc insn s := by
  unfold transferFrom
  cases checkAndTransfer pc insn s <;> rfl

section annotated

variable (fixed : PostFixpoint insns cfg config states)
include fixed

/-- The first instruction is annotated above the entry state. -/
theorem at_entry (built : Built insns cfg targets) :
    ∃ s, At insns cfg states 0 s ∧ entryState config ≤ s := by
  obtain ⟨s, held, unchanged⟩ := fixed.entry
  obtain ⟨b, found⟩ : ∃ b, cfg.blocks[0]? = some b :=
    ⟨_, List.getElem?_eq_getElem built.blocks_pos⟩
  have first : b.start = 0 ∧ 0 < b.stop := by
    have tiles := built.tiles
    cases blocks : cfg.blocks with
    | nil => simp [blocks] at found
    | cons c rest =>
      rw [blocks] at found tiles
      cases found
      exact ⟨tiles.1, by have := tiles.2.1; omega⟩
  rw [← built.entry_eq] at found
  refine ⟨s, ⟨_, b, s, Relation.ReflTransGen.refl, found, held, by omega, first.2, ?_⟩, ?_⟩
  · simp [transferFrom]
  · exact VerifierState.le_of_unchanged RegType.right_le_join (congrArg Prod.snd unchanged)

/-- The instruction under an annotation passes its check. -/
theorem At.checked (annotated : At insns cfg states pc s) (fetched : insns[pc]? = some insn) :
    ∃ s', checkAndTransfer pc insn s = .ok s' := by
  obtain ⟨block, b, entry, reachable, found, held, lower, upper, carried⟩ := annotated
  obtain ⟨current, moved, _⟩ := fixed.closed block b entry reachable found held
  obtain ⟨rest, whole, _⟩ := blockInsns_split lower upper fetched
  rw [whole, transferFrom_append] at moved
  obtain ⟨mid, carried', moved⟩ := moved
  rw [carried, Except.ok.injEq] at carried'
  subst carried'
  have place : b.start + ((insns.drop b.start).take (pc - b.start)).length = pc := by
    have inside := (List.getElem?_eq_some_iff.mp fetched).1
    simp only [List.length_take, List.length_drop]
    omega
  rw [place] at moved
  obtain ⟨s', checked, _⟩ := bind_eq_ok.mp moved
  exact ⟨s', checked⟩

/-- A step leads from one annotated instruction to the next. -/
theorem At.step {vm vm' : Vm} (built : Built insns cfg targets)
    (annotated : At insns cfg states vm.pc s) (fetched : insns[vm.pc]? = some insn)
    (checked : checkAndTransfer vm.pc insn s = .ok s') (step : Advance insns vm insn vm')
    (inside : vm'.pc < insns.length) :
    ∃ s'', At insns cfg states vm'.pc s'' ∧
      refineEdge s' (flowKind vm.regs insn) (some insn) ≤ s'' := by
  obtain ⟨block, b, entry, reachable, found, held, lower, upper, carried⟩ := annotated
  have place : b.start + ((insns.drop b.start).take (vm.pc - b.start)).length = vm.pc := by
    have inside := (List.getElem?_eq_some_iff.mp fetched).1
    simp only [List.length_take, List.length_drop]
    omega
  have carried' : transferFrom b.start ((insns.drop b.start).take (vm.pc + 1 - b.start)) entry =
      .ok s' := by
    rw [take_succ_at lower fetched, transferFrom_append]
    exact ⟨s, carried, by rw [place, transferFrom_single, checked]⟩
  rcases built.follows fetched step inside with ⟨b', present, lower', advanced, upper'⟩ |
      ⟨e, edge, b', c, at_source, at_target, lower', last, start, kind⟩
  · -- the step stays in the block, so its instruction is no jump
    obtain ⟨i, found'⟩ := List.getElem?_of_mem present
    have same := built.tiles.block_unique found found' ⟨lower, upper⟩ ⟨lower', by omega⟩
    subst same
    rw [found, Option.some.injEq] at found'
    subst found'
    have plain : endsBlock insn = false := by
      by_contra ends
      have := built.ends_last present lower upper fetched (by simpa using ends)
      omega
    have kept : refineEdge s' (flowKind vm.regs insn) (some insn) = s' := by
      cases insn <;> first | rfl | cases plain
    rw [kept, advanced]
    exact ⟨s', ⟨block, b, entry, reachable, found, held, by omega, by omega, carried'⟩, le_refl _⟩
  · have same := built.tiles.block_unique found at_source ⟨lower, upper⟩ ⟨lower', by omega⟩
    subst same
    rw [found, Option.some.injEq] at at_source
    subst at_source
    obtain ⟨current, moved, absorbed⟩ := fixed.closed e.source b entry reachable found held
    have whole : blockInsns insns b = (insns.drop b.start).take (vm.pc + 1 - b.start) := by
      rw [blockInsns, last]
    rw [whole, carried', Except.ok.injEq] at moved
    subst moved
    obtain ⟨s'', held'', unchanged⟩ := absorbed e (Cfg.mem_outEdges.mpr ⟨edge, rfl⟩)
    have lastInsn : insns[b.stop - 1]? = some insn := by
      rw [← last]
      simpa using fetched
    obtain ⟨_, nonempty, _⟩ := built.tiles.mem (List.mem_of_getElem? at_target)
    refine ⟨s'', ⟨e.target, c, s'', reachable.tail ⟨e, edge, rfl, rfl⟩, at_target, held'',
      by omega, by omega, by simp [start, transferFrom]⟩, ?_⟩
    rw [lastInsn, kind] at unchanged
    exact VerifierState.le_of_unchanged RegType.right_le_join (congrArg Prod.snd unchanged)

/-- The invariant of a run against the annotations, by induction on its steps. -/
theorem annotated_run (built : Built insns cfg targets) {vm u : Vm} {k : Nat}
    (loaded : vm.Loaded insns) (starts : vm.pc = 0) (R : Nat → VerifierState → Vm → Prop)
    (init : R 0 (entryState config) vm)
    (mono : ∀ k s s' u, s ≤ s' → R k s u → R k s' u)
    (preserves : ∀ k s s' u u' insn, vm.after k = some u → At insns cfg states u.pc s → R k s u →
      insns[u.pc]? = some insn → checkAndTransfer u.pc insn s = .ok s' → Advance insns u insn u' →
      R (k + 1) (refineEdge s' (flowKind u.regs insn) (some insn)) u')
    (reached : vm.after k = some u) (inside : u.pc < insns.length) :
    ∃ s, At insns cfg states u.pc s ∧ R k s u := by
  induction k generalizing u with
  | zero =>
    cases reached
    obtain ⟨s, annotated, above⟩ := at_entry fixed built
    exact ⟨s, starts ▸ annotated, mono _ _ _ _ above init⟩
  | succ k ih =>
    obtain ⟨before, reached', stepped⟩ := Vm.after_succ_eq_some.mp reached
    have frame := Vm.after_frame loaded built.small reached'
    obtain ⟨insn, fetched, step⟩ := (step_cont_iff frame.1 built.small).mp stepped
    obtain ⟨s, annotated, held⟩ := ih reached' (List.getElem?_eq_some_iff.mp fetched).1
    obtain ⟨s', checked⟩ := annotated.checked fixed fetched
    obtain ⟨s'', annotated', above⟩ := annotated.step fixed built fetched checked step inside
    exact ⟨s'', annotated', mono _ _ _ _ above
      (preserves k s s' before u insn reached' annotated held fetched checked step)⟩

end annotated

/-- An accepted program has annotations. -/
theorem Accepts.postFixpoint (ordered : Ordered insns cfg targets) (accepts : Accepts petgraph insns cfg config) :
    ∃ states, PostFixpoint insns cfg config states := by
  obtain ⟨fuel, report, accepted⟩ := accepts
  obtain ⟨outcome, drained, accepted⟩ := Option.map_eq_some_iff.mp accepted
  obtain ⟨w, rfl, _⟩ := bind_eq_ok.mp accepted
  obtain ⟨sound, empty⟩ := (sound_seed ordered config).drained ordered.toBuilt fuel drained
  exact ⟨w.stateAt, sound.postFixpoint ordered.toBuilt empty⟩

end EbpfLab.Verifier
