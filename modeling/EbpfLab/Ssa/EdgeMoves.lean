import EbpfLab.Ssa.Fixups
import EbpfLab.Ssa.MoveOrder
import EbpfLab.Ssa.Pins
import EbpfLab.Ssa.Reads

/-!
# Moves of edges

Every phi input is moved on its edge: at the end of the predecessor, or in the trampoline of the edge. What a
register holds behind such moves is told register by register, since moves of one end may be for several edges.
-/

namespace EbpfLab.Ssa
open Isa FlowGraph Library Interp

variable {petgraph : Petgraph}
  {prog : SsaProgram} {lower lower' : Lower} {block pred p t i : Nat} {insn : SsaInsn} {v w dst : SsaValue}
  {home r : Reg} {m placed : PlacedMove} {moves order : List PlacedMove} {cycle : SsaError} {src : MoveSrc} {regs : Regs}
  {inputs : List (Pred × SsaValue)} {input : Pred × SsaValue} {tramp : Trampoline}

/-! ### One register -/

/-- The moves leave the register alone, or copy it to itself. -/
def Spares (moves : List PlacedMove) (r : Reg) : Prop := ∀ m ∈ moves, m.dst = r → m.src = .reg r

theorem orderMoves_takes (ordered : orderMoves moves cycle = .ok order) (only : ∀ m ∈ moves, m.dst = r → m.src = src)
    (moved : ∃ m ∈ moves, m.dst = r) : runMoves MoveSrc.eval order regs r = src.eval regs := by
  have sequenced := orderMoves_sequenced ordered
  obtain ⟨m, present, rfl⟩ := moved
  have source := only m present rfl
  by_cases same : sameHome m = true
  · have own : src = .reg m.dst := source.symm.trans (beq_iff_eq.mp same)
    rw [runMoves_of_not_mem, own]
    · rfl
    · intro other left taken
      obtain ⟨among, moves_⟩ := List.mem_filter.mp (sequenced.subset left)
      have elided : sameHome other = true := beq_iff_eq.mpr (by rw [only other among taken, own, taken])
      simp [elided] at moves_
  · refine sequenced.run_of_mem eval_depends (fun other left taken => ?_)
      ⟨m, List.mem_filter.mpr ⟨present, by simpa using same⟩, rfl⟩
    exact only other (List.mem_filter.mp left).1 taken

theorem orderMoves_spares (ordered : orderMoves moves cycle = .ok order) (spares : Spares moves r) :
    runMoves MoveSrc.eval order regs r = regs r := by
  by_cases moved : ∃ m ∈ moves, m.dst = r
  · exact orderMoves_takes ordered spares moved
  · exact runMoves_of_not_mem fun m present taken =>
      moved ⟨m, (List.mem_filter.mp ((orderMoves_sequenced ordered).subset present)).1, taken⟩

/-! ### Where moves are placed -/

namespace Lower

/-- The move is made on the edge. -/
def OnEdge (lower : Lower) (p t : Nat) (m : PlacedMove) : Prop :=
  m ∈ lower.endMoves.getD p [] ∨
    ∃ i tramp, lower.trampIndex p t = some i ∧ lower.tramps[i]? = some tramp ∧ m ∈ tramp.moves

/-- What is true while moves are placed: trampolines stand where they are recorded, and no move is to `r10`. -/
structure Filed (petgraph : Petgraph) (prog : SsaProgram) (lower : Lower) : Prop extends Prepared petgraph prog lower where
  rows : lower.endMoves.length = prog.blocks.length
  count : lower.trampOf.length = lower.tramps.length
  place : ∀ (i : Nat) (key : Nat × Nat) (j : Nat), lower.trampOf[i]? = some (key, j) → j = i
  target : ∀ (i : Nat) (key : Nat × Nat) (j : Nat) (tramp : Trampoline), lower.trampOf[i]? = some (key, j) →
    lower.tramps[i]? = some tramp → tramp.target = key.2
  ends : ∀ p, ∀ m ∈ lower.endMoves.getD p [], m.dst ≠ 10
  middle : ∀ tramp ∈ lower.tramps, ∀ m ∈ tramp.moves, m.dst ≠ 10

/-- The recorded trampoline of an edge leads to its target. -/
theorem Filed.found (filed : lower.Filed petgraph prog) (found : lower.trampIndex p t = some i) :
    ∃ tramp, lower.tramps[i]? = some tramp ∧ tramp.target = t := by
  obtain ⟨⟨key, j⟩, recorded, rfl⟩ := Option.map_eq_some_iff.mp found
  obtain ⟨k, there⟩ := List.mem_iff_getElem?.mp (List.mem_of_find?_eq_some recorded)
  have same : key = (p, t) := by simpa using List.find?_some recorded
  obtain rfl := filed.place k key j there
  obtain ⟨inside, _⟩ := List.getElem?_eq_some_iff.mp there
  have stands := List.getElem?_eq_getElem (filed.count ▸ inside)
  exact ⟨_, stands, by rw [filed.target j key j _ there stands, same]⟩

/-- A trampoline given a further move keeps its target and its moves. -/
theorem getElem?_moved {tramps : List Trampoline} {j : Nat} (there : tramps[j]? = some tramp) :
    ∃ tramp' : Trampoline, (tramps.modify i fun t => { t with moves := t.moves ++ [placed] })[j]? = some tramp' ∧
      tramp'.target = tramp.target ∧ tramp.moves ⊆ tramp'.moves := by
  rw [List.getElem?_modify, there]
  refine ⟨_, rfl, ?_⟩
  dsimp only
  split
  · exact ⟨rfl, List.subset_append_left _ _⟩
  · exact ⟨rfl, List.Subset.refl _⟩

/-- The moves of the trampolines given a further move are theirs and that one. -/
theorem of_mem_moved {tramps : List Trampoline} (m : PlacedMove)
    (among : tramp ∈ tramps.modify i fun t => { t with moves := t.moves ++ [placed] }) (present : m ∈ tramp.moves) :
    (∃ old ∈ tramps, m ∈ old.moves) ∨ m = placed := by
  obtain ⟨j, there⟩ := List.mem_iff_getElem?.mp among
  rw [List.getElem?_modify] at there
  obtain ⟨old, before, same⟩ := Option.map_eq_some_iff.mp there
  have listed := List.mem_of_getElem? before
  split at same
  · subst same
    exact (List.mem_append.mp present).imp (fun early => ⟨old, listed, early⟩) List.mem_singleton.mp
  · subst same
    exact Or.inl ⟨old, listed, present⟩

/-- What is recorded once a trampoline is added was recorded before, or is the new trampoline's edge. -/
theorem Filed.recorded_snoc (filed : lower.Filed petgraph prog) {j k : Nat} {key key' : Nat × Nat}
    (there : (lower.trampOf ++ [(key', lower.tramps.length)])[j]? = some (key, k)) :
    lower.trampOf[j]? = some (key, k) ∨ j = lower.tramps.length ∧ key = key' ∧ k = lower.tramps.length := by
  rcases Nat.lt_or_ge j lower.trampOf.length with early | late
  · exact Or.inl (by rwa [List.getElem?_append_left early] at there)
  · have inside := (List.getElem?_eq_some_iff.mp there).1
    rw [List.length_append, List.length_singleton] at inside
    obtain rfl : j = lower.trampOf.length := by omega
    rw [List.getElem?_concat_length] at there
    cases there
    exact Or.inr ⟨filed.count, rfl, rfl⟩

theorem Filed.pushTramp (filed : lower.Filed petgraph prog) (plain : placed.dst ≠ 10) :
    (lower.pushTramp pred block placed).Filed petgraph prog := by
  have prepared : Prepared petgraph prog (lower.pushTramp pred block placed) := filed.toPrepared.pushTramp
  unfold Lower.pushTramp at prepared ⊢
  cases found : lower.trampIndex pred block with
  | some i =>
    rw [found] at prepared
    dsimp only at prepared ⊢
    refine { prepared with
      rows := filed.rows
      count := filed.count.trans (by rw [List.length_modify])
      place := filed.place
      target := fun j key k tramp there stands => ?_
      ends := filed.ends
      middle := fun tramp among m present => ?_ }
    · obtain ⟨inside, _⟩ := List.getElem?_eq_some_iff.mp there
      have old := List.getElem?_eq_getElem (filed.count ▸ inside)
      obtain ⟨new, stands', same, _⟩ := getElem?_moved old
      obtain rfl := Option.some.inj (stands'.symm.trans stands)
      exact same.trans (filed.target j key k _ there old)
    · rcases of_mem_moved m among present with ⟨old, listed, early⟩ | rfl
      · exact filed.middle old listed m early
      · exact plain
  | none =>
    rw [found] at prepared
    dsimp only at prepared ⊢
    refine { prepared with
      rows := filed.rows
      count := by rw [List.length_append, List.length_append, filed.count]; rfl
      place := fun j key k there => ?_
      target := fun j key k tramp there stands => ?_
      ends := filed.ends
      middle := fun tramp among m present => ?_ }
    · rcases filed.recorded_snoc there with old | ⟨rfl, _, same⟩
      · exact filed.place j key k old
      · exact same
    · rcases filed.recorded_snoc there with old | ⟨rfl, rfl, _⟩
      · obtain ⟨inside, _⟩ := List.getElem?_eq_some_iff.mp old
        rw [List.getElem?_append_left (filed.count ▸ inside)] at stands
        exact filed.target j key k tramp old stands
      · rw [List.getElem?_concat_length] at stands
        cases stands
        rfl
    · rcases List.mem_append.mp among with old | new
      · exact filed.middle tramp old m present
      · rw [List.mem_singleton.mp new] at present
        exact List.mem_singleton.mp present ▸ plain

/-- The moves made before are made where they were. -/
theorem OnEdge.pushTramp (made : lower.OnEdge p t m) : (lower.pushTramp pred block placed).OnEdge p t m := by
  unfold Lower.pushTramp
  cases found : lower.trampIndex pred block with
  | some i =>
    refine made.imp id fun ⟨j, old, recorded, there, present⟩ => ?_
    obtain ⟨new, there', _, more⟩ := getElem?_moved there
    exact ⟨j, new, recorded, there', more present⟩
  | none =>
    refine made.imp id fun ⟨j, old, known, there, present⟩ => ?_
    obtain ⟨entry, first, same⟩ := Option.map_eq_some_iff.mp known
    refine ⟨j, old, ?_, ?_, present⟩
    · unfold Lower.trampIndex
      rw [List.find?_append, first]
      exact congrArg some same
    · rw [List.getElem?_append_left (List.getElem?_eq_some_iff.mp there).1, there]

/-- The move is made on the edge it is placed for. -/
theorem Filed.onEdge_pushTramp (filed : lower.Filed petgraph prog) :
    (lower.pushTramp pred block placed).OnEdge pred block placed := by
  unfold Lower.pushTramp
  cases found : lower.trampIndex pred block with
  | some i =>
    obtain ⟨tramp, stands, _⟩ := filed.found found
    refine Or.inr ⟨i, { tramp with moves := tramp.moves ++ [placed] }, found, ?_, ?_⟩
    · rw [List.getElem?_modify, stands]
      exact congrArg some (if_pos rfl)
    · exact List.mem_append_right _ List.mem_cons_self
  | none =>
    refine Or.inr ⟨lower.tramps.length, ⟨[placed], block⟩, ?_, List.getElem?_concat_length, List.mem_singleton.mpr rfl⟩
    have absent : lower.trampOf.find? (fun entry => entry.1 == (pred, block)) = none := by
      unfold Lower.trampIndex at found
      exact Option.map_eq_none_iff.mp found
    unfold Lower.trampIndex
    dsimp only
    rw [List.find?_append, absent]
    simp

theorem Filed.pushEnd (filed : lower.Filed petgraph prog) (plain : placed.dst ≠ 10) (inside : pred < prog.blocks.length) :
    (lower.pushEnd pred placed).Filed petgraph prog ∧
      (∀ p t m, lower.OnEdge p t m → (lower.pushEnd pred placed).OnEdge p t m) ∧
      (lower.pushEnd pred placed).OnEdge pred block placed := by
  have rows : ∀ p, (lower.pushEnd pred placed).endMoves.getD p [] =
      if p = pred then lower.endMoves.getD pred [] ++ [placed] else lower.endMoves.getD p [] :=
    fun p => Builder.getD_modify (filed.rows.symm ▸ inside)
  have prepared := filed.toPrepared
  refine ⟨⟨⟨prepared.prog_eq, prepared.allocated, prepared.ranges, prepared.live, prepared.layout⟩,
    (List.length_modify _ _ _).trans filed.rows, filed.count, filed.place, filed.target, fun p m among => ?_, filed.middle⟩,
    fun p t m made => ?_, Or.inl ?_⟩
  · rw [rows] at among
    split at among
    · rcases List.mem_append.mp among with early | late
      · exact filed.ends pred m early
      · exact List.mem_singleton.mp late ▸ plain
    · exact filed.ends p m among
  · refine made.imp (fun among => ?_) id
    rw [rows]
    split
    · rename_i same
      subst same
      exact List.mem_append_left _ among
    · exact among
  · rw [rows, if_pos rfl]
    exact List.mem_append_right _ List.mem_cons_self

/-! ### Collected moves -/

/-- The move of a phi input is made: on its edge, or nowhere when the value is at home already. -/
def Made (lower : Lower) (block : Nat) (home : Reg) (input : Pred × SsaValue) : Prop :=
  match input.1 with
  | none => lower.moveSrc input.2 = .ok (.reg home)
  | some p => lower.isLive p = true → ∃ src, lower.moveSrc input.2 = .ok src ∧ lower.OnEdge p block ⟨home, src⟩

/-- Moves that are made stay. -/
def Grows (lower lower' : Lower) : Prop := ∀ p t m, lower.OnEdge p t m → lower'.OnEdge p t m

theorem Grows.trans {lower'' : Lower} (first : lower.Grows lower') (second : lower'.Grows lower'') :
    lower.Grows lower'' := fun p t m made => second p t m (first p t m made)

end Lower

namespace Prepared

variable (prepared : Prepared petgraph prog lower) (prepared' : Prepared petgraph prog lower')
include prepared prepared'

theorem homes_eq : lower'.homes = lower.homes := Except.ok.inj (prepared'.allocated.symm.trans prepared.allocated)

theorem homeOf_eq : lower'.homeOf v = lower.homeOf v := by
  unfold Lower.homeOf
  rw [prepared.homes_eq prepared']

theorem moveSrc_eq : lower'.moveSrc v = lower.moveSrc v := by
  unfold Lower.moveSrc
  rw [prepared.homeOf_eq prepared', prepared.prog_eq, prepared'.prog_eq]

theorem isLive_eq : lower'.isLive p = lower.isLive p := by
  unfold Lower.isLive
  rw [prepared.live, prepared'.live]

theorem made (grows : lower.Grows lower') (made : lower.Made block home input) : lower'.Made block home input := by
  unfold Lower.Made at made ⊢
  cases from_ : input.1 with
  | none =>
    rw [from_] at made
    exact (prepared.moveSrc_eq prepared').trans made
  | some p =>
    rw [from_] at made
    intro alive
    obtain ⟨src, moved, placed⟩ := made ((prepared.isLive_eq prepared').symm.trans alive)
    exact ⟨src, (prepared.moveSrc_eq prepared').trans moved, grows _ _ _ placed⟩

end Prepared

namespace Lower

theorem Filed.fresh {homes : Homes} (allocated : allocate prog (.compute petgraph prog) = .ok homes) :
    (Lower.new prog homes (.compute petgraph prog)).Filed petgraph prog where
  prog_eq := rfl
  allocated := allocated
  ranges := rfl
  live := rfl
  layout := rfl
  rows := List.length_replicate
  count := rfl
  place _ _ _ recorded := by cases recorded
  target _ _ _ _ recorded := by cases recorded
  ends p m among := by
    have none_here : (List.replicate prog.blocks.length ([] : List PlacedMove)).getD p [] = [] := by
      rw [List.getD_eq_getElem?_getD, List.getElem?_replicate]
      split <;> rfl
    exact absurd (none_here ▸ among : m ∈ ([] : List PlacedMove)) List.not_mem_nil
  middle _ among := absurd among List.not_mem_nil

theorem Filed.isLive_lt (filed : lower.Filed petgraph prog) (alive : lower.isLive p = true) : p < prog.blocks.length := by
  by_contra beyond
  unfold Lower.isLive at alive
  rw [filed.live, Lower.liveBlocks, List.getD_eq_getElem?_getD, List.getElem?_eq_none (by simpa using beyond)] at alive
  cases alive

theorem Filed.placeInput (filed : lower.Filed petgraph prog) (plain : home ≠ 10)
    (placed : lower.placeInput block home input = .ok lower') :
    lower'.Filed petgraph prog ∧ lower.Grows lower' ∧ lower'.Made block home input := by
  obtain ⟨source, w⟩ := input
  cases source with
  | none =>
    obtain ⟨src, moved, placed⟩ := bind_eq_ok.mp placed
    split at placed
    · rename_i same
      cases placed
      subst same
      exact ⟨filed, fun _ _ _ made => made, moved⟩
    · cases placed
  | some pred =>
    unfold Lower.placeInput at placed
    dsimp only at placed
    split at placed
    · rename_i dead
      cases placed
      exact ⟨filed, fun _ _ _ made => made, fun alive => by simp [alive] at dead⟩
    · rename_i alive
      obtain ⟨src, moved, placed⟩ := bind_eq_ok.mp placed
      split at placed
      · cases placed
        have filed' : (lower.pushTramp pred block ⟨home, src⟩).Filed petgraph prog := filed.pushTramp plain
        exact ⟨filed', fun _ _ _ => OnEdge.pushTramp,
          fun _ => ⟨src, (filed.moveSrc_eq filed'.toPrepared).trans moved, filed.onEdge_pushTramp⟩⟩
      · cases placed
        have inside := filed.isLive_lt (by simpa using alive)
        obtain ⟨filed', grows, made⟩ := @Filed.pushEnd petgraph prog lower block pred ⟨home, src⟩ filed plain inside
        exact ⟨filed', grows, fun _ => ⟨src, (filed.moveSrc_eq filed'.toPrepared).trans moved, made⟩⟩

/-- Every input of a phi with a home is moved. -/
theorem Filed.placePhi (filed : lower.Filed petgraph prog) (regular : Regular prog) (among : insn ∈ prog.code)
    (placed : lower.placePhi block insn = .ok lower') :
    lower'.Filed petgraph prog ∧ lower.Grows lower' ∧
      ∀ inputs input, insn = .phi dst inputs → input ∈ inputs → lower.homeOf dst = some home →
        lower'.Made block home input := by
  cases insn with
  | phi dst' inputs =>
    unfold Lower.placePhi at placed
    dsimp only at placed
    split at placed
    · rename_i homeless
      cases placed
      refine ⟨filed, fun _ _ _ made => made, fun _ _ same _ homed => ?_⟩
      cases same
      rw [homeless] at homed
      cases homed
    · rename_i home' homed'
      have plain : home' ≠ 10 := filed.plain regular among rfl rfl homed'
      have step : ∀ (s : Lower), ∀ a ∈ inputs, ∀ s' : Lower, s.Filed petgraph prog ∧ lower.Grows s →
          s.placeInput block home' a = .ok s' → s'.Filed petgraph prog ∧ lower.Grows s' := by
        intro s a _ s' here ran
        obtain ⟨filed', grows, _⟩ := here.1.placeInput plain ran
        exact ⟨filed', here.2.trans grows⟩
      have start : lower.Filed petgraph prog ∧ lower.Grows lower := ⟨filed, fun _ _ _ made => made⟩
      obtain ⟨filed', grows⟩ := foldlM_keeps step start placed
      refine ⟨filed', grows, fun _ input same listed homed => ?_⟩
      cases same
      obtain rfl := Option.some.inj (homed'.symm.trans homed)
      have made : lower'.Filed petgraph prog ∧ lower'.Made block home' input := by
        refine foldlM_makes (fun s : Lower => s.Filed petgraph prog)
          (fun s => s.Filed petgraph prog ∧ s.Made block home' input) (fun s a _ s' here ran => (here.placeInput plain ran).1)
          (fun s a _ s' here ran => ?_) (fun s s' here ran => ?_) listed filed placed
        · obtain ⟨filed', grows, _⟩ := here.1.placeInput plain ran
          exact ⟨filed', here.1.toPrepared.made filed'.toPrepared grows here.2⟩
        · obtain ⟨filed', _, made⟩ := here.placeInput plain ran
          exact ⟨filed', made⟩
      exact made.2
  | _ =>
    cases placed
    exact ⟨filed, fun _ _ _ made => made, fun _ _ same => by cases same⟩

end Lower

/-- Where lowering starts from, the inputs of every emitted phi are moved. -/
theorem prepare_filed (regular : Regular prog) (ok : prepare petgraph prog = .ok lower) :
    lower.Filed petgraph prog ∧ ∀ block dst inputs input home, lower.isLive block = true →
      .phi dst inputs ∈ prog.insnsOf block → input ∈ inputs → lower.homeOf dst = some home →
        lower.Made block home input := by
  obtain ⟨homes, allocated, collected⟩ := bind_eq_ok.mp ok
  unfold Lower.collectPhiMoves at collected
  have fresh := Lower.Filed.fresh allocated
  have row : ∀ (s : Lower) (b : Nat) (s' : Lower), s.Filed petgraph prog →
      (s.prog.insnsOf b).foldlM (fun lower insn => lower.placePhi b insn) s = .ok s' →
        s'.Filed petgraph prog ∧ s.Grows s' := by
    intro s b s' here ran
    rw [here.prog_eq] at ran
    have step : ∀ (s₁ : Lower), ∀ insn ∈ prog.insnsOf b, ∀ s₂ : Lower, s₁.Filed petgraph prog ∧ s.Grows s₁ →
        s₁.placePhi b insn = .ok s₂ → s₂.Filed petgraph prog ∧ s.Grows s₂ := by
      intro s₁ insn among s₂ good ran
      obtain ⟨filed, grows, _⟩ :=
        @Lower.Filed.placePhi petgraph prog s₁ s₂ b insn 0 0 good.1 regular (SsaProgram.mem_code among) ran
      exact ⟨filed, good.2.trans grows⟩
    have start : s.Filed petgraph prog ∧ s.Grows s := ⟨here, fun _ _ _ made => made⟩
    have kept := foldlM_keeps step start ran
    exact kept
  have filed : lower.Filed petgraph prog :=
    foldlM_keeps (fun s b _ s' here ran => (row s b s' here ran).1) fresh collected
  refine ⟨filed, fun block dst inputs input home alive phi among homed => ?_⟩
  have inside := filed.isLive_lt alive
  have present : block ∈ (List.range prog.blocks.length).filter (Lower.new prog homes (.compute petgraph prog)).isLive :=
    List.mem_filter.mpr ⟨List.mem_range.mpr inside, (filed.isLive_eq fresh.toPrepared).trans alive⟩
  have made : lower.Filed petgraph prog ∧ lower.Made block home input := by
    refine foldlM_makes (fun s : Lower => s.Filed petgraph prog)
      (fun s => s.Filed petgraph prog ∧ s.Made block home input) (fun s b _ s' here ran => (row s b s' here ran).1)
      (fun s b _ s' here ran => ?_) (fun s s' here ran => ?_) present fresh collected
    · obtain ⟨filed', grows⟩ := row s b s' here.1 ran
      exact ⟨filed', here.1.toPrepared.made filed'.toPrepared grows here.2⟩
    · rw [here.prog_eq] at ran
      have places : ∀ (s : Lower) (dst : SsaValue) (home : Reg), ∀ insn ∈ prog.insnsOf block, ∀ s' : Lower,
          s.Filed petgraph prog → s.placePhi block insn = .ok s' → _ := fun s dst home insn at_ s' here ran =>
        @Lower.Filed.placePhi petgraph prog s s' block insn dst home here regular (SsaProgram.mem_code at_) ran
      refine foldlM_makes (fun s : Lower => s.Filed petgraph prog)
        (fun s => s.Filed petgraph prog ∧ s.Made block home input)
        (fun s insn at_ s' here ran => (places s 0 0 insn at_ s' here ran).1)
        (fun s insn at_ s' here ran => ?_) (fun s s' here ran => ?_) phi here ran
      · obtain ⟨filed', grows, _⟩ := places s 0 0 insn at_ s' here.1 ran
        exact ⟨filed', here.1.toPrepared.made filed'.toPrepared grows here.2⟩
      · obtain ⟨filed', _, made⟩ := places s dst home _ phi s' here ran
        exact ⟨filed', made inputs input rfl among ((filed.homeOf_eq here.toPrepared).trans homed)⟩
  exact made.2

end EbpfLab.Ssa
