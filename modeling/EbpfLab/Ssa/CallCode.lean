import EbpfLab.Cfg.Searching
import EbpfLab.Ssa.MoveOrder
import EbpfLab.Ssa.Points

/-!
# Emitted calls

The code emitted for a call saves the shuffle destinations that hold live homes, shuffles the arguments
into `r1`–`r5`, calls, moves the result out of `r0` and restores what was saved. The `k`-th such
destination is saved to the `k`-th spare register.
-/

namespace EbpfLab.Ssa
open Isa FlowGraph Library Interp

variable {petgraph : Petgraph}
  {prog : SsaProgram} {lower : Lower} {homes : List Reg} {pos : Nat} {dst : SsaValue} {func : UInt32}
  {args : List SsaValue} {regs : Regs} {saves : List (Reg × Reg)} {liveHomes srcHomes : List Reg}
  {moves : List PlacedMove} {vm : Vm} {code : List Insn} {home r d t : Reg} {x : Int64}

namespace Lower

variable (lower : Lower) (homes : List Reg) (pos : Nat)

/-- The registers that arguments come from. -/
def argSources : List Reg := (shuffle homes).filterMap fun m => m.src.reads

/-- The registers that take an argument while they hold a live home. -/
def endangered : List Reg := ((shuffle homes).map Move.dst).filter (lower.liveHomesAt pos).contains

/-- The registers that neither hold a live home nor an argument on its way. -/
def spare : List Reg :=
  (pool ++ [1]).filter fun t => t != 0 && !(lower.liveHomesAt pos).contains t && !(argSources homes).contains t

/-- Each endangered register with the one it is saved to. -/
def savedTo : List (Reg × Reg) := (lower.endangered homes pos).zip (lower.spare homes pos)

/-- The homes of a call's arguments. -/
def argHomes (args : List SsaValue) : List Reg := args.filterMap lower.homeOf

end Lower

/-! ### Saves -/

theorem find?_not_take {α : Type} [DecidableEq α] {l : List α} (nodup : l.Nodup) (k : Nat) :
    (l.find? fun a => !(l.take k).contains a) = l[k]? := by
  have among : (l.take k).find? (fun a => !(l.take k).contains a) = none :=
    List.find?_eq_none.mpr fun a early => by simpa using early
  have split : (l.take k ++ l.drop k).find? (fun a => !(l.take k).contains a) = _ := List.find?_append
  rw [List.take_append_drop, among, Option.none_or] at split
  rw [split, ← List.head?_drop]
  cases rest : l.drop k with
  | nil => rfl
  | cons a rest' =>
    have apart := List.disjoint_of_nodup_append ((List.take_append_drop k l).symm ▸ nodup)
    have later : a ∉ l.take k := fun early => apart early (rest ▸ List.mem_cons_self)
    rw [List.find?_cons_of_pos (by simpa using later), List.head?_cons]

namespace Lower

theorem saveHome_eq (saves : List (Reg × Reg)) : saveHome liveHomes srcHomes saves =
    ((pool ++ [1]).filter fun t => t != 0 && !liveHomes.contains t && !srcHomes.contains t).find?
      fun t => !(saves.map Prod.snd).contains t := by
  rw [List.find?_filter]
  unfold saveHome
  congr 1
  funext t
  have named : (saves.any fun save => save.2 == t) = (saves.map Prod.snd).contains t := by
    rw [Bool.eq_iff_iff, List.any_eq_true, List.contains_iff_mem, List.mem_map]
    simp
  rw [named, Bool.decide_and, Bool.decide_eq_true, Bool.decide_eq_true]

/-- The saves take the endangered destinations and the spare registers in order. -/
theorem callSaves_eq {spare : List Reg} {out : List (Reg × Reg)}
    (spares : spare = (pool ++ [1]).filter fun t => t != 0 && !liveHomes.contains t && !srcHomes.contains t)
    (taken : saves.map Prod.snd = spare.take saves.length)
    (saved : callSaves liveHomes srcHomes moves saves = .ok out) :
    out = saves ++ ((moves.map Move.dst).filter liveHomes.contains).zip (spare.drop saves.length) ∧
      ((moves.map Move.dst).filter liveHomes.contains).length ≤ (spare.drop saves.length).length := by
  have nodup : spare.Nodup := spares ▸ List.Nodup.filter _ (by decide)
  induction moves generalizing saves with
  | nil =>
    cases saved
    exact ⟨(List.append_nil _).symm, Nat.zero_le _⟩
  | cons m moves ih =>
    rw [callSaves] at saved
    rw [List.map_cons, List.filter_cons]
    split at saved
    · rename_i live
      rw [if_pos live]
      split at saved
      · cases saved
      · rename_i temp found
        rw [saveHome_eq, ← spares, taken, find?_not_take nodup] at found
        have front : spare.drop saves.length = temp :: spare.drop (saves.length + 1) := by
          obtain ⟨inside, rfl⟩ := List.getElem?_eq_some_iff.mp found
          exact List.drop_eq_getElem_cons inside
        have more : (saves ++ [(m.dst, temp)]).map Prod.snd = spare.take (saves ++ [(m.dst, temp)]).length := by
          rw [List.map_append, taken, List.length_append, List.length_singleton, List.take_add_one, found]
          rfl
        obtain ⟨same, enough⟩ := ih more saved
        rw [List.length_append, List.length_singleton] at same enough
        rw [same, front, List.zip_cons_cons, List.append_assoc, List.singleton_append]
        exact ⟨rfl, Nat.succ_le_succ enough⟩
    · rename_i dead
      rw [if_neg dead]
      exact ih taken saved

end Lower

/-! ### Register moves -/

/-- Moves from registers to registers. -/
def copies (pairs : List (Reg × Reg)) : List PlacedMove := pairs.map fun pair => ⟨pair.1, .reg pair.2⟩

def movs (pairs : List (Reg × Reg)) : List Insn := pairs.map fun pair => mov64 pair.1 pair.2

theorem movs_run {pairs : List (Reg × Reg)} (plain : ∀ pair ∈ pairs, pair.1 ≠ 10) (vm : Vm) :
    vm.executeAll (load (movs pairs)) =
      ({ vm with regs := runMoves MoveSrc.eval (copies pairs) vm.regs, pc := vm.pc + pairs.length }, .cont) := by
  have code : (copies pairs).flatMap (fun m => m.src.reads.toList.map (mov64 m.dst)) = movs pairs := by
    rw [copies, List.flatMap_map, movs, List.map_eq_flatMap]
    rfl
  rw [← code, moves_run, code, movs, List.length_map]
  · intro m present i emitted
    obtain ⟨r, _, rfl⟩ := List.mem_map.mp emitted
    rfl
  · intro m present vm
    obtain ⟨pair, among, rfl⟩ := List.mem_map.mp present
    exact Puts.single rfl (plain pair among) rfl

section

variable {pairs : List (Reg × Reg)} (distinct : (pairs.map Prod.fst).Nodup)
include distinct

theorem copies_nodup : ((copies pairs).map Move.dst).Nodup := by
  rw [copies, List.map_map]
  exact distinct

/-- Copies that read none of the registers they write happen at once. -/
theorem copies_run (unread : ∀ pair ∈ pairs, ∀ other ∈ pairs, other.2 ≠ pair.1) :
    runMoves MoveSrc.eval (copies pairs) regs = moveAtOnce MoveSrc.eval (copies pairs) regs := by
  refine Sequenced.run_eq (.of_unread fun m left other right read => ?_) eval_depends
    (agree_of_nodup (copies_nodup distinct))
  obtain ⟨pair, among, rfl⟩ := List.mem_map.mp left
  obtain ⟨pair', among', rfl⟩ := List.mem_map.mp right
  exact unread pair among pair' among' (Option.some.inj read)

theorem copies_of_mem (present : (d, t) ∈ pairs) : moveAtOnce MoveSrc.eval (copies pairs) regs d = regs t :=
  moveAtOnce_of_mem (m := ⟨d, .reg t⟩) (List.mem_map.mpr ⟨(d, t), present, rfl⟩)
    (agree_of_nodup (copies_nodup distinct))

omit distinct in
theorem copies_of_not_mem (absent : r ∉ pairs.map Prod.fst) :
    moveAtOnce MoveSrc.eval (copies pairs) regs r = regs r := by
  refine moveAtOnce_of_not_mem fun m present same => absent ?_
  obtain ⟨pair, among, rfl⟩ := List.mem_map.mp present
  exact List.mem_map.mpr ⟨pair, among, same⟩

end

/-! ### Shuffles and saves -/

theorem zip_sublist {α β : Type} (l : List α) (l' : List β) :
    ((l.zip l').map Prod.fst).Sublist l ∧ ((l.zip l').map Prod.snd).Sublist l' := by
  induction l generalizing l' with
  | nil => exact ⟨List.nil_sublist _, List.nil_sublist _⟩
  | cons a l ih =>
    cases l' with
    | nil => exact ⟨List.nil_sublist _, List.nil_sublist _⟩
    | cons b l' => exact ⟨(ih l').1.cons_cons a, (ih l').2.cons_cons b⟩

theorem convention_inj {i j : Nat} (left : i < 5) (right : j < 5) (same : convention i = convention j) : i = j := by
  have values := congrArg Fin.val same
  simp only [convention, Fin.ofNat] at values
  omega

namespace Lower

theorem mem_shuffle {m : PlacedMove} : m ∈ shuffle homes ↔
    ∃ i home, homes[i]? = some home ∧ home ≠ convention i ∧ m = ⟨convention i, .reg home⟩ := by
  unfold shuffle
  rw [List.mem_filterMap]
  constructor
  · rintro ⟨⟨home, i⟩, listed, placed⟩
    split at placed
    · cases placed
    · rename_i moved
      cases placed
      exact ⟨i, home, List.mem_zipIdx_iff_getElem?.mp listed, moved, rfl⟩
  · rintro ⟨i, home, found, moved, rfl⟩
    exact ⟨(home, i), List.mem_zipIdx_iff_getElem?.mpr found, if_neg moved⟩

theorem shuffle_nodup (short : homes.length ≤ 5) : ((shuffle homes).map Move.dst).Nodup := by
  have places : homes.zipIdx.Pairwise fun a b => a.2 < b.2 := by
    rw [← List.pairwise_map, List.zipIdx_map_snd]
    exact List.pairwise_lt_range'
  have bound : ∀ a ∈ homes.zipIdx, a.2 < 5 := fun a listed =>
    (List.getElem?_eq_some_iff.mp (List.mem_zipIdx_iff_getElem?.mp listed)).1.trans_le short
  refine List.pairwise_map.mpr (List.Pairwise.filterMap _ (fun a b ordered m left m' right same => ?_)
    (places.imp_of_mem fun {a b} left right ordered => (⟨ordered, bound a left, bound b right⟩ :
      a.2 < b.2 ∧ a.2 < 5 ∧ b.2 < 5)))
  obtain ⟨before, low, high⟩ := ordered
  have placed : ∀ {a : Reg × Nat} {m : PlacedMove}, (if a.1 = convention a.2 then none
      else some ⟨convention a.2, .reg a.1⟩) = some m → m.dst = convention a.2 := by
    intro a m made
    split at made <;> cases made
    rfl
  have clash := convention_inj low high ((placed left).symm.trans (same.trans (placed right)))
  omega

theorem mem_argSources : r ∈ argSources homes ↔ ∃ m ∈ shuffle homes, m.src = .reg r := by
  unfold argSources
  rw [List.mem_filterMap]
  exact exists_congr fun m => and_congr_right fun _ => reads_eq_some

end Lower

/-! ### The registers around a call -/

/-- What the saves of a call rely on. -/
structure Saves (lower : Lower) (homes : List Reg) (pos : Nat) : Prop where
  short : homes.length ≤ 5
  enough : (lower.endangered homes pos).length ≤ (lower.spare homes pos).length

namespace Saves

variable (ok : Saves lower homes pos)
include ok

theorem keys : (lower.savedTo homes pos).map Prod.fst = lower.endangered homes pos :=
  List.map_fst_zip ok.enough

theorem saved_nodup : ((lower.savedTo homes pos).map Prod.fst).Nodup := by
  rw [ok.keys]
  exact (Lower.shuffle_nodup ok.short).filter _

omit ok in
theorem temps_nodup : ((lower.savedTo homes pos).map Prod.snd).Nodup :=
  (List.Nodup.filter _ (by decide)).sublist (zip_sublist _ _).2

omit ok in
theorem of_mem (saved : (d, t) ∈ lower.savedTo homes pos) :
    (d ∈ lower.liveHomesAt pos ∧ ∃ m ∈ Lower.shuffle homes, m.dst = d) ∧
      t ≠ 0 ∧ t ≠ 10 ∧ t ∉ lower.liveHomesAt pos ∧ t ∉ Lower.argSources homes := by
  obtain ⟨threatened, spare⟩ := List.of_mem_zip saved
  obtain ⟨destination, live⟩ := List.mem_filter.mp threatened
  obtain ⟨offered, free⟩ := List.mem_filter.mp spare
  simp only [Bool.and_eq_true, bne_iff_ne, Bool.not_eq_true', List.contains_eq_mem, decide_eq_false_iff_not] at free
  refine ⟨⟨by simpa using live, List.mem_map.mp destination⟩, free.1.1, ?_, free.1.2, free.2⟩
  rintro rfl
  exact absurd offered (by decide)

end Saves

/-! ### The code -/

namespace Lower

variable (lower : Lower) (homes : List Reg) (pos : Nat)

/-- The registers behind the saves and the shuffle. -/
def atCall (regs : Regs) : Regs :=
  moveAtOnce MoveSrc.eval (shuffle homes)
    (moveAtOnce MoveSrc.eval (copies ((lower.savedTo homes pos).map Prod.swap)) regs)

/-- The registers behind the move of the result. -/
def withResult (dst : SsaValue) (regs : Regs) : Regs :=
  match lower.homeOf dst with
  | some home => Function.update regs home (regs 0)
  | none => regs

/-- The registers behind the restores, from those behind the call. -/
def behindCall (dst : SsaValue) (regs : Regs) : Regs :=
  moveAtOnce MoveSrc.eval (copies (lower.savedTo homes pos)) (lower.withResult dst regs)

end Lower

theorem requireHome_eq {v : SsaValue} (required : lower.requireHome v = .ok home) : lower.homeOf v = some home := by
  unfold Lower.requireHome at required
  split at required
  · rename_i h homed
    cases required
    exact homed
  · cases required

theorem argHomes_eq (required : args.mapM lower.requireHome = .ok homes) :
    lower.argHomes args = homes ∧ homes.length = args.length := by
  refine ⟨?_, (mapM_eq_ok required).1⟩
  induction args generalizing homes with
  | nil =>
    cases required
    rfl
  | cons v args ih =>
    rw [List.mapM_cons] at required
    obtain ⟨h, first, required⟩ := bind_eq_ok.mp required
    obtain ⟨rest, others, required⟩ := bind_eq_ok.mp required
    cases required
    rw [Lower.argHomes, List.filterMap_cons_some (requireHome_eq first)]
    exact congrArg _ (ih others)

theorem argHomes_getElem? {i : Nat} (required : args.mapM lower.requireHome = .ok (lower.argHomes args)) :
    (lower.argHomes args)[i]? = some home ↔ ∃ v, args[i]? = some v ∧ lower.homeOf v = some home := by
  obtain ⟨same, each⟩ := mapM_eq_ok required
  constructor
  · intro found
    have inside := (List.getElem?_eq_some_iff.mp found).1.trans_eq same
    obtain ⟨h, located, found'⟩ := each i args[i] (List.getElem?_eq_getElem inside)
    rw [found] at found'
    cases found'
    exact ⟨args[i], List.getElem?_eq_getElem inside, requireHome_eq located⟩
  · rintro ⟨v, arg, homed⟩
    obtain ⟨h, located, found⟩ := each i v arg
    rw [requireHome_eq located] at homed
    cases homed
    exact found

theorem movs_straight {pairs : List (Reg × Reg)} : ∀ i ∈ movs pairs, isJump i = false := by
  intro i present
  obtain ⟨pair, _, rfl⟩ := List.mem_map.mp present
  rfl

theorem convention_ne {i : Nat} (low : i < 5) : convention i ≠ 10 := by
  intro same
  have values := congrArg Fin.val same
  simp only [convention, Fin.ofNat] at values
  change (i + 1) % 11 = 10 at values
  omega

theorem shuffle_plain (short : homes.length ≤ 5) : ∀ m ∈ Lower.shuffle homes, m.dst ≠ 10 := by
  intro m present
  obtain ⟨i, home, found, _, rfl⟩ := Lower.mem_shuffle.mp present
  exact convention_ne ((List.getElem?_eq_some_iff.mp found).1.trans_le short)

theorem emitMoves_movs (registers : ∀ m ∈ moves, ∃ r, m.src = .reg r) :
    ∀ i ∈ moves.flatMap emitMove, ∃ r r', i = mov64 r r' := by
  intro i present
  obtain ⟨m, among, emitted⟩ := List.mem_flatMap.mp present
  obtain ⟨r, src⟩ := registers m among
  unfold emitMove at emitted
  rw [src] at emitted
  dsimp only at emitted
  split at emitted
  · cases emitted
  · exact ⟨_, _, List.mem_singleton.mp emitted⟩

/-- What stands before a call, and what it does to the registers. -/
theorem beforeCall_run (ok : lower.beforeCall args pos = .ok (code, saves)) (five : args.length = 5) :
    args.mapM lower.requireHome = .ok (lower.argHomes args) ∧ Saves lower (lower.argHomes args) pos ∧
      saves = lower.savedTo (lower.argHomes args) pos ∧ (∀ i ∈ code, ∃ r r', i = mov64 r r') ∧
      ∀ vm : Vm, vm.executeAll (load code) =
        ({ vm with
          regs := lower.atCall (lower.argHomes args) pos vm.regs
          pc := vm.pc + code.length }, .cont) := by
  obtain ⟨homes, required, ok⟩ := bind_eq_ok.mp ok
  obtain ⟨same, long⟩ := argHomes_eq required
  obtain ⟨saves', saved, ok⟩ := bind_eq_ok.mp ok
  obtain ⟨ordered, shuffled, ok⟩ := bind_eq_ok.mp ok
  cases ok
  subst same
  obtain ⟨whole, enough⟩ := Lower.callSaves_eq rfl rfl saved
  rw [List.nil_append, List.length_nil, List.drop_zero] at whole
  rw [List.length_nil, List.drop_zero] at enough
  have short : (lower.argHomes args).length ≤ 5 := by omega
  have fits : Saves lower (lower.argHomes args) pos := ⟨short, enough⟩
  have saves_eq : saves = lower.savedTo (lower.argHomes args) pos := whole
  subst saves_eq
  have saving : ((lower.savedTo (lower.argHomes args) pos).map fun save => mov64 save.2 save.1) =
      movs ((lower.savedTo (lower.argHomes args) pos).map Prod.swap) := by
    rw [movs, List.map_map]
    rfl
  have moving : ∀ i ∈ ordered.flatMap emitMove, ∃ r r', i = mov64 r r' := by
    refine emitMoves_movs fun m among => ?_
    obtain ⟨present, _⟩ := List.mem_filter.mp ((orderMoves_sequenced shuffled).subset among)
    obtain ⟨i, home, _, _, rfl⟩ := Lower.mem_shuffle.mp present
    exact ⟨home, rfl⟩
  rw [saving]
  refine ⟨required, fits, rfl, fun i present => ?_, fun vm => ?_⟩
  · rcases List.mem_append.mp present with first | later
    · obtain ⟨pair, _, rfl⟩ := List.mem_map.mp first
      exact ⟨_, _, rfl⟩
    · exact moving i later
  · have plain : ∀ pair ∈ (lower.savedTo (lower.argHomes args) pos).map Prod.swap, pair.1 ≠ 10 := by
      intro pair among
      obtain ⟨⟨d, t⟩, saved, rfl⟩ := List.mem_map.mp among
      exact (Saves.of_mem saved).2.2.1
    have apart : ∀ pair ∈ (lower.savedTo (lower.argHomes args) pos).map Prod.swap,
        ∀ other ∈ (lower.savedTo (lower.argHomes args) pos).map Prod.swap, other.2 ≠ pair.1 := by
      intro pair left other right same
      obtain ⟨⟨d, t⟩, saved, rfl⟩ := List.mem_map.mp left
      obtain ⟨⟨d', t'⟩, saved', rfl⟩ := List.mem_map.mp right
      have clash : d' = t := same
      exact (Saves.of_mem saved).2.2.2.1 (clash ▸ (Saves.of_mem saved').1.1)
    have temps : (((lower.savedTo (lower.argHomes args) pos).map Prod.swap).map Prod.fst).Nodup := by
      rw [List.map_map]
      exact Saves.temps_nodup
    have moved : ∀ i ∈ ordered.flatMap emitMove, isJump i = false := by
      intro i present
      obtain ⟨r, r', rfl⟩ := moving i present
      rfl
    rw [executeAll_straight movs_straight moved (movs_run plain vm), copies_run temps apart,
      orderMoves_code (Lower.shuffle_nodup short) shuffled (shuffle_plain short)]
    simp [Lower.atCall, movs, Nat.add_assoc]

theorem resultMove_run (plain : ∀ home, lower.homeOf dst = some home → home ≠ 10) (vm : Vm) :
    ∃ pairs : List (Reg × Reg), (∀ saves, lower.afterCall dst saves = movs pairs ++ movs saves) ∧
      vm.executeAll (load (movs pairs)) =
        ({ vm with regs := lower.withResult dst vm.regs, pc := vm.pc + (movs pairs).length }, .cont) := by
  unfold Lower.afterCall Lower.withResult
  cases homed : lower.homeOf dst with
  | none => exact ⟨[], fun _ => rfl, rfl⟩
  | some home =>
    by_cases zero : home = 0
    · subst zero
      refine ⟨[], fun _ => rfl, ?_⟩
      dsimp only
      rw [Function.update_eq_self]
      rfl
    · refine ⟨[(home, 0)], fun _ => by simp only [if_neg zero]; rfl, ?_⟩
      rw [movs_run fun pair among => ?_]
      · rfl
      · rw [List.mem_singleton.mp among]
        exact plain home homed

/-- What stands behind a call, and what it does to the registers. -/
theorem afterCall_run (plain : ∀ home, lower.homeOf dst = some home → home ≠ 10) (ok : Saves lower homes pos) :
    (∀ i ∈ lower.afterCall dst (lower.savedTo homes pos), ∃ r r', i = mov64 r r') ∧
      ∀ vm : Vm, vm.executeAll (load (lower.afterCall dst (lower.savedTo homes pos))) =
        ({ vm with
          regs := lower.behindCall homes pos dst vm.regs
          pc := vm.pc + (lower.afterCall dst (lower.savedTo homes pos)).length }, .cont) := by
  have restored : ∀ pair ∈ lower.savedTo homes pos, pair.1 ≠ 10 := by
    intro pair saved
    obtain ⟨m, present, same⟩ := (Saves.of_mem saved).1.2
    exact same ▸ shuffle_plain ok.short m present
  have apart : ∀ pair ∈ lower.savedTo homes pos, ∀ other ∈ lower.savedTo homes pos, other.2 ≠ pair.1 := by
    intro pair left other right same
    exact (Saves.of_mem right).2.2.2.1 (same ▸ (Saves.of_mem left).1.1)
  refine ⟨fun i present => ?_, fun vm => ?_⟩
  · obtain ⟨pairs, code, _⟩ := resultMove_run plain (Vm.new [])
    rw [code] at present
    rcases List.mem_append.mp present with first | later
    · obtain ⟨pair, _, rfl⟩ := List.mem_map.mp first
      exact ⟨_, _, rfl⟩
    · obtain ⟨pair, _, rfl⟩ := List.mem_map.mp later
      exact ⟨_, _, rfl⟩
  · obtain ⟨pairs, code, run⟩ := resultMove_run plain vm
    rw [code, executeAll_straight movs_straight movs_straight run, movs_run restored,
      copies_run ok.saved_nodup apart]
    simp [Lower.behindCall, movs, Nat.add_assoc]

/-! ### Where values are -/

namespace Saves

variable (ok : Saves lower homes pos)
include ok

theorem keys_mem (threatened : d ∈ lower.endangered homes pos) : ∃ t, (d, t) ∈ lower.savedTo homes pos := by
  rw [← ok.keys] at threatened
  obtain ⟨⟨d', t⟩, saved, rfl⟩ := List.mem_map.mp threatened
  exact ⟨t, saved⟩

omit ok in
theorem mem_temps {t : Reg} : t ∈ ((lower.savedTo homes pos).map Prod.swap).map Prod.fst ↔
    ∃ d, (d, t) ∈ lower.savedTo homes pos := by
  simp

theorem atCall_moved {m : PlacedMove} (regs : Regs) (present : m ∈ Lower.shuffle homes) (src : m.src = .reg home) :
    lower.atCall homes pos regs m.dst = regs home := by
  rw [Lower.atCall, moveAtOnce_of_mem present (agree_of_nodup (Lower.shuffle_nodup ok.short)), src]
  refine copies_of_not_mem fun temp => ?_
  obtain ⟨d, saved⟩ := mem_temps.mp temp
  exact (Saves.of_mem saved).2.2.2.2 (Lower.mem_argSources.mpr ⟨m, present, src⟩)

omit ok in
theorem atCall_temp (saved : (d, t) ∈ lower.savedTo homes pos) (still : ∀ m ∈ Lower.shuffle homes, m.dst ≠ t) :
    lower.atCall homes pos regs t = regs d := by
  have temps : (((lower.savedTo homes pos).map Prod.swap).map Prod.fst).Nodup := by
    rw [List.map_map]
    exact Saves.temps_nodup
  rw [Lower.atCall, moveAtOnce_of_not_mem still]
  exact copies_of_mem temps (List.mem_map.mpr ⟨(d, t), saved, rfl⟩)

omit ok in
theorem atCall_else (still : ∀ m ∈ Lower.shuffle homes, m.dst ≠ r)
    (free : ∀ d, (d, r) ∉ lower.savedTo homes pos) : lower.atCall homes pos regs r = regs r := by
  rw [Lower.atCall, moveAtOnce_of_not_mem still]
  refine copies_of_not_mem fun temp => ?_
  obtain ⟨d, saved⟩ := mem_temps.mp temp
  exact free d saved

/-- What is in a register at the call was in some register before. -/
theorem atCall_from (r : Reg) : ∃ r', ∀ regs, lower.atCall homes pos regs r = regs r' := by
  by_cases moved : ∃ m ∈ Lower.shuffle homes, m.dst = r
  · obtain ⟨m, present, rfl⟩ := moved
    obtain ⟨i, home, _, _, rfl⟩ := Lower.mem_shuffle.mp present
    exact ⟨home, fun regs => ok.atCall_moved regs present rfl⟩
  · have still : ∀ m ∈ Lower.shuffle homes, m.dst ≠ r := fun m present same => moved ⟨m, present, same⟩
    by_cases temp : ∃ d, (d, r) ∈ lower.savedTo homes pos
    · obtain ⟨d, saved⟩ := temp
      exact ⟨d, fun regs => atCall_temp saved still⟩
    · exact ⟨r, fun regs => atCall_else still fun d saved => temp ⟨d, saved⟩⟩

theorem behindCall_saved (saved : (d, t) ∈ lower.savedTo homes pos) :
    lower.behindCall homes pos dst regs d = lower.withResult dst regs t :=
  copies_of_mem ok.saved_nodup saved

theorem behindCall_else (safe : d ∉ lower.endangered homes pos) :
    lower.behindCall homes pos dst regs d = lower.withResult dst regs d :=
  copies_of_not_mem (by rwa [ok.keys])

end Saves

theorem withResult_home (homed : lower.homeOf dst = some home) : lower.withResult dst regs home = regs 0 := by
  simp [Lower.withResult, homed]

theorem withResult_ne (other : lower.homeOf dst ≠ some r) : lower.withResult dst regs r = regs r := by
  unfold Lower.withResult
  cases homed : lower.homeOf dst with
  | none => rfl
  | some home => exact Function.update_of_ne (fun same => other (homed.trans (congrArg some same.symm))) _ _

/-- An argument that is in its register already is moved by none. -/
theorem inPlace_still {i : Nat} (short : homes.length ≤ 5) (found : homes[i]? = some home)
    (inPlace : home = convention i) : ∀ m ∈ Lower.shuffle homes, m.dst ≠ home := by
  rintro m present same
  obtain ⟨j, other, found', moved, rfl⟩ := Lower.mem_shuffle.mp present
  have left := (List.getElem?_eq_some_iff.mp found).1.trans_le short
  have right := (List.getElem?_eq_some_iff.mp found').1.trans_le short
  obtain rfl := convention_inj right left (same.trans inPlace)
  rw [found] at found'
  cases found'
  exact moved inPlace

/-! ### Calls that serve -/

/-- Some run reads the version behind the place before it is assigned again. -/
def SsaProgram.ReadBehind (prog : SsaProgram) (site : Site) (v : SsaValue) : Prop :=
  ∃ m pred env world, Awaits m prog v ⟨⟨pred, site.1, site.2 + 1⟩, env, world⟩

/-- The code comes to the call with the arguments in `r1`–`r5`; behind the code the result is at home,
and so is every version that is still to be read. -/
def CallServes (prog : SsaProgram) (lower : Lower) (site : Site) (dst : SsaValue) (func : UInt32)
    (args : List SsaValue) (code : List Insn) : Prop :=
  ∃ before behind : List Insn, code = before ++ .call func :: behind ∧
    (∀ i ∈ before ++ behind, ∃ r r', i = mov64 r r') ∧
    ∀ vm : Vm, ∃ vm₁, vm.executeAll (load before) = (vm₁, .cont) ∧
      (∀ i v home, args[i]? = some v → lower.homeOf v = some home → vm₁.regs (convention i) = vm.regs home) ∧
      ∀ vm₂, vm₁.execute (loadStraight (.call func)) = (vm₂, .cont) →
        ∃ vm₃, vm₂.executeAll (load behind) = (vm₃, .cont) ∧
          (∀ home, lower.homeOf dst = some home → vm₃.regs home = vm₂.regs 0) ∧
          ∀ v home, prog.ReadBehind site v → v ≠ dst → lower.homeOf v = some home →
            vm₃.regs home = vm.regs home

/-- A home keeps its value: it is saved to a register that takes neither the result nor another argument,
or nothing is put into it. -/
def Lower.Keeps (lower : Lower) (homes : List Reg) (pos : Nat) (dst : SsaValue) (home : Reg) : Prop :=
  (∃ t, (home, t) ∈ lower.savedTo homes pos ∧ lower.homeOf dst ≠ some t ∧
      ∀ m ∈ shuffle homes, m.dst = t → m.src = .reg home) ∨
    home ∉ lower.endangered homes pos ∧ home ≠ 0 ∧ lower.homeOf dst ≠ some home ∧
      (∀ m ∈ shuffle homes, m.dst ≠ home) ∧ ∀ d, (d, home) ∉ lower.savedTo homes pos

/-- No argument in place is saved over, the result is not restored over, and every other version still to
be read keeps its home. -/
structure CallFits (prog : SsaProgram) (lower : Lower) (site : Site) (dst : SsaValue) (args : List SsaValue) :
    Prop where
  inPlace : ∀ i home, (lower.argHomes args)[i]? = some home → home = convention i →
    ∀ d, (d, home) ∉ lower.savedTo (lower.argHomes args) (prog.flat site)
  result : ∀ home, lower.homeOf dst = some home → home ∉ lower.endangered (lower.argHomes args) (prog.flat site)
  kept : ∀ v home, prog.ReadBehind site v → v ≠ dst → lower.homeOf v = some home →
    lower.Keeps (lower.argHomes args) (prog.flat site) dst home

/-- Registers that are told apart, and helpers that answer with something else. -/
def probing : Vm :=
  { Vm.new [] with
    regs := fun r => Int64.ofNat r.val
    helpers := fun _ => some fun _ world => .ok (100, world) }

theorem probing_regs : ∀ r r', probing.regs r = probing.regs r' → r = r' := by decide

theorem probing_result : ∀ r, probing.regs r ≠ 100 := by decide

theorem call_split {before behind before' behind' : List Insn} (moves : ∀ i ∈ before, ∃ r r', i = mov64 r r')
    (moves' : ∀ i ∈ before', ∃ r r', i = mov64 r r')
    (same : before ++ .call func :: behind = before' ++ .call func :: behind') :
    before = before' ∧ behind = behind' := by
  have never : ∀ r r', Insn.call func ≠ mov64 r r' := fun r r' clash => by cases clash
  rcases splits_ordered same with ⟨rfl, _⟩ | later | later
  · exact ⟨rfl, (List.cons.inj (List.append_cancel_left same)).2⟩
  · obtain ⟨r, r', clash⟩ := moves' _ later
    exact absurd clash (never r r')
  · obtain ⟨r, r', clash⟩ := moves _ later
    exact absurd clash (never r r')

theorem mem_code_of_insnAt {insn : SsaInsn} {site : Site} (there : prog.insnAt site = some insn) : insn ∈ prog.code := by
  obtain ⟨b, block, found⟩ := Option.bind_eq_some_iff.mp there
  exact List.mem_flatMap.mpr ⟨b, List.mem_of_getElem? block, List.mem_of_getElem? found⟩

/-- A call changes `r0` alone. -/
theorem call_regs {vm vm' : Vm} (called : vm.execute (loadStraight (.call func)) = (vm', .cont)) (other : r ≠ 0) :
    vm'.regs r = vm.regs r := by
  have dispatched : vm.dispatchHelper func = (vm', .cont) := called
  unfold Vm.dispatchHelper at dispatched
  split at dispatched
  · cases dispatched
  · split at dispatched
    · cases dispatched
    · cases dispatched
      rw [write_home (by decide)]
      exact Function.update_of_ne other _ _

theorem probing_called (func : UInt32) {vm : Vm} (helpers : vm.helpers = probing.helpers) :
    ∃ vm', vm.execute (loadStraight (.call func)) = (vm', .cont) ∧ vm'.regs = Function.update vm.regs 0 100 := by
  have dispatched : vm.dispatchHelper func =
      ({ vm with regs := vm.regs.write 0 100, pc := vm.pc + 1 }, .cont) := by
    unfold Vm.dispatchHelper
    rw [helpers]
    rfl
  exact ⟨_, dispatched, write_home (by decide) 100⟩

theorem behindCall_kept {after : Regs} (ok : Saves lower homes pos) (keeps : lower.Keeps homes pos dst home)
    (called : ∀ r, r ≠ 0 → after r = lower.atCall homes pos regs r) :
    lower.behindCall homes pos dst after home = regs home := by
  rcases keeps with ⟨t, saved, result, source⟩ | ⟨safe, nonzero, result, still, free⟩
  · obtain ⟨_, nonzero, _⟩ := Saves.of_mem saved
    rw [ok.behindCall_saved saved, withResult_ne result, called t nonzero]
    by_cases moved : ∃ m ∈ Lower.shuffle homes, m.dst = t
    · obtain ⟨m, present, rfl⟩ := moved
      exact ok.atCall_moved regs present (source m present rfl)
    · exact Saves.atCall_temp saved fun m present same => moved ⟨m, present, same⟩
  · rw [ok.behindCall_else safe, withResult_ne result, called home nonzero]
    exact Saves.atCall_else still free

/-- A home is kept where the code of the call leaves it to the probing machine. -/
theorem keeps_of_probing (ok : Saves lower homes pos)
    (same : lower.behindCall homes pos dst (Function.update (lower.atCall homes pos probing.regs) 0 100) home =
      probing.regs home) : lower.Keeps homes pos dst home := by
  by_cases threatened : home ∈ lower.endangered homes pos
  · obtain ⟨t, saved⟩ := ok.keys_mem threatened
    obtain ⟨_, nonzero, _⟩ := Saves.of_mem saved
    rw [ok.behindCall_saved saved] at same
    have result : lower.homeOf dst ≠ some t := by
      intro homed
      rw [withResult_home homed, Function.update_self] at same
      exact probing_result home same.symm
    rw [withResult_ne result, Function.update_of_ne nonzero] at same
    refine .inl ⟨t, saved, result, fun m present taken => ?_⟩
    obtain ⟨i, source, _, _, rfl⟩ := Lower.mem_shuffle.mp present
    have brought := ok.atCall_moved probing.regs present rfl
    rw [taken, same] at brought
    exact congrArg MoveSrc.reg (probing_regs _ _ brought).symm
  · rw [ok.behindCall_else threatened] at same
    have result : lower.homeOf dst ≠ some home := by
      intro homed
      rw [withResult_home homed, Function.update_self] at same
      exact probing_result home same.symm
    rw [withResult_ne result] at same
    have nonzero : home ≠ 0 := by
      rintro rfl
      rw [Function.update_self] at same
      exact probing_result 0 same.symm
    rw [Function.update_of_ne nonzero] at same
    have still : ∀ m ∈ Lower.shuffle homes, m.dst ≠ home := by
      rintro m present taken
      obtain ⟨i, source, found, moved, rfl⟩ := Lower.mem_shuffle.mp present
      have brought := ok.atCall_moved probing.regs present rfl
      rw [taken, same] at brought
      exact moved ((probing_regs _ _ brought).symm.trans taken.symm)
    refine .inr ⟨threatened, nonzero, result, still, fun d saved => threatened ?_⟩
    rw [Saves.atCall_temp saved still] at same
    obtain rfl := probing_regs _ _ same
    exact absurd (Saves.of_mem saved).1.1 (Saves.of_mem saved).2.2.2.1

/-- The code of a call serves exactly where the call fits. -/
theorem emitCall_serves_iff {site : Site} {args : Vector SsaValue 5} (produced : Produced prog)
    (prepared : Prepared petgraph prog lower) (there : prog.insnAt site = some (.call dst func args))
    (emitted : lower.emitCall dst func args.toList (prog.flat site) = .ok code) :
    CallServes prog lower site dst func args.toList code ↔ CallFits prog lower site dst args.toList := by
  have plain : ∀ home, lower.homeOf dst = some home → home ≠ 10 := fun home homed =>
    prepared.plain produced.regular (mem_code_of_insnAt there) rfl rfl homed
  obtain ⟨⟨before, saves⟩, prepares, made⟩ := bind_eq_ok.mp emitted
  cases made
  obtain ⟨required, fits, rfl, moves, run⟩ := beforeCall_run prepares (by simp)
  obtain ⟨moves', run'⟩ := afterCall_run plain fits
  constructor
  · rintro ⟨front, back, same, moved, serves⟩
    obtain ⟨rfl, rfl⟩ := call_split moves (fun i present => moved i (List.mem_append_left _ present)) same
    obtain ⟨vm₁, arrives, placed, behind⟩ := serves probing
    rw [run probing] at arrives
    cases arrives
    have answers : ({ probing with
        regs := lower.atCall (lower.argHomes args.toList) (prog.flat site) probing.regs
        pc := probing.pc + before.length } : Vm).helpers = probing.helpers := rfl
    obtain ⟨vm₂, called, answered⟩ := probing_called func answers
    obtain ⟨vm₃, leaves, result, kept⟩ := behind vm₂ called
    rw [run'] at leaves
    cases leaves
    dsimp only at placed result kept answered
    rw [answered] at result kept
    refine ⟨fun i home found inPlace d saved => ?_, fun home homed threatened => ?_, fun v home read other homed =>
      keeps_of_probing fits (kept v home read other homed)⟩
    · obtain ⟨v, arg, homed⟩ := (argHomes_getElem? required).mp found
      have kept := placed i v home arg homed
      rw [← inPlace, Saves.atCall_temp saved (inPlace_still fits.short found inPlace)] at kept
      obtain rfl := probing_regs _ _ kept
      exact absurd (Saves.of_mem saved).1.1 (Saves.of_mem saved).2.2.2.1
    · obtain ⟨t, saved⟩ := fits.keys_mem threatened
      obtain ⟨⟨live, _⟩, nonzero, _, dead, _⟩ := Saves.of_mem saved
      have apart : lower.homeOf dst ≠ some t := by
        rw [homed]
        rintro ⟨⟩
        exact dead live
      obtain ⟨r, source⟩ := fits.atCall_from t
      have left := result home homed
      rw [fits.behindCall_saved saved, withResult_ne apart, Function.update_of_ne nonzero, source,
        Function.update_self] at left
      exact probing_result r left
  · intro callFits
    refine ⟨before, _, rfl, fun i present => (List.mem_append.mp present).elim (moves i) (moves' i), fun vm =>
      ⟨_, run vm, fun i v home arg homed => ?_, fun vm₂ called => ⟨_, run' vm₂, fun home homed => ?_,
        fun v home read other homed => ?_⟩⟩⟩
    · have found := (argHomes_getElem? required).mpr ⟨v, arg, homed⟩
      by_cases inPlace : home = convention i
      · rw [← inPlace]
        exact Saves.atCall_else (inPlace_still fits.short found inPlace) (callFits.inPlace i home found inPlace)
      · exact fits.atCall_moved vm.regs (Lower.mem_shuffle.mpr ⟨i, home, found, inPlace, rfl⟩) rfl
    · exact (fits.behindCall_else (callFits.result home homed)).trans (withResult_home homed)
    · exact behindCall_kept fits (callFits.kept v home read other homed) fun r nonzero => call_regs called nonzero

/-- `r6 = 7; call 5; r0 += r6; exit`. -/
def calling : SsaProgram where
  blocks := [
    { insns := [.const 0 0, .framePtr 1, .entryCtx 2, .binOp 3 .b64 .mov (.value 0) (.imm 7),
        .call 4 5 #v[2, 0, 0, 0, 0], .binOp 5 .b64 .add (.value 4) (.value 3), .exit 5]
      live := true }]
  edges := []
  entry := 0
  defSites := [some (0, 0), some (0, 1), some (0, 2), some (0, 3), some (0, 4), some (0, 5)]

def callingCode : List Insn := [mov64 4 3, mov64 3 2, mov64 4 2, mov64 5 2, .call 5, mov64 3 4]

/-- The register that is saved to `r4` does not survive the fourth argument. -/
theorem calling_loses : ¬CallServes calling
    (.new calling [some 2, none, some 1, some 3, some 0, some 0] (.compute searching calling)) (0, 4) 4 5
    (#v[2, 0, 0, 0, 0] : Vector SsaValue 5).toList callingCode := by
  have produced : Produced calling :=
    @Produced.built searching [.alu .b64 .mov 6 (.imm 7), .call 5, .alu .b64 .add 0 (.reg 6), .exit]
      ⟨[⟨0, 4⟩], [], 0, [0, 0, 0, 0], [0, 1, 2, 3], [0]⟩ 9 calling searching_documented (by rfl) (by decide +kernel)
  refine (emitCall_serves_iff produced ⟨rfl, rfl, rfl, rfl, rfl⟩ rfl rfl).not.mpr
    fun fits => ?_
  have read : calling.ReadBehind (0, 4) 3 :=
    ⟨⟨.empty, 0⟩, none, fun _ => none, (Interp.Vm.new []).toWorld, .read (by decide)⟩
  rcases fits.kept 3 3 read (by decide) rfl with ⟨t, saved, _, source⟩ | ⟨safe, _⟩
  · have same : (3, t) ∈ [((3 : Reg), (4 : Reg))] := saved
    cases List.mem_singleton.mp same
    cases source ⟨4, .reg 2⟩ (by decide) rfl
  · exact safe (by change (3 : Reg) ∈ [(3 : Reg)]; decide)

end EbpfLab.Ssa
