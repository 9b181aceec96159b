import EbpfLab.Ssa.Alloc
import EbpfLab.Ssa.Regular

/-!
# What allocation promises

The scan hands a version a home that no held range has, but for the one of a left operand that dies
where the version is defined. So two versions with one home have ranges apart.
-/

namespace EbpfLab.Ssa
open Isa FlowGraph Library

variable {prog : SsaProgram} {live : Liveness} {prefs : List Reg} {argPrefs : List (List Reg)}
  {homes out : Homes} {active : List Holding} {u v : SsaValue} {h : Reg} {order : List SsaValue}
  {d d' : Demand} {insn : SsaInsn}

namespace Liveness

def start (live : Liveness) (v : SsaValue) : Nat := (live.range v).1

def stop (live : Liveness) (v : SsaValue) : Nat := (live.range v).2

end Liveness

/-- The version `u` is done where `v` is defined, or `v` is an operation that takes over its home. -/
def Passes (prog : SsaProgram) (live : Liveness) (u v : SsaValue) : Prop :=
  live.stop u ≤ live.start v ∨
    (∃ dst width op rhs, prog.defOf v = some (.binOp dst width op (.value u) rhs)) ∧
      live.stop u = live.start v + 1 ∧ live.start u ≤ live.start v

/-! ### Homes -/

namespace Homes

theorem home_set_self (inside : v < homes.length) : home (homes.set v (some h)) v = some h := by
  simp [home, inside]

theorem home_set_ne (ne : u ≠ v) : home (homes.set v (some h)) u = homes.home u := by
  simp [home, List.getElem?_set_ne ne.symm]

theorem lt_of_home (homed : homes.home v = some h) : v < homes.length := by
  by_contra beyond
  rw [home, List.getElem?_eq_none (Nat.le_of_not_lt beyond)] at homed
  cases homed

end Homes

/-! ### Choosing a home -/

theorem coalescePhiHome_some (chosen : coalescePhiHome prog homes active v = some h) :
    h ≠ 10 ∧ ∀ held ∈ active, held.home ≠ h := by
  unfold coalescePhiHome at chosen
  split at chosen
  · obtain ⟨input, _, found⟩ := List.exists_of_findSome?_eq_some chosen
    obtain ⟨_, free⟩ := Option.filter_eq_some_iff.mp found
    obtain ⟨plain, unheld⟩ := Bool.and_eq_true_iff.mp free
    exact ⟨by simpa using plain, by simpa using unheld⟩
  · cases chosen

theorem coalesceBinopLhs_some (chosen : coalesceBinopLhs prog homes active live v (live.start v) = some h) :
    h ≠ 10 ∧ ∀ held ∈ active, held.home = h →
      (∃ dst width op rhs, prog.defOf v = some (.binOp dst width op (.value held.holder) rhs)) ∧
        held.stop = live.start v + 1 ∧ live.start held.holder ≤ live.start v := by
  unfold coalesceBinopLhs at chosen
  split at chosen
  · rename_i dst width op lhs rhs defined
    obtain ⟨_, free⟩ := Option.filter_eq_some_iff.mp chosen
    obtain ⟨plain, unheld⟩ := Bool.and_eq_true_iff.mp free
    refine ⟨by simpa using plain, fun held present same => ?_⟩
    have dies := List.all_eq_true.mp unheld held present
    simp only [same, bne_self_eq_false, Bool.false_or, Bool.and_eq_true, beq_iff_eq,
      decide_eq_true_eq] at dies
    obtain ⟨⟨⟨rfl, stop⟩, start⟩, _⟩ := dies
    exact ⟨⟨dst, width, op, rhs, defined⟩, stop, start⟩
  · cases chosen

/-- A chosen home is not `r10`, is `r0` only without a call inside, and is held by nobody but a left
operand that dies. -/
theorem chooseHome_some (chosen : chooseHome prog live prefs homes active v = some h) :
    h ≠ 10 ∧ (h = 0 → r0Available live.calls (live.start v) (live.stop v) = true) ∧
      ∀ held ∈ active, held.home = h →
        (∃ dst width op rhs, prog.defOf v = some (.binOp dst width op (.value held.holder) rhs)) ∧
          held.stop = live.start v + 1 ∧ live.start held.holder ≤ live.start v := by
  have unclobbered : ∀ {home : Reg},
      (home != 0 || r0Available live.calls (live.range v).1 (live.range v).2) = true →
      home = 0 → r0Available live.calls (live.start v) (live.stop v) = true := by
    rintro home ok rfl
    have available : r0Available live.calls (live.range v).1 (live.range v).2 = true := by simpa using ok
    exact available
  unfold chooseHome at chosen
  dsimp only at chosen
  rcases Option.or_eq_some_iff.mp chosen with phi | ⟨_, chosen⟩
  · obtain ⟨picked, ok⟩ := Option.filter_eq_some_iff.mp phi
    obtain ⟨plain, free⟩ := coalescePhiHome_some picked
    exact ⟨plain, unclobbered ok, fun held present same => absurd same (free held present)⟩
  rcases Option.or_eq_some_iff.mp chosen with binop | ⟨_, chosen⟩
  · obtain ⟨picked, ok⟩ := Option.filter_eq_some_iff.mp binop
    obtain ⟨plain, free⟩ := coalesceBinopLhs_some picked
    exact ⟨plain, unclobbered ok, free⟩
  have allowed : h ≠ 10 ∧ ((active.all fun held => held.home != h) &&
      (h != 0 || r0Available live.calls (live.range v).1 (live.range v).2)) = true := by
    rcases Option.or_eq_some_iff.mp chosen with pref | ⟨_, chosen⟩
    · have picked := List.find?_some pref
      obtain ⟨offered, ok⟩ := Bool.and_eq_true_iff.mp picked
      refine ⟨fun frame => ?_, ok⟩
      rw [frame] at offered
      exact absurd offered (by decide)
    · have picked := List.find?_some chosen
      refine ⟨fun frame => ?_, picked⟩
      have offered := List.mem_of_find?_eq_some chosen
      rw [frame] at offered
      exact absurd offered (by decide)
  obtain ⟨free, ok⟩ := Bool.and_eq_true_iff.mp allowed.2
  refine ⟨allowed.1, unclobbered ok, fun held present same => ?_⟩
  exact absurd same (by simpa using List.all_eq_true.mp free held present)

/-! ### Demand -/

/-- A pinned home is that of a pseudo, and is held. -/
structure Demand.Pinned (prog : SsaProgram) (live : Liveness) (d : Demand) : Prop where
  homes_length : d.homes.length = prog.defSites.length
  used_length : d.used.length = prog.defSites.length
  pseudo : ∀ v h, d.homes.home v = some h →
    h = 10 ∧ .framePtr v ∈ prog.code ∨ h = 1 ∧ .entryCtx v ∈ prog.code
  held : ∀ v h, d.homes.home v = some h → { home := h, stop := live.stop v, holder := v } ∈ d.active

namespace Demand

theorem isUsed_use (used : d.isUsed v = true) : (d.use u).isUsed v = true := by
  unfold isUsed use at *
  by_cases same : u = v
  · subst same
    by_cases inside : u < d.used.length
    · simp [inside]
    · rw [List.getD_eq_getElem?_getD, List.getElem?_eq_none (Nat.le_of_not_lt inside)] at used
      cases used
  · rwa [List.getD_eq_getElem?_getD, List.getElem?_set_ne same, ← List.getD_eq_getElem?_getD]

theorem isUsed_self (inside : v < d.used.length) : (d.use v).isUsed v = true := by
  simp [isUsed, use, inside]

/-- What a change of the uses and preferences leaves. -/
theorem Pinned.congr (pinned : Pinned prog live d) (homes : d'.homes = d.homes)
    (active : d'.active = d.active) (used : d'.used.length = d.used.length) : Pinned prog live d' where
  homes_length := by rw [homes, pinned.homes_length]
  used_length := by rw [used, pinned.used_length]
  pseudo v h homed := pinned.pseudo v h (by rwa [homes] at homed)
  held v h homed := by
    rw [active]
    exact pinned.held v h (by rwa [homes] at homed)

theorem Pinned.use (pinned : Pinned prog live d) : Pinned prog live (d.use v) :=
  pinned.congr rfl rfl (by simp [Demand.use])

theorem Pinned.pin (pinned : Pinned prog live d)
    (pseudo : h = 10 ∧ .framePtr v ∈ prog.code ∨ h = 1 ∧ .entryCtx v ∈ prog.code) :
    Pinned prog live (d.pin live v h) := by
  unfold Demand.pin
  split
  · refine ⟨by simp [pinned.homes_length], pinned.used_length, fun u k homed => ?_, fun u k homed => ?_⟩
    all_goals
      by_cases same : u = v
      · subst same
        have inside := Homes.lt_of_home homed
        rw [List.length_set] at inside
        have fresh := Homes.home_set_self (h := h) inside
        rw [homed] at fresh
        cases fresh
        first
          | exact pseudo
          | exact List.mem_append_right _ (List.mem_singleton.mpr rfl)
      · rw [Homes.home_set_ne same] at homed
        first
          | exact pinned.pseudo u k homed
          | exact List.mem_append_left _ (pinned.held u k homed)
  · exact pinned

/-- Preferences change nothing else. -/
theorem prefer_same (args : List SsaValue) :
    (d.prefer args).homes = d.homes ∧ (d.prefer args).active = d.active ∧
      (d.prefer args).used = d.used := by
  unfold prefer
  generalize args.zipIdx = places
  induction places generalizing d with
  | nil => exact ⟨rfl, rfl, rfl⟩
  | cons place places ih =>
    obtain ⟨homes, active, used⟩ := ih (d :=
      { d with argPrefs := d.argPrefs.modify place.1 (· ++ [Fin.ofNat 11 (place.2 + 1)]) })
    exact ⟨homes, active, used⟩

theorem Pinned.scan (pinned : Pinned prog live d) (present : insn ∈ prog.code) :
    Pinned prog live (d.scan prog live insn) := by
  cases insn with
  | load dst size base offset =>
    cases dst with
    | none => exact pinned
    | some v => exact pinned.use
  | binOp dst width op lhs rhs =>
    cases op with
    | byteSwap endian =>
      unfold Demand.scan
      dsimp only
      split
      · exact pinned
      · exact pinned.use
    | _ => exact pinned
  | call dst func args =>
    obtain ⟨homes, active, used⟩ := prefer_same (d := d) args.toList
    exact pinned.congr homes active (congrArg List.length used)
  | framePtr dst => exact pinned.pin (Or.inl ⟨rfl, present⟩)
  | entryCtx dst => exact pinned.pin (Or.inr ⟨rfl, present⟩)
  | _ => exact pinned

theorem isUsed_scan (used : d.isUsed v = true) : (d.scan prog live insn).isUsed v = true := by
  have pins : ∀ dst h, (d.pin live dst h).isUsed v = true := by
    intro dst h
    unfold pin
    split <;> exact used
  cases insn with
  | load dst size base offset =>
    cases dst with
    | none => exact used
    | some v => exact isUsed_use used
  | binOp dst width op lhs rhs =>
    cases op with
    | byteSwap endian =>
      unfold scan
      dsimp only
      split
      · exact used
      · exact isUsed_use used
    | _ => exact used
  | call dst func args =>
    unfold isUsed at *
    rw [show (d.scan prog live (.call dst func args)) = d.prefer args.toList from rfl,
      (prefer_same args.toList).2.2, used]
  | framePtr dst => exact pins dst 10
  | entryCtx dst => exact pins dst 1
  | _ => exact used

theorem isUsed_foldl_scan (insns : List SsaInsn) (used : d.isUsed v = true) :
    (insns.foldl (scan prog live) d).isUsed v = true := by
  induction insns generalizing d with
  | nil => exact used
  | cons insn insns ih => exact ih (isUsed_scan used)

theorem isUsed_foldl_use (uses : List (Nat × SsaValue)) :
    (d.isUsed v = true → (uses.foldl (fun d use => d.use use.2) d).isUsed v = true) ∧
      (v < d.used.length → (∃ use ∈ uses, use.2 = v) →
        (uses.foldl (fun d use => d.use use.2) d).isUsed v = true) := by
  induction uses generalizing d with
  | nil => exact ⟨id, fun _ ⟨_, absent, _⟩ => absurd absent List.not_mem_nil⟩
  | cons use uses ih =>
    obtain ⟨kept, marked⟩ := ih (d := d.use use.2)
    refine ⟨fun used => kept (isUsed_use used), fun inside ⟨other, present, same⟩ => ?_⟩
    rcases List.mem_cons.mp present with rfl | later
    · subst same
      exact kept (isUsed_self inside)
    · exact marked (by simpa [Demand.use]) ⟨other, later, same⟩

/-- Every read of a version in range demands a home. -/
theorem collect_used (inside : v < prog.defSites.length)
    (read : ∃ use ∈ live.uses ++ live.starts, use.2 = v) : (collect prog live).isUsed v = true :=
  isUsed_foldl_scan _ ((isUsed_foldl_use _).2 (by simpa using inside) read)

theorem collect_pinned : Pinned prog live (collect prog live) := by
  have scans : ∀ (insns : List SsaInsn) (d : Demand), (∀ i ∈ insns, i ∈ prog.code) → Pinned prog live d →
      Pinned prog live (insns.foldl (scan prog live) d) := by
    intro insns
    induction insns with
    | nil => exact fun _ _ pinned => pinned
    | cons insn insns ih =>
      intro d inside pinned
      exact ih _ (fun i later => inside i (List.mem_cons_of_mem _ later))
        (pinned.scan (inside insn List.mem_cons_self))
  have marks : ∀ (uses : List (Nat × SsaValue)) (d : Demand), Pinned prog live d →
      Pinned prog live (uses.foldl (fun d use => d.use use.2) d) := by
    intro uses
    induction uses with
    | nil => exact fun _ pinned => pinned
    | cons use uses ih => exact fun d pinned => ih _ pinned.use
  have unhomed : ∀ v h, Homes.home (List.replicate prog.defSites.length none) v ≠ some h := by
    intro v h homed
    unfold Homes.home at homed
    rw [List.getElem?_replicate] at homed
    split at homed <;> cases homed
  refine scans _ _ (fun i => id) (marks _ _ ⟨List.length_replicate, List.length_replicate, ?_, ?_⟩)
  · exact fun v h homed => absurd homed (unhomed v h)
  · exact fun v h homed => absurd homed (unhomed v h)

end Demand

/-! ### The scan -/

theorem assignHomes_cons (ok : assignHomes prog live argPrefs (v :: order) homes active = .ok out) :
    ∃ h, chooseHome prog live (argPrefs.getD v []) homes
        (active.filter fun held => held.stop > live.start v) v = some h ∧
      assignHomes prog live argPrefs order (homes.set v (some h))
        ((active.filter fun held => held.stop > live.start v) ++
          [{ home := h, stop := live.stop v, holder := v }]) = .ok out := by
  rw [assignHomes] at ok
  split at ok
  · cases ok
  · rename_i h chosen
    exact ⟨h, chosen, ok⟩

/-- What a scan makes of homes that are held. -/
structure Scanned (prog : SsaProgram) (live : Liveness) (order : List SsaValue) (homes out : Homes) :
    Prop where
  kept : ∀ v h, homes.home v = some h → out.home v = some h
  came : ∀ v h, out.home v = some h → homes.home v = some h ∨ v ∈ order
  homed : ∀ v ∈ order, ∃ h, out.home v = some h
  plain : ∀ v ∈ order, ∀ h, out.home v = some h →
    h ≠ 10 ∧ (h = 0 → r0Available live.calls (live.start v) (live.stop v) = true)
  apart : ∀ u, ∀ v ∈ order, ∀ h, u ≠ v → out.home u = some h → out.home v = some h →
    Passes prog live u v ∨ Passes prog live v u

/-- The scan, by induction on the order: every home is held while its range lasts. -/
theorem assignHomes_scanned (sorted : order.Pairwise fun a b => live.start a ≤ live.start b)
    (nodup : order.Nodup) (fresh : ∀ v ∈ order, v < homes.length ∧ homes.home v = none)
    (held : ∀ u h, homes.home u = some h → ∀ v ∈ order, live.start v < live.stop u →
      { home := h, stop := live.stop u, holder := u } ∈ active)
    (ok : assignHomes prog live argPrefs order homes active = .ok out) :
    Scanned prog live order homes out := by
  induction order generalizing homes active with
  | nil =>
    cases ok
    exact ⟨fun _ _ => id, fun _ _ => Or.inl, fun _ absent => absurd absent List.not_mem_nil,
      fun _ absent => absurd absent List.not_mem_nil, fun _ _ absent => absurd absent List.not_mem_nil⟩
  | cons w order ih =>
    obtain ⟨k, chosen, ok⟩ := assignHomes_cons ok
    obtain ⟨below, sorted⟩ := List.pairwise_cons.mp sorted
    obtain ⟨unlisted, nodup⟩ := List.nodup_cons.mp nodup
    obtain ⟨inside, unhomed⟩ := fresh w List.mem_cons_self
    have self := Homes.home_set_self (h := k) inside
    have rest := ih sorted nodup (fun v later => by
        obtain ⟨inside, unhomed⟩ := fresh v (List.mem_cons_of_mem _ later)
        have ne : v ≠ w := fun same => unlisted (same ▸ later)
        exact ⟨by simpa using inside, by rwa [Homes.home_set_ne ne]⟩)
      (fun u h homed v later overlaps => ?_) ok
    · have placed := rest.kept w k self
      obtain ⟨plain, available, free⟩ := chooseHome_some chosen
      refine ⟨fun v h homed => ?_, fun v h homed => ?_, fun v listed => ?_, fun v listed h homed => ?_,
        fun u v listed h ne left right => ?_⟩
      · have ne : v ≠ w := by
          rintro rfl
          rw [unhomed] at homed
          cases homed
        exact rest.kept v h (by rwa [Homes.home_set_ne ne])
      · by_cases same : v = w
        · exact Or.inr (List.mem_cons.mpr (Or.inl same))
        · rw [← Homes.home_set_ne (h := k) same]
          exact (rest.came v h homed).imp id (List.mem_cons_of_mem _)
      · rcases List.mem_cons.mp listed with rfl | later
        · exact ⟨k, placed⟩
        · exact rest.homed v later
      · rcases List.mem_cons.mp listed with rfl | later
        · rw [placed] at homed
          cases homed
          exact ⟨plain, available⟩
        · exact rest.plain v later h homed
      · rcases List.mem_cons.mp listed with rfl | later
        · rw [placed] at right
          cases right
          rcases rest.came u k left with earlier | later
          · rw [Homes.home_set_ne ne] at earlier
            by_cases overlaps : live.start v < live.stop u
            · have kept : ({ home := k, stop := live.stop u, holder := u } : Holding) ∈
                  active.filter fun held => held.stop > live.start v :=
                List.mem_filter.mpr
                  ⟨held u k earlier v List.mem_cons_self overlaps, decide_eq_true overlaps⟩
              exact Or.inl (Or.inr (free _ kept rfl))
            · exact Or.inl (Or.inl (Nat.le_of_not_lt overlaps))
          · exact (rest.apart v u later k ne.symm placed left).symm
        · exact rest.apart u v later h ne left right
    · by_cases same : u = w
      · subst same
        rw [self] at homed
        cases homed
        exact List.mem_append_right _ (List.mem_singleton.mpr rfl)
      · rw [Homes.home_set_ne same] at homed
        have active := held u h homed v (List.mem_cons_of_mem _ later) overlaps
        exact List.mem_append_left _ (List.mem_filter.mpr
          ⟨active, by simpa using (below v later).trans_lt overlaps⟩)

/-! ### The allocation -/

theorem scanOrder_sorted :
    (scanOrder prog live d).Pairwise fun a b => live.start a ≤ live.start b := by
  have total : Std.Total fun a b : SsaValue => (live.range a).1 ≤ (live.range b).1 :=
    ⟨fun a b => Nat.le_total _ _⟩
  have trans : IsTrans SsaValue fun a b => (live.range a).1 ≤ (live.range b).1 :=
    ⟨fun _ _ _ => Nat.le_trans⟩
  exact List.pairwise_insertionSort _ _

theorem mem_scanOrder : v ∈ scanOrder prog live d ↔
    v < prog.defSites.length ∧ d.isUsed v = true ∧ d.homes.home v = none := by
  unfold scanOrder
  rw [List.mem_insertionSort, List.mem_filter, List.mem_range]
  simp

theorem scanOrder_nodup : (scanOrder prog live d).Nodup :=
  (List.perm_insertionSort _ _).nodup_iff.mpr (List.nodup_range.filter _)

section

variable (ok : allocate prog live = .ok homes)
include ok

theorem allocate_scanned : Scanned prog live (scanOrder prog live (.collect prog live))
    (Demand.collect prog live).homes homes := by
  have pinned : Demand.Pinned prog live (.collect prog live) := Demand.collect_pinned
  refine assignHomes_scanned scanOrder_sorted scanOrder_nodup (fun v listed => ?_)
    (fun u h homed _ _ _ => pinned.held u h homed) ok
  obtain ⟨inside, _, unhomed⟩ := mem_scanOrder.mp listed
  exact ⟨by rwa [pinned.homes_length], unhomed⟩

/-- A home is that of a pseudo, or it is not `r10`, and `r0` only without a call inside the range. -/
theorem allocate_home (homed : homes.home v = some h) :
    (h = 10 ∧ .framePtr v ∈ prog.code ∨ h = 1 ∧ .entryCtx v ∈ prog.code) ∨
      h ≠ 10 ∧ (h = 0 → r0Available live.calls (live.start v) (live.stop v) = true) := by
  have scanned := allocate_scanned ok
  rcases scanned.came v h homed with pinned | listed
  · exact Or.inl (Demand.collect_pinned.pseudo v h pinned)
  · exact Or.inr (scanned.plain v listed h homed)

/-- A version in range that is read somewhere has a home. -/
theorem allocate_read (inside : v < prog.defSites.length)
    (read : ∃ use ∈ live.uses ++ live.starts, use.2 = v) : ∃ h, homes.home v = some h := by
  have scanned := allocate_scanned ok
  cases pinned : (Demand.collect prog live).homes.home v with
  | some h => exact ⟨h, scanned.kept v h pinned⟩
  | none => exact scanned.homed v (mem_scanOrder.mpr ⟨inside, Demand.collect_used inside read, pinned⟩)

/-- Versions with one home have ranges apart, or the later takes the home over from its left operand. -/
theorem allocate_apart (distinct : Distinct prog.code) (ne : u ≠ v) (left : homes.home u = some h)
    (right : homes.home v = some h) : Passes prog live u v ∨ Passes prog live v u := by
  have scanned := allocate_scanned ok
  rcases scanned.came v h right with pinnedV | listed
  · rcases scanned.came u h left with pinnedU | listed
    · have pseudoV := Demand.collect_pinned.pseudo v h pinnedV
      have pseudoU := Demand.collect_pinned.pseudo u h pinnedU
      rcases pseudoV with ⟨rfl, frame⟩ | ⟨rfl, ctx⟩
      · rcases pseudoU with ⟨_, frame'⟩ | ⟨absurd_, _⟩
        · exact absurd (distinct.framePtr u v frame' frame) ne
        · cases absurd_
      · rcases pseudoU with ⟨absurd_, _⟩ | ⟨_, ctx'⟩
        · cases absurd_
        · exact absurd (distinct.entryCtx u v ctx' ctx) ne
    · exact (scanned.apart v u listed h ne.symm right left).symm
  · exact scanned.apart u v listed h ne left right

end

end EbpfLab.Ssa
