import EbpfLab.Ssa.CopyProp
import Mathlib.Data.List.Perm.Subperm

/-!
# Dead-code elimination

The marked instructions are closed under the definitions they use, so a definition that is swept is
used by none that stays; it is pure, and may be skipped.
-/

namespace EbpfLab.Ssa
open Isa FlowGraph Library Interp

variable {m : Machine} {prog : SsaProgram} {insn i : SsaInsn} {pre insns : List SsaInsn} {block n : Nat}
  {u v : SsaValue} {env : Env} {world : World} {b : SsaBlock} {site : Site} {c : Int64}

theorem flatMap_sublist_of {α β : Type} {f g : α → List β} (xs : List α)
    (each : ∀ x, (f x).Sublist (g x)) : (xs.flatMap f).Sublist (xs.flatMap g) := by
  induction xs with
  | nil => exact .slnil
  | cons x xs ih => exact (each x).append ih

/-! ### Recording definitions -/

theorem foldl_record {sites : List (Option Site)} {listed : List (Site × SsaInsn)}
    (only : ∀ site' insn', (site', insn') ∈ listed → insn'.defDst = some v → site' = site)
    (inside : v < sites.length)
    (held : sites[v]? = some (some site) ∨ ∃ insn, (site, insn) ∈ listed ∧ insn.defDst = some v) :
    (listed.foldl (fun sites (site, insn) =>
      match insn.defDst with
      | some dst => sites.set dst (some site)
      | none => sites) sites)[v]? = some (some site) := by
  induction listed generalizing sites with
  | nil => exact held.resolve_right (by rintro ⟨_, present, _⟩; cases present)
  | cons entry rest ih =>
    obtain ⟨site', insn'⟩ := entry
    have later : ∀ site' insn', (site', insn') ∈ rest → insn'.defDst = some v → site' = site :=
      fun site' insn' present => only site' insn' (List.mem_cons_of_mem _ present)
    have rest_held : (∃ insn, (site, insn) ∈ (site', insn') :: rest ∧ insn.defDst = some v) →
        insn'.defDst = some v ∨ ∃ insn, (site, insn) ∈ rest ∧ insn.defDst = some v := by
      rintro ⟨insn, present, defines⟩
      rcases List.mem_cons.mp present with same | present
      · cases same
        exact Or.inl defines
      · exact Or.inr ⟨insn, present, defines⟩
    rw [List.foldl_cons]
    cases defines : insn'.defDst with
    | none =>
      dsimp only
      rw [defines]
      exact ih later inside (held.imp_right fun some_entry =>
        (rest_held some_entry).resolve_left (by rw [defines]; nofun))
    | some dst =>
      dsimp only
      rw [defines]
      refine ih later (by rwa [List.length_set]) ?_
      by_cases here : dst = v
      · subst here
        obtain rfl := only site' insn' List.mem_cons_self defines
        exact Or.inl (by rw [List.getElem?_set_self inside])
      · rw [List.getElem?_set_ne here]
        exact held.imp_right fun some_entry => (rest_held some_entry).resolve_left fun same =>
          here (Option.some.inj (defines.symm.trans same))

theorem rebuild_insnsOf : prog.rebuildDefSites.insnsOf block = prog.insnsOf block := rfl

/-- Rebuilding records the place of every definition of a live block. -/
theorem rebuild_recorded (distinct : (prog.blocks.flatMap fun b => defs b.insns).Nodup)
    (inside : v < prog.defSites.length) (live : prog.isLive block) (here : prog.At block pre insn)
    (defines : insn.defDst = some v) :
    prog.rebuildDefSites.defSites[v]? = some (some (block, pre.length)) := by
  have present : ((block, pre.length), insn) ∈ prog.liveSites := by
    obtain ⟨post, split⟩ := here
    exact mem_liveSites.mpr ⟨live, by rw [split]; simp⟩
  refine foldl_record (fun site' insn' present' defines' => ?_) (by rwa [List.length_replicate])
    (Or.inr ⟨insn, present, defines⟩)
  obtain ⟨_, found'⟩ := mem_liveSites.mp present'
  have there := at_of_getElem found'
  obtain ⟨same, same', _⟩ := place_unique distinct here there defines defines'
  obtain ⟨bound, _⟩ := List.getElem?_eq_some_iff.mp found'
  rw [same', List.length_take, Nat.min_eq_left (Nat.le_of_lt bound), same]

/-! ### Marks -/

/-- The places of all instructions. -/
def SsaProgram.sites (prog : SsaProgram) : List Site :=
  prog.blocks.zipIdx.flatMap fun (b, block) => (List.range b.insns.length).map fun i => (block, i)

theorem mem_sites : site ∈ prog.sites ↔ (prog.insnAt site).isSome := by
  obtain ⟨block, n⟩ := site
  simp only [SsaProgram.sites, SsaProgram.insnAt, List.mem_flatMap, List.mem_map, List.mem_range,
    Prod.exists, Prod.mk.injEq]
  constructor
  · rintro ⟨b, _, listed, _, bound, rfl, rfl⟩
    rw [List.mem_zipIdx_iff_getElem?.mp listed, Option.bind_some,
      List.getElem?_eq_some_iff.mpr ⟨bound, rfl⟩]
    rfl
  · intro present
    cases found : prog.blocks[block]? with
    | none =>
      rw [found] at present
      cases present
    | some b =>
      rw [found] at present
      refine ⟨b, block, List.mem_zipIdx_iff_getElem?.mpr found, n, ?_, rfl, rfl⟩
      obtain ⟨insn, at_n⟩ := Option.isSome_iff_exists.mp present
      exact (List.getElem?_eq_some_iff.mp at_n).1

theorem length_sites : prog.sites.length = prog.size := by
  have count : ∀ (blocks : List SsaBlock) (start : Nat),
      ((blocks.zipIdx start).flatMap fun (b, block) =>
        (List.range b.insns.length).map fun i => (block, i)).length =
        (blocks.map fun b => b.insns.length).sum := by
    intro blocks
    induction blocks with
    | nil => exact fun _ => rfl
    | cons b blocks ih =>
      intro start
      rw [List.zipIdx_cons, List.flatMap_cons, List.length_append, ih, List.length_map, List.length_range]
      rfl
  exact count prog.blocks 0

theorem nodup_sites : prog.sites.Nodup := by
  refine List.nodup_flatMap.mpr ⟨fun entry _ => ?_, ?_⟩
  · exact (List.nodup_range).map fun i j same => (Prod.mk.inj same).2
  · have apart : (prog.blocks.zipIdx.map Prod.snd).Pairwise (· ≠ ·) := by
      rw [List.zipIdx_map_snd]
      exact List.nodup_range'
    refine (List.pairwise_map.mp apart).imp fun {x y} other => ?_
    intro site first second
    obtain ⟨_, _, rfl⟩ := List.mem_map.mp first
    obtain ⟨_, _, same⟩ := List.mem_map.mp second
    exact other (Prod.mk.inj same).1.symm

/-- The instructions the mark phase starts from. -/
abbrev roots (prog : SsaProgram) : List Site :=
  (prog.liveSites.filter fun (_, insn) => rooted prog insn).map Prod.fst

theorem mem_roots : site ∈ roots prog ↔ ∃ insn, prog.isLive site.1 ∧
    (prog.insnsOf site.1)[site.2]? = some insn ∧ rooted prog insn := by
  constructor
  · intro listed
    obtain ⟨⟨site, insn⟩, kept, rfl⟩ := List.mem_map.mp listed
    obtain ⟨present, root⟩ := List.mem_filter.mp kept
    obtain ⟨live, found⟩ := mem_liveSites.mp present
    exact ⟨insn, live, found, root⟩
  · rintro ⟨insn, live, found, root⟩
    exact List.mem_map.mpr ⟨(site, insn),
      List.mem_filter.mpr ⟨mem_liveSites.mpr ⟨live, found⟩, root⟩, rfl⟩

theorem insnAt_eq : prog.insnAt site = (prog.insnsOf site.1)[site.2]? := by
  unfold SsaProgram.insnAt SsaProgram.insnsOf
  cases prog.blocks[site.1]? with
  | none => rfl
  | some b => rfl

theorem nodup_liveSites : (prog.liveSites.map Prod.fst).Nodup := by
  have sub : (prog.liveSites.map Prod.fst).Sublist prog.sites := by
    unfold SsaProgram.liveSites SsaProgram.sites
    rw [List.map_flatMap]
    refine flatMap_sublist_of _ fun entry => ?_
    obtain ⟨b, block⟩ := entry
    have all : (SsaProgram.blockSites block b).map Prod.fst =
        (List.range b.insns.length).map fun i => (block, i) := by
      unfold SsaProgram.blockSites
      rw [List.map_map, List.range_eq_range', ← List.zipIdx_map_snd 0 b.insns, List.map_map]
      rfl
    dsimp only
    split
    · rw [all]
    · exact List.nil_sublist _
  exact nodup_sites.sublist sub

/-- The mark phase has fuel for every instruction. -/
theorem roots_pending : pending prog.sites (roots prog).reverse (roots prog) ≤ prog.size := by
  have nodup : (roots prog).Nodup :=
    nodup_liveSites.sublist (List.filter_sublist.map Prod.fst)
  have inside : ∀ x ∈ roots prog, x ∈ prog.sites := by
    intro x root
    obtain ⟨i, _, present, _⟩ := mem_roots.mp root
    rw [mem_sites, insnAt_eq, present]
    rfl
  unfold pending
  rw [List.length_reverse, ← length_sites,
    List.length_eq_length_filter_add (l := prog.sites) fun x => decide (x ∈ roots prog)]
  have fewer : (roots prog).length ≤ (prog.sites.filter fun x => decide (x ∈ roots prog)).length :=
    (List.subperm_of_subset nodup fun x root =>
      List.mem_filter.mpr ⟨inside x root, by simpa using root⟩).length_le
  simp only [decide_not]
  omega

theorem usedSites_inside (x y : Site) (used : y ∈ usedSites prog x) : y ∈ prog.sites := by
  unfold usedSites at used
  cases present : prog.insnAt x with
  | none =>
    rw [present] at used
    cases used
  | some insn =>
    rw [present] at used
    obtain ⟨_, _, index⟩ := List.mem_filterMap.mp used
    rw [mem_sites]
    exact (Option.filter_eq_some_iff.mp index).2

/-- The marks are closed: a marked instruction has the definitions it uses marked. -/
theorem marks_closed (marked : site ∈ marks prog) (found : prog.insnAt site = some insn)
    (use : u ∈ insn.uses) {def_site : Site} (recorded : prog.defIndex u = some def_site) :
    def_site ∈ marks prog := by
  refine markFrom_closed roots_pending usedSites_inside (fun x root => Or.inl (by simpa using root))
    site marked def_site ?_
  unfold usedSites
  rw [found]
  exact List.mem_filterMap.mpr ⟨u, use, recorded⟩

theorem roots_marked (root : site ∈ roots prog) : site ∈ marks prog :=
  subset_markFrom _ _ _ site root

/-! ### The sweep -/

/-- The marked instructions of the live blocks. -/
abbrev swept (prog : SsaProgram) : SsaProgram :=
  { prog with blocks := prog.blocks.zipIdx.map fun (b, block) => sweepBlock (marks prog) b block }

/-- An instruction that stays, with the definitions it uses. -/
def Spared (prog : SsaProgram) (i i' : SsaInsn) : Prop :=
  i' = i ∧ (i.isPhi = false → ∀ u ∈ i.uses, Kept (swept prog) u) ∧
    ∀ dst inputs, i = .phi dst inputs → ∀ u,
      ((none, u) ∈ inputs ∨ ∃ p, prog.Reaches p ∧ (some p, u) ∈ inputs) → Kept (swept prog) u

/-- An instruction that may go. -/
def Dropped (prog : SsaProgram) (i : SsaInsn) : Prop :=
  rooted prog i = false ∧ ∀ v, i.defDst = some v → ¬ Kept (swept prog) v

theorem swept_block (block : Nat) :
    (swept prog).insnsOf block = (if prog.isLive block then
        ((prog.insnsOf block).zipIdx.filter fun (_, i) => (marks prog).contains (block, i)).map Prod.fst
      else []) ∧ (swept prog).isLive block = prog.isLive block := by
  unfold SsaProgram.insnsOf SsaProgram.isLive
  rw [List.getElem?_map, List.getElem?_zipIdx]
  cases prog.blocks[block]? with
  | none => exact ⟨by simp, rfl⟩
  | some b =>
    rw [Nat.zero_add]
    exact ⟨rfl, rfl⟩

theorem mem_swept : i ∈ (swept prog).insnsOf block ↔ prog.isLive block ∧
    ∃ n, (prog.insnsOf block)[n]? = some i ∧ (block, n) ∈ marks prog := by
  rw [(swept_block block).1]
  constructor
  · intro present
    split at present
    · rename_i live
      obtain ⟨⟨i, n⟩, kept, rfl⟩ := List.mem_map.mp present
      obtain ⟨listed, marked⟩ := List.mem_filter.mp kept
      exact ⟨live, n, List.mem_zipIdx_iff_getElem?.mp listed, by simpa using marked⟩
    · cases present
  · rintro ⟨live, n, found, marked⟩
    rw [if_pos live]
    exact List.mem_map.mpr ⟨(i, n), List.mem_filter.mpr
      ⟨List.mem_zipIdx_iff_getElem?.mpr found, by simpa using marked⟩, rfl⟩

theorem swept_sublist (block : Nat) : ((swept prog).insnsOf block).Sublist (prog.insnsOf block) := by
  rw [(swept_block block).1]
  split
  · have whole := List.Sublist.map Prod.fst
      (List.filter_sublist (l := (prog.insnsOf block).zipIdx)
        (p := fun entry => (marks prog).contains (block, entry.2)))
    rwa [List.zipIdx_map_fst] at whole
  · exact List.nil_sublist _

theorem swept_defs (block : Nat) :
    (defs ((swept prog).insnsOf block)).Sublist (defs (prog.insnsOf block)) :=
  (swept_sublist block).filterMap _

theorem thinned_filter {same : SsaInsn → SsaInsn → Prop} {drop : SsaInsn → Prop}
    (keep : Nat → Bool) (n : Nat)
    (stays : ∀ k i, insns[k]? = some i → keep (n + k) = true → same i i)
    (goes : ∀ k i, insns[k]? = some i → keep (n + k) = false → drop i) :
    Thinned same drop insns (((insns.zipIdx n).filter fun (_, i) => keep i).map Prod.fst) := by
  induction insns generalizing n with
  | nil => exact .nil
  | cons i insns ih =>
    have rest := ih (n + 1)
      (fun k j found kept => stays (k + 1) j found (by rwa [Nat.add_comm k, ← Nat.add_assoc]))
      (fun k j found kept => goes (k + 1) j found (by rwa [Nat.add_comm k, ← Nat.add_assoc]))
    rw [List.zipIdx_cons, List.filter_cons]
    cases kept : keep n with
    | true =>
      rw [if_pos kept]
      exact .keep (stays 0 i rfl kept) rest
    | false =>
      rw [if_neg (by simp [kept])]
      exact .drop (goes 0 i rfl kept) rest

/-- The recorded place of a version of a live block is that of its definition. -/
theorem defIndex_eq (wf : prog.WellFormed) (live : prog.isLive block) (here : prog.At block pre i)
    (defines : i.defDst = some v) : prog.defIndex v = some (block, pre.length) := by
  unfold SsaProgram.defIndex
  rw [wf.recorded block pre i v live here defines]
  obtain ⟨post, split⟩ := here
  exact Option.filter_eq_some_iff.mpr ⟨rfl, by rw [insnAt_eq, split]; simp⟩

/-- A definition that a marked instruction uses stays. -/
theorem kept_of_use (wf : prog.WellFormed) {d : Nat} (found : (prog.insnsOf block)[n]? = some i)
    (marked : (block, n) ∈ marks prog) (use : u ∈ i.uses) (live : prog.isLive d)
    (defined : u ∈ defs (prog.insnsOf d)) : Kept (swept prog) u := by
  obtain ⟨j, present, defines⟩ := mem_defs.mp defined
  obtain ⟨pre, here⟩ := SsaProgram.at_of_mem present
  have marked' := marks_closed marked (insnAt_eq.trans found) use (defIndex_eq wf live here defines)
  obtain ⟨post, split⟩ := here
  exact ⟨d, mem_defs.mpr ⟨j, mem_swept.mpr ⟨live, pre.length, by rw [split]; simp, marked'⟩, defines⟩⟩

/-- A version whose definition stays has it marked. -/
theorem marked_of_kept (wf : prog.WellFormed) (kept : Kept (swept prog) v) (here : prog.At block pre i)
    (defines : i.defDst = some v) : (block, pre.length) ∈ marks prog := by
  obtain ⟨d, defined⟩ := kept
  obtain ⟨j, present, defines'⟩ := mem_defs.mp defined
  obtain ⟨_, n, found, marked⟩ := mem_swept.mp present
  obtain ⟨rfl, rfl, _⟩ := wf.same_place here (at_of_getElem found) defines defines'
  obtain ⟨bound, _⟩ := List.getElem?_eq_some_iff.mp found
  rwa [List.length_take, Nat.min_eq_left (Nat.le_of_lt bound)]

theorem swept_thinned (wf : prog.WellFormed) (reached : prog.Reaches block) :
    Thinned (Spared prog) (Dropped prog) (prog.insnsOf block) ((swept prog).insnsOf block) := by
  have live := wf.live block reached
  rw [(swept_block block).1, if_pos live]
  refine thinned_filter (fun i => (marks prog).contains (block, i)) 0
    (fun k i found kept => ?_) (fun k i found kept => ?_) <;> rw [Nat.zero_add] at kept
  · have marked : (block, k) ∈ marks prog := by simpa using kept
    have here := at_of_getElem found
    refine ⟨rfl, fun plain u use => ?_, ?_⟩
    · have available := wf.uses _ _ _ reached here plain u use
      obtain ⟨post, split⟩ := here
      obtain ⟨d, reached', defined⟩ := SsaProgram.Available.defined
        (split.symm ▸ available.later) reached
      exact kept_of_use wf found marked use (wf.live d reached') defined
    · rintro dst inputs rfl u (listed | ⟨p, before, listed⟩)
      · obtain ⟨j, earlier, _, defines⟩ := wf.startUses _ _ _ _ reached here u listed
        obtain ⟨post, split⟩ := here
        obtain ⟨front, there⟩ := at_earlier split earlier
        exact kept_of_use wf found marked (List.mem_map.mpr ⟨_, listed, rfl⟩) live
          (there.dst_mem defines)
      · obtain ⟨d, reached', defined⟩ :=
          (wf.inputUses _ _ _ _ reached here p u listed before).defined before
        exact kept_of_use wf found marked (List.mem_map.mpr ⟨_, listed, rfl⟩) (wf.live d reached') defined
  · have unmarked : (block, k) ∉ marks prog := by simpa using kept
    refine ⟨?_, fun v defines kept => unmarked ?_⟩
    · rw [Bool.eq_false_iff]
      exact fun root => unmarked (roots_marked (mem_roots.mpr ⟨i, live, found, root⟩))
    · have marked := marked_of_kept wf kept (at_of_getElem found) defines
      obtain ⟨bound, _⟩ := List.getElem?_eq_some_iff.mp found
      rwa [List.length_take, Nat.min_eq_left (Nat.le_of_lt bound)] at marked

theorem sweep_pass (wf : prog.WellFormed) :
    Pass prog (swept prog).rebuildDefSites (Spared prog) (Dropped prog) where
  length := by simp [SsaProgram.rebuildDefSites]
  edges := rfl
  entry := rfl
  lives block reached := (swept_block block).2.trans (wf.live block reached)
  dies block live := (swept_block block).2.symm.trans live
  fewer := swept_defs
  recorded block pre insn v live here defines := by
    have distinct : ((swept prog).blocks.flatMap fun b => defs b.insns).Nodup := by
      refine wf.single.sublist (flatMap_sublist (by simp) fun k b b' present present' => ?_)
      have fewer := @swept_defs prog k
      rwa [SsaProgram.insnsOf_eq present, SsaProgram.insnsOf_eq present'] at fewer
    have lives : prog.isLive block := (swept_block block).2.symm.trans live
    refine rebuild_recorded distinct ?_ live here defines
    obtain ⟨j, present, defines'⟩ := mem_defs.mp ((swept_defs block).subset (here.dst_mem defines))
    obtain ⟨front, there⟩ := SsaProgram.at_of_mem present
    exact (List.getElem?_eq_some_iff.mp (wf.recorded block front j v lives there defines')).1
  thinned _ reached := swept_thinned wf reached
  shape i i' alike := alike.1 ▸ ⟨rfl, rfl, rfl, fun _ => rfl, rfl, id⟩
  plain i gone := by
    cases i with
    | br | ja | exit => cases gone.1
    | _ => rfl
  unkept i v gone defines := gone.2 v defines
  uses block pre i i' reached here alike plain v use := by
    obtain ⟨rfl, kept, _⟩ := alike
    exact ⟨wf.uses block pre _ reached here plain v use, kept plain v use⟩
  phis block pre dst inputs i' reached here alike := by
    obtain ⟨rfl, _, kept⟩ := alike
    refine ⟨inputs, rfl, filter_predLive fun block => (swept_block block).2,
      fun p v listed before => ?_, fun v listed => ?_⟩
    · exact ⟨wf.inputUses block pre dst inputs reached here p v listed before,
        kept dst inputs rfl v (Or.inr ⟨p, before, listed⟩)⟩
    · exact ⟨wf.startUses block pre dst inputs reached here v listed,
        kept dst inputs rfl v (Or.inl listed)⟩

/-- A known constant operand holds its constant. -/
theorem constValue_held (wf : prog.WellFormed) (reached : prog.Reaches block)
    (here : prog.At block pre i) (plain : i.isPhi = false) (knows : Knows m prog block pre env)
    {o : SsaOperand} (used : ∀ u ∈ o.uses, u ∈ i.uses) {r : Int64} (read : env.operand o = some r)
    (constant : prog.constValue o = some c) : r = c := by
  cases o with
  | imm k => exact Option.some.inj (read.symm.trans constant)
  | value u =>
    have available := wf.uses _ _ _ reached here plain u (used u (List.mem_singleton.mpr rfl))
    have known := knows u available
    obtain ⟨post, split⟩ := here
    obtain ⟨d, reached', defined⟩ := SsaProgram.Available.defined (split.symm ▸ available.later) reached
    obtain ⟨j, present, defines⟩ := mem_defs.mp defined
    obtain ⟨front, there⟩ := SsaProgram.at_of_mem present
    have definition : prog.defOf u = some j := by
      unfold SsaProgram.defOf
      rw [wf.recorded d front j u (wf.live d reached') there defines]
      obtain ⟨back, cut⟩ := there
      exact insnAt_eq.trans (by rw [cut]; simp)
    have value : j.constant = some c := by
      unfold SsaProgram.constValue at constant
      dsimp only at constant
      rw [definition] at constant
      cases j with
      | const | loadImm64 => exact constant
      | _ => cases constant
    exact Option.some.inj (read.symm.trans (known.settled c (.constant there defines value)))

theorem sweep_sound (wf : prog.WellFormed) : Sound m prog (Spared prog) (Dropped prog) where
  exec block pre i i' env world reached here alike plain knows := by rw [alike.1]
  phi block pre dst inputs inputs' pred env here alike arrives := by
    rw [(SsaInsn.phi.inj alike.1).2]
  drop block pre i env world reached here gone plain knows := by
    have known : ∀ u ∈ i.uses, Known m prog env u := fun u use =>
      knows u (wf.uses _ _ _ reached here plain u use)
    cases i with
    | const dst value => exact ⟨dst, value, rfl, rfl⟩
    | framePtr dst => exact ⟨dst, _, rfl, rfl⟩
    | entryCtx dst => exact ⟨dst, _, rfl, rfl⟩
    | loadImm64 dst imm => exact ⟨dst, imm, rfl, rfl⟩
    | copy dst src =>
      obtain ⟨x, read⟩ := (known src (List.mem_singleton.mpr rfl)).assigned
      exact ⟨dst, x, rfl, by simp only [execInsn, reading, read]⟩
    | binOp dst width op lhs rhs =>
      obtain ⟨l, readL⟩ := operand_assigned (o := lhs) fun u use => known u (List.mem_append_left _ use)
      obtain ⟨r, readR⟩ := operand_assigned (o := rhs) fun u use => known u (List.mem_append_right _ use)
      have valid : badEnd op r = false := by
        cases op with
        | byteSwap order =>
          have proven : (prog.constValue rhs).any validEndWidth = true := by
            simpa [rooted] using gone.1
          cases constant : prog.constValue rhs with
          | none =>
            rw [constant] at proven
            cases proven
          | some k =>
            rw [constant] at proven
            rw [constValue_held wf reached here plain knows
              (fun u use => List.mem_append_right _ use) readR constant]
            exact congrArg not proven
        | _ => rfl
      refine ⟨dst, op.apply l r width, rfl, ?_⟩
      simp only [execInsn, reading, readL, readR, valid]
      rfl
    | phi => cases plain
    | _ => cases gone.1

/-! ### What the pass returns -/

theorem sized_eq (xs ys : List SsaBlock) (long : xs.length = ys.length)
    (each : ∀ (k : Nat) x y, xs[k]? = some x → ys[k]? = some y →
      y.live = x.live ∧ y.insns.Sublist x.insns) :
    (ys.map fun b => b.insns.length).sum ≤ (xs.map fun b => b.insns.length).sum ∧
      ((xs.map fun b => b.insns.length).sum ≤ (ys.map fun b => b.insns.length).sum → ys = xs) := by
  induction xs generalizing ys with
  | nil =>
    obtain rfl := List.length_eq_zero_iff.mp long.symm
    exact ⟨Nat.le_refl _, fun _ => rfl⟩
  | cons x xs ih =>
    cases ys with
    | nil => cases long
    | cons y ys =>
      obtain ⟨live, sub⟩ := each 0 x y rfl rfl
      obtain ⟨le, same⟩ := ih ys (Nat.succ.inj long) fun k x y => each (k + 1) x y
      have shorter := sub.length_le
      simp only [List.map_cons, List.sum_cons]
      refine ⟨by omega, fun size => ?_⟩
      have insns := sub.eq_of_length_le (by omega)
      obtain rfl := same (by omega)
      cases x
      cases y
      cases live
      cases insns
      rfl

theorem swept_size : (swept prog).size ≤ prog.size ∧
    (prog.size ≤ (swept prog).size → swept prog = prog) := by
  have blocks := sized_eq prog.blocks (swept prog).blocks (by simp)
    fun k b b' present present' => by
      have live := (@swept_block prog k).2
      have sub := @swept_sublist prog k
      unfold SsaProgram.isLive at live
      rw [present, present'] at live
      rw [SsaProgram.insnsOf_eq present, SsaProgram.insnsOf_eq present'] at sub
      exact ⟨live, sub⟩
  exact ⟨blocks.1, fun size => congrArg (fun blocks => { prog with blocks }) (blocks.2 size)⟩

/-- Dead-code elimination changes nothing or sweeps at least one instruction. -/
theorem deadCodeEliminate_cases (prog : SsaProgram) :
    deadCodeEliminate prog = (prog, false) ∨
      deadCodeEliminate prog = ((swept prog).rebuildDefSites, true) ∧
        (swept prog).size < prog.size := by
  unfold deadCodeEliminate
  dsimp only
  split
  · exact Or.inl rfl
  · split
    · rename_i size
      exact Or.inl (congrArg (·, false) (swept_size.2 (Nat.sub_eq_zero_iff_le.mp size)))
    · rename_i size
      exact Or.inr ⟨rfl, Nat.lt_of_not_le fun le => size (Nat.sub_eq_zero_of_le le)⟩

end EbpfLab.Ssa
