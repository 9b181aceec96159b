import EbpfLab.Ssa.Optimize

/-!
# Regular programs

Versions have one definition, reached blocks are live, and jumps follow edges. The passes drop
instructions, and replace others by ones with the same version and jumps, so a program stays regular.
-/

namespace EbpfLab.Ssa
open FlowGraph

/-- The instructions that emit nothing. -/
def SsaInsn.isPseudo : SsaInsn → Bool
  | .framePtr _ | .entryCtx _ => true
  | _ => false

def SsaProgram.code (prog : SsaProgram) : List SsaInsn := prog.blocks.flatMap SsaBlock.insns

/-- Versions have one definition, and there is one frame pointer and one entry context. -/
structure Distinct (insns : List SsaInsn) : Prop where
  single : (defs insns).Nodup
  framePtr : ∀ u v, .framePtr u ∈ insns → .framePtr v ∈ insns → u = v
  entryCtx : ∀ u v, .entryCtx u ∈ insns → .entryCtx v ∈ insns → u = v

structure Regular (prog : SsaProgram) : Prop where
  distinct : Distinct prog.code
  entry : prog.entry < prog.blocks.length
  inside : ∀ e ∈ prog.edges, e.target < prog.blocks.length
  live : ∀ block, prog.Reaches block → prog.isLive block
  jumps : ∀ block, ∀ i ∈ prog.insnsOf block, ∀ e ∈ i.jumpEdges block, e ∈ prog.edges

/-- A replacement of the same shape, which is a pseudo only when nothing is replaced. -/
structure Stays (i i' : SsaInsn) : Prop extends SameShape i i' where
  pseudo : i'.isPseudo → i' = i

/-- What a pass may do: control ops of live blocks stay, and so do the reached blocks. -/
structure Trims (prog prog' : SsaProgram) : Prop where
  length : prog'.blocks.length = prog.blocks.length
  edges : prog'.edges = prog.edges
  entry : prog'.entry = prog.entry
  insns : ∀ block, Thinned Stays (fun i => prog.isLive block → i.isControl = false)
    (prog.insnsOf block) (prog'.insnsOf block)
  lives : Regular prog → ∀ block, prog.Reaches block → prog'.isLive block

variable {xs ys zs : List SsaInsn} {drop drop' : SsaInsn → Prop} {insn i i' : SsaInsn} {v : SsaValue}
  {block fuel : Nat} {prog prog' : SsaProgram} {consts : ConstTable}

theorem Stays.refl (i : SsaInsn) : Stays i i := ⟨⟨rfl, rfl, rfl, fun _ => rfl, rfl, id⟩, fun _ => rfl⟩

/-! ### Trimmed lists -/

namespace Thinned

theorem imp {same : SsaInsn → SsaInsn → Prop} (thinned : Thinned same drop xs ys)
    (weaker : ∀ i, drop i → drop' i) : Thinned same drop' xs ys := by
  induction thinned with
  | nil => exact .nil
  | keep alike _ ih => exact .keep alike ih
  | drop gone _ ih => exact .drop (weaker _ gone) ih

theorem of_map {f : SsaInsn → SsaInsn} (stays : ∀ i, Stays i (f i)) : Thinned Stays drop xs (xs.map f) := by
  induction xs with
  | nil => exact .nil
  | cons i xs ih => exact .keep (stays i) ih

theorem self : Thinned Stays drop xs xs := .of_forall₂ (List.forall₂_same.mpr fun i _ => .refl i)

theorem of_sublist (sub : ys.Sublist xs) : Thinned Stays (fun _ => True) xs ys := by
  induction sub with
  | slnil => exact .nil
  | cons i _ ih => exact .drop trivial ih
  | cons_cons i _ ih => exact .keep (.refl i) ih

theorem append {same : SsaInsn → SsaInsn → Prop} {xs' ys' : List SsaInsn} (first : Thinned same drop xs ys)
    (second : Thinned same drop xs' ys') : Thinned same drop (xs ++ xs') (ys ++ ys') := by
  induction first with
  | nil => exact second
  | keep alike _ ih => exact .keep alike ih
  | drop gone _ ih => exact .drop gone ih

theorem flatMap {α : Type} {as : List α} {f g : α → List SsaInsn} {same : SsaInsn → SsaInsn → Prop}
    (each : ∀ a, Thinned same drop (f a) (g a)) : Thinned same drop (as.flatMap f) (as.flatMap g) := by
  induction as with
  | nil => exact .nil
  | cons a as ih =>
    rw [List.flatMap_cons, List.flatMap_cons]
    exact (each a).append ih

theorem defs_sublist (thinned : Thinned Stays drop xs ys) : (defs ys).Sublist (defs xs) := by
  induction thinned with
  | nil => exact .slnil
  | @keep i i' _ _ stays _ ih =>
    have same : i'.defDst = i.defDst := stays.defDst
    simp only [defs, List.filterMap_cons, same]
    cases i.defDst with
    | none => exact ih
    | some v => exact ih.cons_cons v
  | @drop i _ _ _ _ ih =>
    simp only [defs, List.filterMap_cons]
    cases i.defDst with
    | none => exact ih
    | some v => exact ih.cons v

theorem pseudo_mem (thinned : Thinned Stays drop xs ys) (pseudo : insn.isPseudo) (present : insn ∈ ys) :
    insn ∈ xs := by
  obtain ⟨i, there, stays⟩ := thinned.mem present
  rwa [stays.pseudo pseudo]

end Thinned

namespace Distinct

theorem thinned (distinct : Distinct xs) (thinned : Thinned Stays drop xs ys) : Distinct ys where
  single := distinct.single.sublist thinned.defs_sublist
  framePtr _ _ left right :=
    distinct.framePtr _ _ (thinned.pseudo_mem rfl left) (thinned.pseudo_mem rfl right)
  entryCtx _ _ left right :=
    distinct.entryCtx _ _ (thinned.pseudo_mem rfl left) (thinned.pseudo_mem rfl right)

theorem cons (distinct : Distinct xs) (plain : insn.isPseudo = false)
    (fresh : ∀ v, insn.defDst = some v → v ∉ defs xs) : Distinct (insn :: xs) where
  single := by
    simp only [defs, List.filterMap_cons]
    cases dst : insn.defDst with
    | none => exact distinct.single
    | some v => exact List.nodup_cons.mpr ⟨fresh v dst, distinct.single⟩
  framePtr u v left right := by
    rcases List.mem_cons.mp left with rfl | left
    · cases plain
    · rcases List.mem_cons.mp right with rfl | right
      · cases plain
      · exact distinct.framePtr u v left right
  entryCtx u v left right := by
    rcases List.mem_cons.mp left with rfl | left
    · cases plain
    · rcases List.mem_cons.mp right with rfl | right
      · cases plain
      · exact distinct.entryCtx u v left right

theorem perm (distinct : Distinct xs) (perm : ys.Perm xs) : Distinct ys where
  single := (perm.filterMap _).nodup_iff.mpr distinct.single
  framePtr u v left right := distinct.framePtr u v (perm.mem_iff.mp left) (perm.mem_iff.mp right)
  entryCtx u v left right := distinct.entryCtx u v (perm.mem_iff.mp left) (perm.mem_iff.mp right)

end Distinct

/-! ### Trimmed programs -/

theorem code_eq : prog.code = (List.range prog.blocks.length).flatMap prog.insnsOf := by
  have blocks : prog.blocks.map SsaBlock.insns =
      (List.range prog.blocks.length).map prog.insnsOf := by
    refine List.ext_getElem (by simp) fun i inside _ => ?_
    have there : i < prog.blocks.length := by simpa using inside
    simp [SsaProgram.insnsOf, there]
  unfold SsaProgram.code
  rw [List.flatMap_def, blocks, List.flatMap_def]

namespace Trims

variable (trims : Trims prog prog')
include trims

theorem code : Thinned Stays (fun _ => True) prog.code prog'.code := by
  rw [code_eq, code_eq, trims.length]
  exact .flatMap fun block => (trims.insns block).imp fun _ _ => trivial

theorem flows (live : prog.isLive block) {next : Nat} (flows : prog'.Flows block next) :
    prog.Flows block next := by
  have same : prog'.deadTaken block = prog.deadTaken block := by
    rw [deadTaken_eq, deadTaken_eq, find_insnsOf, find_insnsOf]
    exact (trims.insns block).terminator_any (fun _ _ stays => stays.toSameShape) fun _ plain => plain live
  unfold SsaProgram.Flows at *
  rwa [mem_liveSuccessors, same, trims.edges, ← mem_liveSuccessors] at flows

theorem reaches (regular : Regular prog) (reached : prog'.Reaches block) : prog.Reaches block := by
  induction reached with
  | root =>
    rw [trims.entry]
    exact .root
  | step _ flows ih => exact ih.step (trims.flows (regular.live _ ih) flows)

theorem regular (regular : Regular prog) : Regular prog' where
  distinct := regular.distinct.thinned trims.code
  entry := by rw [trims.entry, trims.length]; exact regular.entry
  inside := by rw [trims.edges, trims.length]; exact regular.inside
  live block reached := trims.lives regular block (trims.reaches regular reached)
  jumps block i present e jumps := by
    obtain ⟨i₀, there, stays⟩ := (trims.insns block).mem present
    rw [trims.edges]
    exact regular.jumps block i₀ there e (by rwa [← stays.jumpEdges])

end Trims

/-! ### The passes -/

theorem folded_stays {settled : SsaValue → Int64 → Prop} (folded : Folded settled i i') : Stays i i' := by
  refine ⟨folded_shape folded, fun pseudo => ?_⟩
  rcases folded with rfl | ⟨v, c, width, op, lhs, rhs, rfl, rfl, _⟩
  · rfl
  · cases pseudo

theorem foldBlocks_stays (consts : ConstTable) (blocks : List SsaBlock) :
    List.Forall₂ (fun b b' => b'.live = b.live ∧ List.Forall₂ Stays b.insns b'.insns) blocks
      (foldBlocks consts blocks).1 := by
  induction blocks generalizing consts with
  | nil => exact .nil
  | cons b blocks ih =>
    rw [foldBlocks_cons]
    refine .cons ⟨rfl, ?_⟩ (ih _)
    dsimp only
    split
    · exact foldInsns_folded.imp fun _ _ => folded_stays
    · exact List.forall₂_same.mpr fun i _ => .refl i

theorem fold_trims : Trims prog (folded prog consts) := by
  have blocks := foldBlocks_stays consts prog.blocks
  have long : (folded prog consts).blocks.length = prog.blocks.length := blocks.length_eq.symm
  have each : ∀ block, (folded prog consts).isLive block = prog.isLive block ∧
      List.Forall₂ Stays (prog.insnsOf block) ((folded prog consts).insnsOf block) := by
    intro block
    unfold SsaProgram.isLive SsaProgram.insnsOf
    cases found : prog.blocks[block]? with
    | none =>
      have absent : (folded prog consts).blocks[block]? = none := by
        rw [List.getElem?_eq_none_iff] at found ⊢
        rwa [long]
      rw [absent]
      exact ⟨rfl, .nil⟩
    | some b =>
      obtain ⟨inside, rfl⟩ := List.getElem?_eq_some_iff.mp found
      have inside' : block < (folded prog consts).blocks.length := by rwa [long]
      rw [List.getElem?_eq_getElem inside']
      exact List.forall₂_iff_get.mp blocks |>.2 block inside inside'
  exact
    { length := long, edges := rfl, entry := rfl
      insns := fun block => .of_forall₂ (each block).2
      lives := fun regular block reached => (each block).1.trans (regular.live block reached) }

theorem mapLive_trims {f : SsaInsn → SsaInsn} (stays : ∀ i, Stays i (f i)) : Trims prog (prog.mapLive f) where
  length := by simp [SsaProgram.mapLive]
  edges := rfl
  entry := rfl
  insns block := by
    rw [(mapLive_block f).1]
    split
    · exact .of_map stays
    · exact .self
  lives regular block reached := (mapLive_block f).2.trans (regular.live block reached)

theorem mapUses_stays (f : SsaValue → SsaValue) (i : SsaInsn) : Stays i (i.mapUses f) := by
  refine ⟨mapUses_shape, ?_⟩
  cases i <;> intro pseudo <;> cases pseudo <;> rfl

theorem pruneInputs_stays (kept : SsaProgram) (i : SsaInsn) : Stays i (pruneInputs kept i) := by
  refine ⟨pruneInputs_shape, ?_⟩
  cases i <;> intro pseudo <;> cases pseudo <;> rfl

theorem Trims.refl : Trims prog prog := ⟨rfl, rfl, rfl, fun _ => .self, fun regular => regular.live⟩

theorem sweep_trims : Trims prog (deadCodeEliminate prog).1 := by
  rcases deadCodeEliminate_cases prog with quiet | ⟨swept_, _⟩
  · rw [quiet]
    exact .refl
  · rw [swept_]
    refine ⟨by simp [SsaProgram.rebuildDefSites], rfl, rfl, fun block => ?_,
      fun regular block reached => (swept_block block).2.trans (regular.live block reached)⟩
    rw [rebuild_insnsOf, (swept_block block).1]
    split
    · rename_i live
      refine thinned_filter (fun i => (marks prog).contains (block, i)) 0 (fun _ i _ _ => .refl i)
        fun k i found gone _ => ?_
      -- a control op is a root, and roots are marked
      rw [Nat.zero_add] at gone
      cases control : i.isControl with
      | false => rfl
      | true =>
        have root : rooted prog i = true := by
          cases i <;> first | rfl | cases control
        have marked : (block, k) ∈ marks prog := roots_marked (mem_roots.mpr ⟨i, live, found, root⟩)
        exact absurd marked (by simpa using gone)
    · rename_i dead
      exact (Thinned.of_sublist (List.nil_sublist _)).imp fun _ _ live => absurd live dead

theorem cut_trims : Trims prog (unreachableBlockEliminate prog).1 := by
  rcases unreachableBlockEliminate_cases prog with ⟨quiet, _⟩ | ⟨removed, _⟩
  · rw [quiet]
    exact .refl
  · rw [removed]
    refine ⟨by simp [SsaProgram.rebuildDefSites, SsaProgram.mapLive], rfl, rfl, fun block => ?_,
      fun regular block reached => pruned_live.mpr
        ⟨regular.live block reached, reaches_reached regular.entry regular.inside reached⟩⟩
    rw [rebuild_insnsOf, (mapLive_block _).1, (cut_block block).1]
    split
    · exact .of_map (pruneInputs_stays _)
    · exact .self

theorem optimizeRound_regular (regular : Regular prog) : Regular (optimizeRound prog consts).1 := by
  unfold optimizeRound
  dsimp only
  rw [copyPropagate_eq]
  have folds : Regular (folded prog consts) := fold_trims.regular regular
  have copies : Regular (propagated (folded prog consts)) := (mapLive_trims (mapUses_stays _)).regular folds
  exact cut_trims.regular (sweep_trims.regular copies)

theorem optimizeFrom_regular (regular : Regular prog) (ends : optimizeFrom fuel prog consts = some prog') :
    Regular prog' := by
  induction fuel generalizing prog consts with
  | zero => cases ends
  | succ fuel ih =>
    rw [optimizeFrom_succ] at ends
    split at ends
    · exact ih (optimizeRound_regular regular) ends
    · cases ends
      exact optimizeRound_regular regular

end EbpfLab.Ssa
