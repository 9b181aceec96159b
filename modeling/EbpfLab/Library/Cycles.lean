import Mathlib.Logic.Relation
import EbpfLab.Library.Dominance

/-!
# Cycles of a flow graph

Closed walks from reached nodes, and the sets of edges they cannot avoid. The graph is reducible when
its edges other than back edges, those to a dominator of their source, close no cycle.
-/

namespace EbpfLab.Library
open Relation

section

variable {α : Type} (succ : α → α → Prop) (root : α)

/-- A walk with the edges it takes. -/
inductive Walk : α → List (α × α) → α → Prop
  | nil {a : α} : Walk a [] a
  | cons {a b c : α} {rest : List (α × α)} (edge : succ a b) (walk : Walk b rest c) :
      Walk a ((a, b) :: rest) c

/-- Every cycle reached from the root takes one of the marked edges. -/
def CyclesMeet (marked : α → α → Prop) : Prop :=
  ∀ v edges, Reached succ root v → Walk succ v edges v → edges ≠ [] → ∃ e ∈ edges, marked e.1 e.2

/-- Every path from the root to `b` passes `a`, or is at `a` when it gets to `b`. -/
def Dominates (a b : α) : Prop := ¬ Avoiding succ root a b

/-- No cycle is closed by forward edges alone. -/
def Reducible : Prop :=
  ∀ v, Reached succ root v → ¬ TransGen (fun a b => succ a b ∧ ¬ Dominates succ root b a) v v

end

variable {α : Type} {succ : α → α → Prop} {root a b x : α} {marked marked' : α → α → Prop}

theorem Walk.reached {edges : List (α × α)} (walk : Walk succ a edges b)
    (start : Reached succ root a) : ∀ e ∈ edges, Reached succ root e.1 ∧ succ e.1 e.2 := by
  induction walk with
  | nil => exact nofun
  | cons edge _ ih =>
    exact List.forall_mem_cons.mpr ⟨⟨start, edge⟩, ih (start.step edge)⟩

/-- Only edges from reached nodes matter. -/
theorem CyclesMeet.congr
    (same : ∀ a b, Reached succ root a → succ a b → (marked a b ↔ marked' a b)) :
    CyclesMeet succ root marked ↔ CyclesMeet succ root marked' := by
  have one : ∀ {marked marked' : α → α → Prop},
      (∀ a b, Reached succ root a → succ a b → (marked a b ↔ marked' a b)) →
      CyclesMeet succ root marked → CyclesMeet succ root marked' := by
    intro marked marked' same meets v edges start walk proper
    obtain ⟨e, taken, mark⟩ := meets v edges start walk proper
    obtain ⟨reached, edge⟩ := walk.reached start e taken
    exact ⟨e, taken, (same _ _ reached edge).mp mark⟩
  exact ⟨one same, one fun a b reached edge => (same a b reached edge).symm⟩

/-- A walk along unmarked edges is a chain of them. -/
theorem transGen_iff_walk :
    TransGen (fun a b => succ a b ∧ ¬ marked a b) a b ↔
      ∃ edges, Walk succ a edges b ∧ edges ≠ [] ∧ ∀ e ∈ edges, ¬ marked e.1 e.2 := by
  constructor
  · intro chain
    induction chain using TransGen.head_induction_on with
    | single edge => exact ⟨_, .cons edge.1 .nil, nofun, by simpa using edge.2⟩
    | head edge _ ih =>
      obtain ⟨edges, walk, _, unmarked⟩ := ih
      exact ⟨_, .cons edge.1 walk, nofun, List.forall_mem_cons.mpr ⟨edge.2, unmarked⟩⟩
  · rintro ⟨edges, walk, proper, unmarked⟩
    induction walk with
    | nil => exact absurd rfl proper
    | @cons a b c rest edge walk ih =>
      have ⟨first, later⟩ := List.forall_mem_cons.mp unmarked
      cases rest with
      | nil =>
        cases walk
        exact .single ⟨edge, first⟩
      | cons e rest => exact .head ⟨edge, first⟩ (ih nofun later)

/-- Marked edges meet every cycle exactly when the others close none. -/
theorem cyclesMeet_iff :
    CyclesMeet succ root marked ↔
      ∀ v, Reached succ root v → ¬ TransGen (fun a b => succ a b ∧ ¬ marked a b) v v := by
  constructor
  · intro meets v start chain
    obtain ⟨edges, walk, proper, unmarked⟩ := transGen_iff_walk.mp chain
    obtain ⟨e, taken, mark⟩ := meets v edges start walk proper
    exact unmarked e taken mark
  · intro acyclic v edges start walk proper
    by_contra missed
    exact acyclic v start (transGen_iff_walk.mpr
      ⟨edges, walk, proper, fun e taken mark => missed ⟨e, taken, mark⟩⟩)

/-- A flow graph is reducible when every reached cycle takes a back edge. -/
theorem reducible_iff_cyclesMeet :
    Reducible succ root ↔ CyclesMeet succ root fun a b => Dominates succ root b a :=
  cyclesMeet_iff.symm

/-! ### Paths as chains -/

theorem reached_iff_chain : Reached succ root x ↔ ReflTransGen succ root x := by
  constructor
  · intro reached
    induction reached with
    | root => exact .refl
    | step _ edge ih => exact ih.tail edge
  · intro chain
    induction chain with
    | refl => exact .root
    | tail _ edge ih => exact ih.step edge

theorem avoiding_iff_chain :
    Avoiding succ root a x ↔
      root ≠ a ∧ ReflTransGen (fun p b => succ p b ∧ b ≠ a) root x := by
  constructor
  · intro path
    induction path with
    | root other => exact ⟨other, .refl⟩
    | step _ edge other ih => exact ⟨ih.1, ih.2.tail ⟨edge, other⟩⟩
  · rintro ⟨other, chain⟩
    induction chain with
    | refl => exact .root other
    | tail _ edge ih => exact ih.step edge.1 edge.2

end EbpfLab.Library
