import Mathlib.Data.List.Nodup
import Mathlib.Logic.Function.Basic

/-!
# Parallel moves

Moves between places that are meant to happen at once, and an order in which they can be made one
after the other: each move goes when no move still to come reads its destination.
-/

namespace EbpfLab.Library

/-- A move to a place from a source. -/
structure Move (ρ σ : Type) where
  dst : ρ
  src : σ
  deriving DecidableEq, Repr

section

variable {ρ σ ν : Type} [DecidableEq ρ]

/-- Make the moves one after the other. -/
def runMoves (eval : (ρ → ν) → σ → ν) : List (Move ρ σ) → (ρ → ν) → ρ → ν
  | [], f => f
  | m :: rest, f => runMoves eval rest (Function.update f m.dst (eval f m.src))

/-- Make the moves at once. -/
def moveAtOnce (eval : (ρ → ν) → σ → ν) (moves : List (Move ρ σ)) (f : ρ → ν) (r : ρ) : ν :=
  match moves.find? fun m => m.dst == r with
  | some m => eval f m.src
  | none => f r

/-- The second list has the moves of the first in an order in which no move reads a place that an
earlier one wrote. -/
inductive Sequenced (reads : σ → Option ρ) : List (Move ρ σ) → List (Move ρ σ) → Prop where
  | nil : Sequenced reads [] []
  | cons {before after rest : List (Move ρ σ)} {m : Move ρ σ}
      (unread : ∀ other ∈ before ++ m :: after, reads other.src ≠ some m.dst)
      (later : Sequenced reads (before ++ after) rest) :
      Sequenced reads (before ++ m :: after) (m :: rest)

variable {reads : σ → Option ρ} {eval : (ρ → ν) → σ → ν} {moves order : List (Move ρ σ)} {f : ρ → ν}
  {r : ρ}

theorem moveAtOnce_of_not_mem (absent : ∀ m ∈ moves, m.dst ≠ r) : moveAtOnce eval moves f r = f r := by
  have none_found : (moves.find? fun m => m.dst == r) = none :=
    List.find?_eq_none.mpr fun m present same => absent m present (beq_iff_eq.mp same)
  rw [moveAtOnce, none_found]

/-- Moves to one place that agree on their source act as any one of them. -/
theorem moveAtOnce_of_mem {m : Move ρ σ} (present : m ∈ moves)
    (agree : ∀ a ∈ moves, ∀ b ∈ moves, a.dst = b.dst → a.src = b.src) :
    moveAtOnce eval moves f m.dst = eval f m.src := by
  unfold moveAtOnce
  cases found : moves.find? fun other => other.dst == m.dst with
  | none => exact absurd (List.find?_eq_none.mp found m present) (by simp)
  | some other =>
    have same : other.dst = m.dst := by simpa using List.find?_some found
    exact congrArg (eval f) (agree other (List.mem_of_find?_eq_some found) m present same)

/-- Sequenced moves do at length what the moves do at once. -/
theorem Sequenced.run_eq (sequenced : Sequenced reads moves order)
    (depends : ∀ f g s, (∀ r, reads s = some r → f r = g r) → eval f s = eval g s)
    (agree : ∀ a ∈ moves, ∀ b ∈ moves, a.dst = b.dst → a.src = b.src) :
    runMoves eval order f = moveAtOnce eval moves f := by
  induction sequenced generalizing f with
  | nil => rfl
  | @cons before after rest m unread _ ih =>
    have inner : ∀ a, a ∈ before ++ after → a ∈ before ++ m :: after := fun a present => by
      rcases List.mem_append.mp present with early | late
      · exact List.mem_append_left _ early
      · exact List.mem_append_right _ (List.mem_cons_of_mem _ late)
    have whole : m ∈ before ++ m :: after := List.mem_append_right _ List.mem_cons_self
    have agree' : ∀ a ∈ before ++ after, ∀ b ∈ before ++ after, a.dst = b.dst → a.src = b.src :=
      fun a left b right => agree a (inner a left) b (inner b right)
    have unchanged : ∀ other ∈ before ++ m :: after,
        eval (Function.update f m.dst (eval f m.src)) other.src = eval f other.src :=
      fun other present => depends _ _ _ fun r read =>
        Function.update_of_ne (fun same => unread other present (by rw [read, same])) _ _
    rw [runMoves, ih agree']
    funext r
    by_cases moved : ∃ a ∈ before ++ after, a.dst = r
    · obtain ⟨a, present, rfl⟩ := moved
      rw [moveAtOnce_of_mem present agree', moveAtOnce_of_mem (inner a present) agree,
        unchanged a (inner a present)]
    · have absent : ∀ a ∈ before ++ after, a.dst ≠ r := fun a present same => moved ⟨a, present, same⟩
      rw [moveAtOnce_of_not_mem absent]
      by_cases here : m.dst = r
      · subst here
        rw [Function.update_self, moveAtOnce_of_mem whole agree]
      · rw [Function.update_of_ne (Ne.symm here), moveAtOnce_of_not_mem]
        intro a present
        rcases List.mem_append.mp present with early | late
        · exact absent a (List.mem_append_left _ early)
        · rcases List.mem_cons.mp late with rfl | late
          · exact here
          · exact absent a (List.mem_append_right _ late)

omit [DecidableEq ρ] in
theorem Sequenced.subset (sequenced : Sequenced reads moves order) : order ⊆ moves := by
  induction sequenced with
  | nil => exact List.Subset.refl _
  | @cons before after rest first _ _ ih =>
    refine List.cons_subset.mpr ⟨List.mem_append_right _ List.mem_cons_self, fun m later => ?_⟩
    rcases List.mem_append.mp (ih later) with early | late
    · exact List.mem_append_left _ early
    · exact List.mem_append_right _ (List.mem_cons_of_mem _ late)

theorem runMoves_of_not_mem (absent : ∀ m ∈ order, m.dst ≠ r) : runMoves eval order f r = f r := by
  induction order generalizing f with
  | nil => rfl
  | cons m rest ih =>
    rw [runMoves, ih fun other later => absent other (List.mem_cons_of_mem _ later)]
    exact Function.update_of_ne (Ne.symm (absent m List.mem_cons_self)) _ _

/-- A place that all its moves give the same source takes it, whatever the other moves are. -/
theorem Sequenced.run_of_mem {src : σ} (sequenced : Sequenced reads moves order)
    (depends : ∀ f g s, (∀ r, reads s = some r → f r = g r) → eval f s = eval g s)
    (only : ∀ m ∈ moves, m.dst = r → m.src = src) (moved : ∃ m ∈ moves, m.dst = r) :
    runMoves eval order f r = eval f src := by
  induction sequenced generalizing f with
  | nil =>
    obtain ⟨m, present, _⟩ := moved
    cases present
  | @cons before after rest m unread later ih =>
    have inner : ∀ a, a ∈ before ++ after → a ∈ before ++ m :: after := fun a present => by
      rcases List.mem_append.mp present with early | late
      · exact List.mem_append_left _ early
      · exact List.mem_append_right _ (List.mem_cons_of_mem _ late)
    rw [runMoves]
    by_cases again : ∃ a ∈ before ++ after, a.dst = r
    · obtain ⟨a, present, same⟩ := again
      rw [ih (fun b among => only b (inner b among)) ⟨a, present, same⟩, ← only a (inner a present) same]
      exact depends _ _ _ fun r' read =>
        Function.update_of_ne (fun same => unread a (inner a present) (by rw [read, same])) _ _
    · have absent : ∀ a ∈ rest, a.dst ≠ r := fun a present same => again ⟨a, later.subset present, same⟩
      obtain ⟨a, present, rfl⟩ := moved
      have here : a = m := by
        rcases List.mem_append.mp present with early | late
        · exact absurd ⟨a, List.mem_append_left _ early, rfl⟩ again
        · exact (List.mem_cons.mp late).resolve_right fun late => again ⟨a, List.mem_append_right _ late, rfl⟩
      rw [runMoves_of_not_mem absent, here, Function.update_self, ← only a present rfl, here]

omit [DecidableEq ρ] in
/-- Moves that read none of the places they write are in any order. -/
theorem Sequenced.of_unread (unread : ∀ m ∈ moves, ∀ other ∈ moves, reads other.src ≠ some m.dst) :
    Sequenced reads moves moves := by
  induction moves with
  | nil => exact .nil
  | cons m rest ih =>
    have later : Sequenced reads ([] ++ rest) rest := ih fun a left b right =>
      unread a (List.mem_cons_of_mem _ left) b (List.mem_cons_of_mem _ right)
    exact .cons (unread m List.mem_cons_self) later

omit [DecidableEq ρ] in
/-- Moves whose destinations are all read by moves among them have no order. -/
theorem Sequenced.unblocked (sequenced : Sequenced reads moves order) {s : Set (Move ρ σ)}
    (inside : ∀ m ∈ s, m ∈ moves) (blocked : ∀ m ∈ s, ∃ other ∈ s, reads other.src = some m.dst) :
    ¬ s.Nonempty := by
  induction sequenced with
  | nil =>
    rintro ⟨m, present⟩
    exact absurd (inside m present) List.not_mem_nil
  | @cons before after rest first unread _ ih =>
    refine ih fun m present => ?_
    rcases List.mem_append.mp (inside m present) with early | late
    · exact List.mem_append_left _ early
    · rcases List.mem_cons.mp late with rfl | late
      · obtain ⟨other, among, read⟩ := blocked m present
        exact absurd read (unread other (inside other among))
      · exact List.mem_append_right _ late

end

end EbpfLab.Library
