import Mathlib.Order.Basic

/-!
# Worklist iteration

What a worklist over a table of facts keeps true. Facts only grow, a node whose fact changed is
pending, and a node that is not pending has outputs its successors already cover; so once nothing is
pending the table is a post-fixpoint. Which order nodes are taken in does not matter.
-/

namespace EbpfLab.Library

variable {N S : Type} [Preorder S]

/-- Every output lies below the fact of its node. -/
def Covers (f : N → Option S) (outs : List (N × S)) : Prop :=
  ∀ t o, (t, o) ∈ outs → ∃ s, f t = some s ∧ o ≤ s

/-- Facts of `f` are kept or raised in `g`. -/
def Grows (f g : N → Option S) : Prop := ∀ n s, f n = some s → ∃ s', g n = some s' ∧ s ≤ s'

/-- The outputs of `n` exist and are covered. -/
def Settled (out : N → S → Option (List (N × S))) (f : N → Option S) (n : N) : Prop :=
  ∀ s, f n = some s → ∃ outs, out n s = some outs ∧ Covers f outs

theorem Grows.refl (f : N → Option S) : Grows f f := fun _ s held => ⟨s, held, le_rfl⟩

theorem Grows.trans {f g h : N → Option S} (first : Grows f g) (second : Grows g h) : Grows f h := by
  intro n s held
  obtain ⟨s', held', below⟩ := first n s held
  obtain ⟨s'', held'', below'⟩ := second n s' held'
  exact ⟨s'', held'', below.trans below'⟩

theorem Covers.grow {f g : N → Option S} {outs : List (N × S)} (covers : Covers f outs)
    (grows : Grows f g) : Covers g outs := by
  intro t o present
  obtain ⟨s, held, below⟩ := covers t o present
  obtain ⟨s', held', below'⟩ := grows t s held
  exact ⟨s', held', below.trans below'⟩

/-- What holds between two turns of the iteration. -/
structure Iterating (out : N → S → Option (List (N × S))) (entry : N) (init : S)
    (f : N → Option S) (pending : N → Prop) : Prop where
  entry_above : ∃ s, f entry = some s ∧ init ≤ s
  settled : ∀ n, ¬ pending n → Settled out f n

namespace Iterating

variable {out : N → S → Option (List (N × S))} {entry : N} {init : S} {f g : N → Option S}
  {pending pending' : N → Prop}

/-- Processing one node, whatever merging did with its outputs, keeps the invariant. -/
theorem process {n : N} {s : S} {outs : List (N × S)}
    (inv : Iterating out entry init f pending) (held : f n = some s) (ran : out n s = some outs)
    (grows : Grows f g) (covers : Covers g outs) (changed : ∀ m, g m ≠ f m → pending' m)
    (kept : ∀ m, m ≠ n → pending m → pending' m) : Iterating out entry init g pending' := by
  refine ⟨?_, ?_⟩
  · obtain ⟨s, held, below⟩ := inv.entry_above
    obtain ⟨s', held', below'⟩ := grows entry s held
    exact ⟨s', held', below.trans below'⟩
  · intro m clean s' held'
    have same : g m = f m := by
      by_contra different
      exact clean (changed m different)
    by_cases here : m = n
    · subst here
      rw [same, held, Option.some.injEq] at held'
      exact ⟨outs, held' ▸ ran, covers⟩
    · obtain ⟨outs', ran', covers'⟩ :=
        inv.settled m (fun wasPending => clean (kept m here wasPending)) s' (same ▸ held')
      exact ⟨outs', ran', covers'.grow grows⟩

/-- Dropping a node that has no fact keeps the invariant. -/
theorem skip {n : N} (inv : Iterating out entry init f pending) (empty : f n = none)
    (kept : ∀ m, m ≠ n → pending m → pending' m) : Iterating out entry init f pending' := by
  refine ⟨inv.entry_above, ?_⟩
  intro m clean s held
  by_cases here : m = n
  · subst here
    rw [empty] at held
    cases held
  · exact inv.settled m (fun wasPending => clean (kept m here wasPending)) s held

end Iterating

/-! ### Termination -/

section termination

variable {W : Type} {turn : W → W → Prop} (inv : W → Prop) (potential size : W → Nat)

/-- Turns that lower a potential, or keep it from rising and shorten the queue, come to an end. -/
theorem acc_of_lowers (keeps : ∀ w w', inv w → turn w w' → inv w')
    (lowers : ∀ w w', inv w → turn w w' →
      potential w' < potential w ∨ potential w' ≤ potential w ∧ size w' < size w)
    {w : W} (start : inv w) : Acc (fun w' w => turn w w') w := by
  have ends := (Prod.lex ⟨_, Nat.lt_wfRel.wf⟩ ⟨_, Nat.lt_wfRel.wf⟩).wf.apply (potential w, size w)
  generalize measured : (potential w, size w) = m at ends
  induction ends generalizing w with
  | intro m _ ih =>
    subst measured
    constructor
    intro w' turned
    refine ih (potential w', size w') ?_ (keeps w w' start turned) rfl
    rcases lowers w w' start turned with less | ⟨kept, shorter⟩
    · exact Prod.Lex.left _ _ less
    · rcases Nat.lt_or_eq_of_le kept with less | same
      · exact Prod.Lex.left _ _ less
      · rw [same]
        exact Prod.Lex.right _ shorter

end termination

end EbpfLab.Library
