import Mathlib.Tactic.ByContra

/-!
# Dominance

Strict dominance over a rooted relation: every path from the root to a node passes another node
first. Paths are told by the nodes they avoid.
-/

namespace EbpfLab.Library

section

variable {α : Type} (succ : α → α → Prop) (root : α)

/-- Nodes reached from the root. -/
inductive Reached : α → Prop
  | root : Reached root
  | step {p b : α} (before : Reached p) (edge : succ p b) : Reached b

/-- Nodes reached from the root without passing `a`. -/
inductive Avoiding (a : α) : α → Prop
  | root (other : root ≠ a) : Avoiding a root
  | step {p b : α} (before : Avoiding a p) (edge : succ p b) (other : b ≠ a) : Avoiding a b

/-- Every path to `b` passes `a` on the way. -/
structure StrictlyDominates (a b : α) : Prop where
  different : a ≠ b
  passed : ¬ Avoiding succ root a b

end

variable {α : Type} {succ : α → α → Prop} {root a b c d p : α}

theorem Avoiding.ne (path : Avoiding succ root a b) : b ≠ a := by
  cases path with
  | root other => exact other
  | step _ _ other => exact other

theorem Avoiding.reached (path : Avoiding succ root a b) : Reached succ root b := by
  induction path with
  | root _ => exact .root
  | step _ edge _ before => exact before.step edge

theorem Reached.cases_avoiding (reached : Reached succ root b) (a : α) :
    Avoiding succ root a b ∨ Reached succ root a := by
  induction reached with
  | root =>
    by_cases same : root = a
    · exact Or.inr (same ▸ .root)
    · exact Or.inl (.root same)
  | @step p b before edge ih =>
    rcases ih with path | reached
    · by_cases same : b = a
      · exact Or.inr (same ▸ before.step edge)
      · exact Or.inl (path.step edge same)
    · exact Or.inr reached

/-- A path can be cut at its first arrival. -/
theorem Avoiding.first_arrival (path : Avoiding succ root a d) (inner : d ≠ root) :
    ∃ p, succ p d ∧ Avoiding succ root a p ∧ Avoiding succ root d p := by
  have upTo : ∀ {b}, Avoiding succ root a b → Avoiding succ root d b ∨
      ∃ p, succ p d ∧ Avoiding succ root a p ∧ Avoiding succ root d p := by
    intro b path
    induction path with
    | root _ => exact Or.inl (.root (Ne.symm inner))
    | @step p b before edge _ ih =>
      rcases ih with clear | found
      · by_cases same : b = d
        · exact Or.inr ⟨p, same ▸ edge, before, clear⟩
        · exact Or.inl (clear.step edge same)
      · exact Or.inr found
  exact (upTo path).resolve_left fun path => path.ne rfl

theorem Reached.first_arrival (reached : Reached succ root d) (inner : d ≠ root) :
    ∃ p, succ p d ∧ Avoiding succ root d p := by
  have upTo : ∀ {b}, Reached succ root b → Avoiding succ root d b ∨
      ∃ p, succ p d ∧ Avoiding succ root d p := by
    intro b reached
    induction reached with
    | root => exact Or.inl (.root (Ne.symm inner))
    | @step p b before edge ih =>
      rcases ih with clear | found
      · by_cases same : b = d
        · exact Or.inr ⟨p, same ▸ edge, clear⟩
        · exact Or.inl (clear.step edge same)
      · exact Or.inr found
  exact (upTo reached).resolve_left fun path => path.ne rfl

/-! ### Relations that agree where the root reaches -/

theorem reached_congr {succ' : α → α → Prop}
    (same : ∀ a b, Reached succ root a → (succ a b ↔ succ' a b)) :
    Reached succ root b ↔ Reached succ' root b := by
  constructor
  · intro reached
    induction reached with
    | root => exact .root
    | step before edge ih => exact ih.step ((same _ _ before).mp edge)
  · intro reached
    induction reached with
    | root => exact .root
    | step _ edge ih => exact ih.step ((same _ _ ih).mpr edge)

theorem avoiding_congr {succ' : α → α → Prop}
    (same : ∀ a b, Reached succ root a → (succ a b ↔ succ' a b)) :
    Avoiding succ root a b ↔ Avoiding succ' root a b := by
  constructor
  · intro path
    induction path with
    | root other => exact .root other
    | step before edge other ih => exact ih.step ((same _ _ before.reached).mp edge) other
  · intro path
    induction path with
    | root other => exact .root other
    | step _ edge other ih => exact ih.step ((same _ _ ih.reached).mpr edge) other

theorem strictlyDominates_congr {succ' : α → α → Prop}
    (same : ∀ a b, Reached succ root a → (succ a b ↔ succ' a b)) :
    StrictlyDominates succ root a b ↔ StrictlyDominates succ' root a b :=
  ⟨fun dom => ⟨dom.different, fun path => dom.passed ((avoiding_congr same).mpr path)⟩,
    fun dom => ⟨dom.different, fun path => dom.passed ((avoiding_congr same).mp path)⟩⟩

namespace StrictlyDominates

/-- Nothing strictly dominates the root. -/
theorem not_root (dom : StrictlyDominates succ root a root) : False :=
  dom.passed (.root (Ne.symm dom.different))

theorem irrefl (dom : StrictlyDominates succ root a a) : False := dom.different rfl

theorem reached (dom : StrictlyDominates succ root a b) (reached : Reached succ root b) :
    Reached succ root a :=
  (reached.cases_avoiding a).resolve_left dom.passed

/-- A dominator of a node is, or dominates, each predecessor. -/
theorem pred (dom : StrictlyDominates succ root a d) (edge : succ c d) :
    a = c ∨ StrictlyDominates succ root a c := by
  by_cases same : a = c
  · exact Or.inl same
  · exact Or.inr ⟨same, fun path => dom.passed (path.step edge (Ne.symm dom.different))⟩

/-- A node that is entered from one node only is dominated by that node. -/
theorem of_single (single : ∀ p, succ p d → p = c) (inner : d ≠ root) (reached : Reached succ root d) :
    StrictlyDominates succ root c d := by
  obtain ⟨p, edge, path⟩ := reached.first_arrival inner
  refine ⟨single p edge ▸ path.ne, fun path => ?_⟩
  cases path with
  | root _ => exact inner rfl
  | step before edge _ => exact before.ne (single _ edge)

theorem asymm (dom : StrictlyDominates succ root a b) (dom' : StrictlyDominates succ root b a)
    (reached : Reached succ root b) : False := by
  -- the first of the two to be reached is reached without the other
  have either : ∀ {x}, Reached succ root x →
      Avoiding succ root a x ∧ Avoiding succ root b x ∨ Avoiding succ root a b ∨
        Avoiding succ root b a := by
    intro x reached
    induction reached with
    | root =>
      by_cases first : root = a
      · exact Or.inr (Or.inr (first ▸ .root fun same => dom.different (first ▸ same)))
      · by_cases second : root = b
        · exact Or.inr (Or.inl (second ▸ .root fun same => dom.different (second ▸ same.symm)))
        · exact Or.inl ⟨.root first, .root second⟩
    | @step p x _ edge ih =>
      rcases ih with ⟨first, second⟩ | found
      · by_cases here : x = a
        · exact Or.inr (Or.inr (here ▸ second.step edge fun same =>
            dom.different (here.symm.trans same)))
        · by_cases there : x = b
          · exact Or.inr (Or.inl (there ▸ first.step edge here))
          · exact Or.inl ⟨first.step edge here, second.step edge there⟩
      · exact Or.inr found
  rcases either reached with ⟨_, path⟩ | path | path
  · exact path.ne rfl
  · exact dom.passed path
  · exact dom'.passed path

theorem trans (dom : StrictlyDominates succ root a b) (dom' : StrictlyDominates succ root b c)
    (reached : Reached succ root c) : StrictlyDominates succ root a c := by
  refine ⟨?_, ?_⟩
  · rintro rfl
    exact dom.asymm dom' (dom'.reached reached)
  · intro path
    have upTo : ∀ {x}, Avoiding succ root a x → Avoiding succ root b x ∨ Avoiding succ root a b := by
      intro x path
      induction path with
      | root other =>
        by_cases same : root = b
        · exact Or.inr (same ▸ .root other)
        · exact Or.inl (.root same)
      | @step p x before edge other ih =>
        rcases ih with clear | found
        · by_cases same : x = b
          · exact Or.inr (same ▸ before.step edge other)
          · exact Or.inl (clear.step edge same)
        · exact Or.inr found
    rcases upTo path with clear | found
    · exact dom'.passed clear
    · exact dom.passed found

end StrictlyDominates

end EbpfLab.Library
