/-!
# Fallible computations

How a successful `Except` computation comes apart.
-/

namespace EbpfLab.Library

variable {α β ε : Type}

/-- A successful bind is a success on both sides. -/
theorem bind_eq_ok {x : Except ε α} {f : α → Except ε β} {b : β} :
    x >>= f = .ok b ↔ ∃ a, x = .ok a ∧ f a = .ok b := by
  cases x with
  | error e =>
    constructor
    · intro failed
      cases failed
    · rintro ⟨_, failed, _⟩
      cases failed
  | ok a =>
    constructor
    · intro ran
      exact ⟨a, rfl, ran⟩
    · rintro ⟨_, ⟨⟩, ran⟩
      exact ran

/-- A failing bind fails on one side. -/
theorem bind_eq_error {x : Except ε α} {f : α → Except ε β} {e : ε} :
    x >>= f = .error e ↔ x = .error e ∨ ∃ a, x = .ok a ∧ f a = .error e := by
  cases x with
  | error e' =>
    constructor
    · intro failed
      cases failed
      exact Or.inl rfl
    · rintro (failed | ⟨_, ran, _⟩)
      · cases failed
        rfl
      · cases ran
  | ok a =>
    constructor
    · intro failed
      exact Or.inr ⟨a, rfl, failed⟩
    · rintro (failed | ⟨_, ran, failed⟩)
      · cases failed
      · cases ran
        exact failed

@[simp] theorem ok_bind (a : α) (f : α → Except ε β) : (Except.ok a >>= f) = f a := rfl

@[simp] theorem throw_bind (e : ε) (f : α → Except ε β) :
    ((throw e : Except ε α) >>= f) = .error e := rfl

/-- A successful `mapM` pairs every element with its result. -/
theorem mapM_eq_ok {f : α → Except ε β} {l : List α} {out : List β} (mapped : l.mapM f = .ok out) :
    out.length = l.length ∧ ∀ (i : Nat) (a : α), l[i]? = some a →
      ∃ b, f a = .ok b ∧ out[i]? = some b := by
  induction l generalizing out with
  | nil =>
    cases mapped
    simp
  | cons a l ih =>
    rw [List.mapM_cons] at mapped
    obtain ⟨b, first, mapped⟩ := bind_eq_ok.mp mapped
    obtain ⟨bs, rest, mapped⟩ := bind_eq_ok.mp mapped
    cases mapped
    obtain ⟨len, every⟩ := ih rest
    refine ⟨by simp [len], ?_⟩
    intro i a' present
    cases i with
    | zero =>
      cases present
      exact ⟨b, first, rfl⟩
    | succ i => exact every i a' present

/-- Every result of a `mapM` comes from an element. -/
theorem mapM_mem {f : α → Except ε β} {l : List α} {out : List β} {b : β} (mapped : l.mapM f = .ok out)
    (present : b ∈ out) : ∃ a ∈ l, f a = .ok b := by
  obtain ⟨same, each⟩ := mapM_eq_ok mapped
  obtain ⟨i, inside, rfl⟩ := List.mem_iff_getElem.mp present
  have here : i < l.length := same ▸ inside
  have source : l[i]? = some l[i] := List.getElem?_eq_getElem here
  obtain ⟨b, ran, found⟩ := each i _ source
  refine ⟨_, List.mem_of_getElem? source, ?_⟩
  rw [ran, ← Option.some.inj ((List.getElem?_eq_getElem inside).symm.trans found)]

/-- A `mapM` succeeds when every element does. -/
theorem mapM_ok {f : α → Except ε β} {l : List α} (every : ∀ a ∈ l, ∃ b, f a = .ok b) :
    ∃ out, l.mapM f = .ok out := by
  induction l with
  | nil => exact ⟨[], rfl⟩
  | cons a l ih =>
    obtain ⟨⟨b, first⟩, others⟩ := List.forall_mem_cons.mp every
    obtain ⟨out, rest⟩ := ih others
    exact ⟨b :: out, by rw [List.mapM_cons, first, ok_bind, rest]; rfl⟩

/-- What every step of a fold that succeeds keeps. -/
theorem foldlM_keeps {σ : Type} {f : σ → α → Except ε σ} {good : σ → Prop} {as : List α} {s s' : σ}
    (each : ∀ s, ∀ a ∈ as, ∀ s', good s → f s a = .ok s' → good s') (start : good s)
    (done : as.foldlM f s = .ok s') : good s' := by
  induction as generalizing s with
  | nil =>
    cases done
    exact start
  | cons a as ih =>
    rw [List.foldlM_cons] at done
    obtain ⟨mid, first, rest⟩ := bind_eq_ok.mp done
    have here := each s a List.mem_cons_self mid start first
    exact ih (fun s a later => each s a (List.mem_cons_of_mem _ later)) here rest

/-- What a step of a fold that succeeds makes, from where the fold can come to, and every step keeps. -/
theorem foldlM_makes {σ : Type} (inv good : σ → Prop) {f : σ → α → Except ε σ} {as : List α} {a : α} {s s' : σ}
    (stays : ∀ s, ∀ a ∈ as, ∀ s', inv s → f s a = .ok s' → inv s')
    (keeps : ∀ s, ∀ a ∈ as, ∀ s', good s → f s a = .ok s' → good s') (makes : ∀ s s', inv s → f s a = .ok s' → good s')
    (present : a ∈ as) (start : inv s) (done : as.foldlM f s = .ok s') : good s' := by
  obtain ⟨front, back, rfl⟩ := List.append_of_mem present
  rw [List.foldlM_append] at done
  obtain ⟨mid, first, done⟩ := bind_eq_ok.mp done
  rw [List.foldlM_cons] at done
  obtain ⟨made, step, rest⟩ := bind_eq_ok.mp done
  have here : inv mid :=
    foldlM_keeps (fun s b among => stays s b (List.mem_append_left _ among)) start first
  have later : ∀ b ∈ back, b ∈ front ++ a :: back := fun b among =>
    List.mem_append_right _ (List.mem_cons_of_mem _ among)
  exact foldlM_keeps (fun s b among => keeps s b (later b among)) (makes mid made here step) rest

/-- What one step of a fold makes and every step keeps. -/
theorem foldl_makes {σ : Type} {f : σ → α → σ} (good : σ → Prop) {as : List α} {a : α} {s : σ}
    (keeps : ∀ s a, good s → good (f s a)) (makes : ∀ s, good (f s a)) (present : a ∈ as) :
    good (as.foldl f s) := by
  induction as generalizing s with
  | nil => cases present
  | cons first as ih =>
    rcases List.mem_cons.mp present with rfl | later
    · have kept : ∀ (as : List α) s, good s → good (as.foldl f s) := by
        intro as
        induction as with
        | nil => exact fun _ here => here
        | cons b as ih => exact fun s here => ih _ (keeps s b here)
      exact kept as _ (makes s)
    · exact ih later

end EbpfLab.Library
