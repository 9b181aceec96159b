/-!
# Servers and the abstract machines they follow

A server answers requests one after another. It follows an abstract machine when both give the same
answers and stay related; a relation may hold for a limited number of further requests only.
-/

namespace EbpfLab.Library

variable {σ τ Request Reply : Type}

/-- Answer a list of requests in order. -/
def serve (step : σ → Request → Reply × σ) : σ → List Request → List Reply × σ
  | s, [] => ([], s)
  | s, request :: rest =>
    let (reply, s) := step s request
    let (replies, s) := serve step s rest
    (reply :: replies, s)

/-- States related for `n + 1` requests answer the next one alike and are related for the rest. -/
def Follows (related : Nat → σ → τ → Prop) (step : σ → Request → Reply × σ)
    (step' : τ → Request → Reply × τ) : Prop :=
  ∀ n s t request, related (n + 1) s t →
    (step s request).1 = (step' t request).1 ∧ related n (step s request).2 (step' t request).2

theorem Follows.serve {related : Nat → σ → τ → Prop} {step : σ → Request → Reply × σ}
    {step' : τ → Request → Reply × τ} (follows : Follows related step step')
    (requests : List Request) {n : Nat} {s : σ} {t : τ} (start : related (requests.length + n) s t) :
    (Library.serve step s requests).1 = (Library.serve step' t requests).1 ∧
      related n (Library.serve step s requests).2 (Library.serve step' t requests).2 := by
  induction requests generalizing s t with
  | nil =>
    rw [List.length_nil, Nat.zero_add] at start
    exact ⟨rfl, start⟩
  | cons request rest ih =>
    rw [List.length_cons, Nat.add_right_comm] at start
    obtain ⟨same, next⟩ := follows _ s t request start
    obtain ⟨others, related⟩ := ih next
    simp only [Library.serve, same, others, true_and]
    exact related

end EbpfLab.Library
