/-!
# Fallible operations in place

An operation that changes a state through a mutable reference and may fail half-way: an error leaves
behind whatever was written before it. Most such operations write only when they succeed, and are then
functions of the state.
-/

namespace EbpfLab.Library

/-- A fallible operation on a state in place. -/
abbrev Mutating (ε σ : Type) := ExceptT ε (StateM σ)

namespace Mutating

variable {ε σ τ α β : Type} {s : σ}

/-- A check that reads nothing of the state. -/
def check (result : Except ε α) : Mutating ε σ α := ExceptT.mk (pure result)

/-- Run an operation on a state. -/
def exec (op : Mutating ε σ α) (s : σ) : Except ε α × σ := op.run.run s

/-- An operation on a part of the state, which keeps what it leaves there also on an error. -/
def focus (part : σ → τ) (put : τ → σ → σ) (op : Mutating ε τ α) : Mutating ε σ α :=
  ExceptT.mk fun s => ((op.exec (part s)).1, put (op.exec (part s)).2 s)

/-- A function on states run in place: an error writes nothing. -/
def writeOnSuccess (result : Except ε (α × σ)) (s : σ) : Except ε α × σ :=
  match result with
  | .ok (v, s') => (.ok v, s')
  | .error e => (.error e, s)

@[simp] theorem exec_check_bind (result : Except ε α) (f : α → Mutating ε σ β) :
    exec (check result >>= f) s =
      match result with
      | .ok a => exec (f a) s
      | .error e => (.error e, s) := by
  cases result <;> rfl

@[simp] theorem exec_get_bind (f : σ → Mutating ε σ β) : exec (get >>= f) s = exec (f s) s := rfl

@[simp] theorem exec_set (s' : σ) : exec (set s' : Mutating ε σ Unit) s = (.ok (), s') := rfl

@[simp] theorem exec_set_bind (s' : σ) (f : Unit → Mutating ε σ β) :
    exec ((set s' : Mutating ε σ Unit) >>= f) s = exec (f ()) s' := rfl

@[simp] theorem exec_modify (g : σ → σ) : exec (modify g : Mutating ε σ Unit) s = (.ok (), g s) := rfl

@[simp] theorem exec_modify_bind (g : σ → σ) (f : Unit → Mutating ε σ β) :
    exec ((modify g : Mutating ε σ Unit) >>= f) s = exec (f ()) (g s) := rfl

@[simp] theorem exec_pure (a : α) : exec (pure a : Mutating ε σ α) s = (.ok a, s) := rfl

@[simp] theorem exec_throw (e : ε) : exec (throw e : Mutating ε σ α) s = (.error e, s) := rfl

@[simp] theorem exec_throw_bind (e : ε) (f : β → Mutating ε σ α) :
    exec ((throw e : Mutating ε σ β) >>= f) s = (.error e, s) := rfl

@[simp] theorem exec_focus (part : σ → τ) (put : τ → σ → σ) (op : Mutating ε τ α) :
    exec (focus part put op) s = ((op.exec (part s)).1, put (op.exec (part s)).2 s) := rfl

end Mutating

end EbpfLab.Library
