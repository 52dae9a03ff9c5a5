import LosslessSyntax.Fault

/-!
# Steps on a state

`Step σ α` is a computation on a state that either yields an `α` or ends with a fault; in both cases
the state it has reached is kept, so the effects before a fault can be seen after it.
-/

set_option autoImplicit false

namespace LosslessSyntax

/-- A computation on a state that may end with a fault and keeps the state it has reached. -/
def Step (σ α : Type) : Type := σ → Except Fault α × σ

namespace Step

variable {σ α β : Type}

def run (x : Step σ α) (s : σ) : Except Fault α × σ := x s

instance : Monad (Step σ) where
  pure a := fun s => (.ok a, s)
  bind x f := fun s =>
    match x s with
    | (.ok a, t) => f a t
    | (.error e, t) => (.error e, t)

def get : Step σ σ := fun s => (.ok s, s)

def set (t : σ) : Step σ Unit := fun _ => (.ok (), t)

def modify (f : σ → σ) : Step σ Unit := fun s => (.ok (), f s)

def gets (f : σ → α) : Step σ α := fun s => (.ok (f s), s)

def fail (e : Fault) : Step σ α := fun s => (.error e, s)

/-- A computation that does not touch the state. -/
def lift (x : Except Fault α) : Step σ α := fun s => (x, s)

@[simp] theorem run_pure (a : α) (s : σ) : (pure a : Step σ α).run s = (.ok a, s) := rfl

@[simp] theorem run_get (s : σ) : (get : Step σ σ).run s = (.ok s, s) := rfl

@[simp] theorem run_set (s t : σ) : (set t).run s = (.ok (), t) := rfl

@[simp] theorem run_modify (f : σ → σ) (s : σ) : (modify f).run s = (.ok (), f s) := rfl

@[simp] theorem run_gets (f : σ → α) (s : σ) : (gets f).run s = (.ok (f s), s) := rfl

@[simp] theorem run_fail (e : Fault) (s : σ) : (fail e : Step σ α).run s = (.error e, s) := rfl

@[simp] theorem run_lift (x : Except Fault α) (s : σ) : (lift x).run s = (x, s) := rfl

theorem run_bind (x : Step σ α) (f : α → Step σ β) (s : σ) :
    (x >>= f).run s =
      match x.run s with
      | (.ok a, t) => (f a).run t
      | (.error e, t) => (.error e, t) := rfl

end Step

end LosslessSyntax
