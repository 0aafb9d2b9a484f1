import Mathlib.Tactic.Common

/-!
# Effects

A function on a state that may throw. What it changed before stays changed. A triple of
such a function says what holds behind it, of the value or of the error.
-/

/-- The state behind a function, with its value or its error. -/
def Effect (ε σ α : Type) : Type := σ → Except ε α × σ

namespace Effect

variable {ε σ α β : Type}

instance : Monad (Effect ε σ) where
  pure a := fun s => (.ok a, s)
  bind m f := fun s =>
    match m s with
    | (.ok a, s') => f a s'
    | (.error e, s') => (.error e, s')

def throw (e : ε) : Effect ε σ α := fun s => (.error e, s)

variable {m : Effect ε σ α} {f : α → Effect ε σ β} {s s' : σ} {a : α} {e : ε}

theorem bind_apply : (m >>= f) s = match m s with
    | (.ok a, s') => f a s'
    | (.error e, s') => (.error e, s') := rfl

theorem bind_ok (h : m s = (.ok a, s')) : (m >>= f) s = f a s' := by
  rw [bind_apply, h]

theorem bind_error (h : m s = (.error e, s')) : (m >>= f) s = (.error e, s') := by
  rw [bind_apply, h]

/-- From a state, a value with its state is in `Q`, and an error with its state in `E`. -/
def Runs (m : Effect ε σ α) (s : σ) (Q : α → σ → Prop) (E : ε → σ → Prop) : Prop :=
  match m s with
  | (.ok a, s') => Q a s'
  | (.error e, s') => E e s'

variable {Q Q' : α → σ → Prop} {R : β → σ → Prop} {E E' : ε → σ → Prop}

theorem Runs.pure (h : Q a s) : Runs (pure a) s Q E := h

theorem Runs.throw (h : E e s) : Runs (throw e) s Q E := h

theorem Runs.ok (h : Runs m s Q E) (hm : m s = (.ok a, s')) : Q a s' := by
  rw [Runs, hm] at h
  exact h

theorem Runs.error (h : Runs m s Q E) (hm : m s = (.error e, s')) : E e s' := by
  rw [Runs, hm] at h
  exact h

theorem Runs.of_ok (hm : m s = (.ok a, s')) (h : Q a s') : Runs m s Q E := by
  rw [Runs, hm]
  exact h

theorem Runs.of_error (hm : m s = (.error e, s')) (h : E e s') : Runs m s Q E := by
  rw [Runs, hm]
  exact h

theorem Runs.bind (h : Runs m s Q E) (hf : ∀ a s', Q a s' → Runs (f a) s' R E) : Runs (m >>= f) s R E := by
  rw [Runs, bind_apply]
  cases hm : m s with
  | mk r s' =>
    cases r with
    | ok a => exact hf a s' (h.ok hm)
    | error e => exact h.error hm

theorem Runs.mono (h : Runs m s Q E) (hQ : ∀ a s', Q a s' → Q' a s') (hE : ∀ e s', E e s' → E' e s') :
    Runs m s Q' E' := by
  rw [Runs]
  cases hm : m s with
  | mk r s' =>
    cases r with
    | ok a => exact hQ a s' (h.ok hm)
    | error e => exact hE e s' (h.error hm)

end Effect
