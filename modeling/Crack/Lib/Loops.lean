import Mathlib.Tactic.Common

/-!
# Loops and recursion

A loop that counts up and may fail is a fold over its counters. An invariant that
each round carries from a counter to the next one holds at the end.

A recursive function without a bound of its own takes fuel. It returns `r` if it
does so with every amount of fuel that is large enough.

A step that may fail follows one that cannot: where it returns it stays related to it, and it returns as
long as there is room. So does a fold of it.
-/
namespace Loops

variable {ε σ τ : Type}

/-- What a step and the rest of the code that returns a result have returned. -/
theorem bind_ok {x : Except ε σ} {g : σ → Except ε τ} {t : τ} (h : (x >>= g) = .ok t) : ∃ s, x = .ok s ∧ g s = .ok t := by
  cases x with
  | error e => cases h
  | ok s => exact ⟨s, rfl, h⟩

variable {f : σ → Nat → Except ε σ} {s : σ}

/-- The rounds `i`, `i + 1`, ..., of which there are `n`. -/
def loop (f : σ → Nat → Except ε σ) (i n : Nat) (s : σ) : Except ε σ := (List.range' i n).foldlM f s

theorem loop_succ (i n : Nat) : loop f i (n + 1) s = f s i >>= loop f (i + 1) n := rfl

theorem loop_ok (I : Nat → σ → Prop) {i n : Nat} (h : I i s)
    (step : ∀ j s, i ≤ j → j < i + n → I j s → ∃ s', f s j = .ok s' ∧ I (j + 1) s') :
    ∃ s', loop f i n s = .ok s' ∧ I (i + n) s' := by
  induction n generalizing i s with
  | zero => exact ⟨s, rfl, h⟩
  | succ n ih =>
    obtain ⟨s₁, he₁, h₁⟩ := step i s (Nat.le_refl i) (Nat.lt_add_of_pos_right (Nat.succ_pos n)) h
    have hstep : ∀ j s, i + 1 ≤ j → j < i + 1 + n → I j s → ∃ s', f s j = .ok s' ∧ I (j + 1) s' := by
      intro j s hi hj
      exact step j s (Nat.le_of_succ_le hi) (by omega)
    obtain ⟨s₂, he₂, h₂⟩ := ih h₁ hstep
    refine ⟨s₂, ?_, ?_⟩
    · rw [loop_succ, he₁]
      exact he₂
    · rwa [Nat.add_right_comm] at h₂

/-- A loop that comes to its end has come through each of its rounds. -/
theorem round_of_loop_ok {s' : σ} {i n j : Nat} (h : loop f i n s = .ok s') (hi : i ≤ j) (hj : j < i + n) :
    ∃ t t', f t j = .ok t' := by
  induction n generalizing i s with
  | zero => omega
  | succ n ih =>
    rw [loop_succ] at h
    obtain ⟨s₁, he₁, h₁⟩ := bind_ok h
    rcases Nat.eq_or_lt_of_le hi with rfl | hlt
    · exact ⟨s, s₁, he₁⟩
    · exact ih h₁ hlt (by omega)

end Loops

namespace Fuel

variable {α α₁ α₂ : Type}

def Returns (f : Nat → α) (r : α) : Prop := ∃ n, ∀ fuel, n ≤ fuel → f fuel = r

variable {f : Nat → α} {f₁ : Nat → α₁} {f₂ : Nat → α₂} {r r' : α} {r₁ : α₁} {r₂ : α₂}

theorem Returns.unique (h : Returns f r) (h' : Returns f r') : r = r' := by
  obtain ⟨n, hn⟩ := h
  obtain ⟨m, hm⟩ := h'
  rw [← hn (n + m) (Nat.le_add_right n m), hm (n + m) (Nat.le_add_left m n)]

theorem Returns.and (h₁ : Returns f₁ r₁) (h₂ : Returns f₂ r₂) :
    Returns (fun fuel => (f₁ fuel, f₂ fuel)) (r₁, r₂) := by
  obtain ⟨n, hn⟩ := h₁
  obtain ⟨m, hm⟩ := h₂
  refine ⟨n + m, fun fuel hle => ?_⟩
  exact Prod.ext (hn fuel (by omega)) (hm fuel (by omega))

/-- Code that relies on a call with the same fuel. -/
theorem Returns.imp (h : Returns f₁ r₁) (hf : ∀ fuel, f₁ fuel = r₁ → f fuel = r) : Returns f r := by
  obtain ⟨n, hn⟩ := h
  exact ⟨n, fun fuel hle => hf fuel (hn fuel hle)⟩

theorem Returns.now (h : ∀ fuel, f (fuel + 1) = r) : Returns f r := by
  refine ⟨1, fun fuel hle => ?_⟩
  obtain ⟨k, rfl⟩ := Nat.exists_eq_add_of_le' hle
  exact h k

/-- A call with one unit of fuel more that relies on another one. -/
theorem Returns.step (h : Returns f₁ r₁) (hf : ∀ fuel, f₁ fuel = r₁ → f (fuel + 1) = r) : Returns f r := by
  obtain ⟨n, hn⟩ := h
  refine ⟨n + 1, fun fuel hle => ?_⟩
  obtain ⟨k, rfl⟩ := Nat.exists_eq_add_of_le' hle
  exact hf (k + n) (hn (k + n) (Nat.le_add_left n k))

theorem Returns.step₂ (h₁ : Returns f₁ r₁) (h₂ : Returns f₂ r₂)
    (hf : ∀ fuel, f₁ fuel = r₁ → f₂ fuel = r₂ → f (fuel + 1) = r) : Returns f r :=
  (h₁.and h₂).step fun fuel h => hf fuel (congrArg Prod.fst h) (congrArg Prod.snd h)

/-- Enough fuel for every member of a list. -/
theorem forall_mem {P : Nat → α → Prop} (l : List α) (h : ∀ a ∈ l, ∃ n, ∀ fuel, n ≤ fuel → P fuel a) :
    ∃ n, ∀ fuel, n ≤ fuel → ∀ a ∈ l, P fuel a := by
  induction l with
  | nil => exact ⟨0, fun _ _ _ ha => nomatch ha⟩
  | cons a l ih =>
    obtain ⟨n, hn⟩ := h a List.mem_cons_self
    obtain ⟨m, hm⟩ := ih (fun b hb => h b (List.mem_cons_of_mem _ hb))
    refine ⟨n + m, fun fuel hle b hb => ?_⟩
    rcases List.mem_cons.mp hb with rfl | hb
    · exact hn fuel (by omega)
    · exact hm fuel (by omega) b hb

end Fuel

namespace Simulation

open Loops (bind_ok)

variable {ε σ τ β : Type} {f : σ → β → Except ε σ} {g : τ → β → τ} {R : σ → τ → Prop} {size : τ → Nat} {bound : Nat}

structure Follows (f : σ → β → Except ε σ) (g : τ → β → τ) (R : σ → τ → Prop) (size : τ → Nat) (bound : Nat) :
    Prop where
  only : ∀ s t b s', R s t → f s b = .ok s' → R s' (g t b)
  total : ∀ s t b, R s t → size t < bound → ∃ s', f s b = .ok s'
  grows : ∀ t b, size (g t b) ≤ size t + 1

variable {s s' : σ} {t : τ} {xs : List β}

theorem Follows.foldlM_only (h : Follows f g R size bound) (hst : R s t) (he : xs.foldlM f s = .ok s') :
    R s' (xs.foldl g t) := by
  induction xs generalizing s t with
  | nil =>
    cases he
    exact hst
  | cons b xs ih =>
    obtain ⟨s₁, hstep, he⟩ := bind_ok he
    exact ih (h.only s t b s₁ hst hstep) he

theorem Follows.size_foldl_le (h : Follows f g R size bound) (t : τ) (xs : List β) :
    size (xs.foldl g t) ≤ size t + xs.length := by
  induction xs generalizing t with
  | nil => exact Nat.le_refl _
  | cons b xs ih =>
    have hstep := h.grows t b
    have hrest := ih (g t b)
    rw [List.foldl_cons, List.length_cons]
    omega

theorem Follows.foldlM_total (h : Follows f g R size bound) (hst : R s t) (xs : List β)
    (hroom : size t + xs.length ≤ bound) : ∃ s', xs.foldlM f s = .ok s' := by
  induction xs generalizing s t with
  | nil => exact ⟨s, rfl⟩
  | cons b xs ih =>
    rw [List.length_cons] at hroom
    obtain ⟨s₁, hstep⟩ := h.total s t b hst (by omega)
    have hgrows := h.grows t b
    obtain ⟨s', he⟩ := ih (h.only s t b s₁ hst hstep) (by omega)
    refine ⟨s', ?_⟩
    rw [List.foldlM_cons, hstep]
    exact he

end Simulation
