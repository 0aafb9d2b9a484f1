import Mathlib.Tactic.Common

/-!
# How structured code ends

The executions of a piece of code are the set of its outcomes. Conditions are
not interpreted: a condition may be true or false, and evaluating it may throw.
-/
namespace Outcomes

inductive Outcome where
  | normal | «return» | «break» | «continue» | thrown
  deriving DecidableEq, Repr

/-- The outcomes of a piece of code over all of its executions. -/
abbrev Code := Outcome → Prop

/-- Code that ends in one way only. -/
def just (o : Outcome) : Code := fun o' => o' = o

/-- Code that ends in this way or throws. -/
def mayThrow (o : Outcome) : Code := fun o' => o' = o ∨ o' = .thrown

def seq (a b : Code) : Code := fun o => a .normal ∧ b o ∨ a o ∧ o ≠ .normal

def choice (a b : Code) : Code := fun o => a o ∨ b o

/-- A loop that tests its condition before each round. -/
inductive Loop (body : Code) : Code where
  | conditionThrows : Loop body .thrown
  | conditionFalse : Loop body .normal
  | again {o : Outcome} (hb : body .normal ∨ body .continue) (h : Loop body o) : Loop body o
  | break (hb : body .break) : Loop body .normal
  | leave {o : Outcome} (hb : body o) (ho : o = .return ∨ o = .thrown) : Loop body o

/-- An exception of the body reaches one of the handlers or none of them. -/
def tryCatch (body handlers : Code) : Code := fun o => body o ∨ body .thrown ∧ handlers o

variable {a b body handlers : Code} {o : Outcome}

theorem seq_abrupt (h : seq a b o) (ha : ¬ a .normal) : a o ∧ o ≠ .normal := by
  rcases h with ⟨hn, -⟩ | h
  · exact absurd hn ha
  · exact h

theorem not_seq (ha : ¬ a o) (hb : ¬ b o) : ¬ seq a b o := by
  rintro (⟨-, h⟩ | ⟨h, -⟩)
  · exact hb h
  · exact ha h

theorem not_choice (ha : ¬ a o) (hb : ¬ b o) : ¬ choice a b o := by
  rintro (h | h)
  · exact ha h
  · exact hb h

theorem not_tryCatch (hb : ¬ body o) (hh : ¬ handlers o) : ¬ tryCatch body handlers o := by
  rintro (h | ⟨-, h⟩)
  · exact hb h
  · exact hh h

/-- A `break` or `continue` in the body ends a round of the loop, not the loop. -/
theorem Loop.outcome (h : Loop body o) : o = .normal ∨ o = .return ∨ o = .thrown := by
  induction h with
  | conditionThrows => exact .inr (.inr rfl)
  | conditionFalse => exact .inl rfl
  | again _ _ ih => exact ih
  | «break» _ => exact .inl rfl
  | leave _ ho => exact .inr ho

theorem Loop.not_break : ¬ Loop body .break := by
  intro h
  rcases h.outcome with h | h | h <;> cases h

theorem Loop.not_continue : ¬ Loop body .continue := by
  intro h
  rcases h.outcome with h | h | h <;> cases h

end Outcomes
