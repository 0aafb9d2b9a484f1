import Mathlib.Data.List.Basic
import Mathlib.Data.List.Nodup

/-!
# Replacements one after the other

Pairs of an element and its replacement, applied in their order, so that a replacement may be replaced in turn.
-/
namespace Replacing

variable {α : Type} [DecidableEq α]

def step (b : α) (p : α × α) : α := if b = p.1 then p.2 else b

def inTurn (pairs : List (α × α)) (b : α) : α := pairs.foldl step b

/-- One or more of the pairs lead from an element to another, in their order. -/
inductive Leads : List (α × α) → α → α → Prop where
  | last (p : α × α) (pairs : List (α × α)) : Leads (p :: pairs) p.1 p.2
  | more {p : α × α} {pairs : List (α × α)} {c : α} : Leads pairs p.2 c → Leads (p :: pairs) p.1 c
  | skip (p : α × α) {pairs : List (α × α)} {b c : α} : Leads pairs b c → Leads (p :: pairs) b c

variable {p : α × α} {pairs : List (α × α)} {b c : α}

@[simp] theorem inTurn_nil (b : α) : inTurn [] b = b := rfl

theorem inTurn_cons (p : α × α) (pairs : List (α × α)) (b : α) : inTurn (p :: pairs) b = inTurn pairs (step b p) := rfl

theorem inTurn_append (pairs pairs' : List (α × α)) (b : α) :
    inTurn (pairs ++ pairs') b = inTurn pairs' (inTurn pairs b) := List.foldl_append

theorem step_self (p : α × α) : step p.1 p = p.2 := if_pos rfl

theorem step_of_ne (h : b ≠ p.1) : step b p = b := if_neg h

theorem inTurn_of_not_mem (h : b ∉ pairs.map Prod.fst) : inTurn pairs b = b := by
  induction pairs with
  | nil => rfl
  | cons p pairs ih =>
    obtain ⟨hne, hrest⟩ := not_or.mp (mt List.mem_cons.mpr h)
    rw [inTurn_cons, step_of_ne hne, ih hrest]

omit [DecidableEq α] in
theorem Leads.mem (h : Leads pairs b c) : b ∈ pairs.map Prod.fst := by
  induction h with
  | last p pairs => exact List.mem_cons_self
  | more _ _ => exact List.mem_cons_self
  | skip p _ ih => exact List.mem_cons_of_mem _ ih

/-- The pairs that are applied lead to the result. -/
theorem leads_inTurn (h : b ∈ pairs.map Prod.fst) : Leads pairs b (inTurn pairs b) := by
  induction pairs generalizing b with
  | nil => exact absurd h List.not_mem_nil
  | cons p pairs ih =>
    rw [inTurn_cons]
    by_cases hb : b = p.1
    · subst hb
      rw [step_self]
      by_cases hmem : p.2 ∈ pairs.map Prod.fst
      · exact .more (ih hmem)
      · rw [inTurn_of_not_mem hmem]
        exact .last p pairs
    · rw [step_of_ne hb]
      exact .skip p (ih ((List.mem_cons.mp h).resolve_left hb))

/-- Where the pairs lead to an element that none of them replaces, that is the result. -/
theorem Leads.inTurn_eq (h : Leads pairs b c) (hnodup : (pairs.map Prod.fst).Nodup) (hc : c ∉ pairs.map Prod.fst) :
    inTurn pairs b = c := by
  induction h with
  | last p pairs =>
    rw [inTurn_cons, step_self]
    exact inTurn_of_not_mem fun hmem => hc (List.mem_cons_of_mem _ hmem)
  | @more p pairs c h ih =>
    rw [inTurn_cons, step_self]
    exact ih (List.nodup_cons.mp hnodup).2 fun hmem => hc (List.mem_cons_of_mem _ hmem)
  | @skip p pairs b c h ih =>
    have hb : b ≠ p.1 := fun hb => (List.nodup_cons.mp hnodup).1 (hb ▸ h.mem)
    rw [inTurn_cons, step_of_ne hb]
    exact ih (List.nodup_cons.mp hnodup).2 fun hmem => hc (List.mem_cons_of_mem _ hmem)

/-- A way back ends with the result, for what it starts with is not replaced a second time. -/
theorem Leads.inTurn_back (h : Leads pairs b c) (heq : b = c) (hnodup : (pairs.map Prod.fst).Nodup) :
    inTurn pairs b = c := by
  induction h with
  | last p pairs =>
    rw [inTurn_cons, step_self]
    exact inTurn_of_not_mem (heq ▸ (List.nodup_cons.mp hnodup).1)
  | more h _ =>
    obtain ⟨hp, hrest⟩ := List.nodup_cons.mp hnodup
    rw [inTurn_cons, step_self]
    exact h.inTurn_eq hrest (heq ▸ hp)
  | skip p h ih =>
    obtain ⟨hp, hrest⟩ := List.nodup_cons.mp hnodup
    rw [inTurn_cons, step_of_ne fun hb => hp (hb ▸ h.mem)]
    exact ih heq hrest

theorem inTurn_self_iff (hnodup : (pairs.map Prod.fst).Nodup) :
    inTurn pairs b = b ↔ b ∉ pairs.map Prod.fst ∨ Leads pairs b b := by
  constructor
  · intro h
    by_cases hb : b ∈ pairs.map Prod.fst
    · have hleads := leads_inTurn hb
      rw [h] at hleads
      exact .inr hleads
    · exact .inl hb
  · rintro (hb | h)
    · exact inTurn_of_not_mem hb
    · exact h.inTurn_back rfl hnodup

/-- An element keeps the replacement that its own pair has for it, if that is not replaced for good later. -/
theorem inTurn_eq_iff {before behind : List (α × α)} (hnodup : ((before ++ (b, c) :: behind).map Prod.fst).Nodup) :
    inTurn (before ++ (b, c) :: behind) b = c ↔ c ∉ behind.map Prod.fst ∨ Leads behind c c := by
  rw [List.map_append, List.map_cons] at hnodup
  obtain ⟨-, hbehind, hboth⟩ := List.nodup_append.mp hnodup
  have hb : b ∉ before.map Prod.fst := fun hmem => hboth b hmem b List.mem_cons_self rfl
  rw [inTurn_append, inTurn_of_not_mem hb, inTurn_cons, step_self (b, c)]
  exact inTurn_self_iff (List.nodup_cons.mp hbehind).2

end Replacing
