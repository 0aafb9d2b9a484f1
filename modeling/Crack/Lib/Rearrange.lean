import Mathlib.Data.Fintype.Sort
import Mathlib.Logic.Equiv.Basic
import Mathlib.Order.Extension.Linear
import Mathlib.Logic.Relation

/-!
# Moving the elements of a finite order

Wherever the elements of a finite linear order are, they can be exchanged with one another
so that any relation without a cycle is respected by their new places, and two of them can
be taken to any two places.
-/
namespace Crack

open Relation

variable {α : Type*} {r : α → α → Prop}

/-- No element is reached from itself. -/
def NoCycle (r : α → α → Prop) : Prop := ∀ x, ¬TransGen r x x

theorem NoCycle.ne (h : NoCycle r) {x y : α} (hxy : r x y) : x ≠ y := by
  rintro rfl
  exact h x (.single hxy)

theorem NoCycle.isPartialOrder (h : NoCycle r) : IsPartialOrder α (ReflTransGen r) where
  refl _ := .refl
  trans _ _ _ := .trans
  antisymm x y hxy hyx := by
    rcases reflTransGen_iff_eq_or_transGen.mp hxy with heq | hxy
    · exact heq.symm
    · exact absurd (hxy.trans_left hyx) (h x)

/-- A relation that the order respects has no cycle. -/
theorem noCycle_of_lt {β : Type*} [Preorder β] {f : α → β} (h : ∀ x y, r x y → f x < f y) : NoCycle r := by
  have hlt : ∀ {x y}, TransGen r x y → f x < f y := by
    intro x y hxy
    induction hxy with
    | single hxy => exact h _ _ hxy
    | tail _ hyz ih => exact ih.trans (h _ _ hyz)
  intro x hx
  exact lt_irrefl _ (hlt hx)

/-- Some linear order goes up along the relation. -/
theorem NoCycle.exists_linearOrder (h : NoCycle r) : ∃ L : LinearOrder α, ∀ x y, r x y → L.lt x y := by
  have := h.isPartialOrder
  obtain ⟨s, hs, hrs⟩ := extend_partialOrder (ReflTransGen r)
  let L : LinearOrder α :=
    { le := s
      le_refl := hs.refl
      le_trans := hs.trans
      le_antisymm := hs.antisymm
      le_total := hs.total
      toDecidableLE := Classical.decRel _ }
  refine ⟨L, fun x y hxy => ?_⟩
  have hle : x ≤ y := hrs x y (.single hxy)
  exact lt_of_le_of_ne hle (h.ne hxy)

/-- The elements of a finite order are numbered along it. -/
theorem exists_numbering (α : Type*) [Fintype α] [LinearOrder α] :
    ∃ e : α ≃ Fin (Fintype.card α), ∀ x y, e x < e y ↔ x < y :=
  ⟨(monoEquivOfFin α rfl).symm.toEquiv, fun _ _ => (monoEquivOfFin α rfl).symm.lt_iff_lt⟩

/-- The elements can be moved so that they go up along the relation. -/
theorem NoCycle.exists_perm_lt [Finite α] [LinearOrder α] (h : NoCycle r) :
    ∃ σ : Equiv.Perm α, ∀ x y, r x y → σ x < σ y := by
  have := Fintype.ofFinite α
  obtain ⟨place, hplace⟩ := exists_numbering α
  obtain ⟨number, hnumber⟩ : ∃ e : α ≃ Fin (Fintype.card α), ∀ x y, r x y → e x < e y := by
    obtain ⟨L, hL⟩ := h.exists_linearOrder
    obtain ⟨e, he⟩ := @exists_numbering α _ L
    exact ⟨e, fun x y hxy => (he x y).mpr (hL x y hxy)⟩
  refine ⟨number.trans place.symm, fun x y hxy => ?_⟩
  rw [← hplace]
  simpa using hnumber x y hxy

/-- Two elements can be moved to any two places. -/
theorem exists_perm_pair [DecidableEq α] {i j x y : α} (hij : i ≠ j) (hxy : x ≠ y) :
    ∃ σ : Equiv.Perm α, σ i = x ∧ σ j = y := by
  have hne : Equiv.swap i x j ≠ x := by
    rw [Ne, Equiv.swap_apply_eq_iff, Equiv.swap_apply_right]
    exact hij.symm
  refine ⟨(Equiv.swap i x).trans (Equiv.swap (Equiv.swap i x j) y), ?_, ?_⟩
  · rw [Equiv.trans_apply, Equiv.swap_apply_left, Equiv.swap_apply_of_ne_of_ne hne.symm hxy]
  · rw [Equiv.trans_apply, Equiv.swap_apply_left]

end Crack
