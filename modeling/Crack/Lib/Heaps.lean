import Mathlib.Order.Basic

/-!
# Heaps

The entries of a complete binary tree are numbered from one, so that the parent of `i`
is `i / 2`. Entries are exchanged until each one is where its parent and its children
allow it to be.
-/
namespace Heaps

variable {α : Type} (le : α → α → Prop)

/-- No entry up to `n` whose parent is `k` or later is above its parent. -/
def HeapFrom (v : Nat → α) (k n : Nat) : Prop := ∀ i, 1 < i → i ≤ n → k ≤ i / 2 → le (v i) (v (i / 2))

/-- Only the children of `i` may be above their parent, and they are not above its parent. -/
structure BrokenBelow (v : Nat → α) (k n i : Nat) : Prop where
  others : ∀ j, 1 < j → j ≤ n → k ≤ j / 2 → j / 2 ≠ i → le (v j) (v (j / 2))
  around : k ≤ i / 2 → ∀ j, 1 < j → j ≤ n → j / 2 = i → le (v j) (v (i / 2))

/-- Only `i` may be above its parent, and its children are not above that parent. -/
structure BrokenAbove (v : Nat → α) (n i : Nat) : Prop where
  others : ∀ j, 1 < j → j ≤ n → j ≠ i → le (v j) (v (j / 2))
  around : 1 < i → ∀ j, 1 < j → j ≤ n → j / 2 = i → le (v j) (v (i / 2))

def swapped (v : Nat → α) (a b : Nat) (i : Nat) : α := if i = a then v b else if i = b then v a else v i

/-- The entries up to `n` are in other places, and the others where they were. -/
structure Moves (v v' : Nat → α) (n : Nat) : Prop where
  inside : ∀ i, 0 < i → i ≤ n → ∃ j, 0 < j ∧ j ≤ n ∧ v' i = v j
  outside : ∀ i, n < i → v' i = v i

variable {le} {v v' v'' : Nat → α} {k n i a b c : Nat}

@[simp] theorem swapped_left : swapped v a b a = v b := if_pos rfl

@[simp] theorem swapped_right : swapped v a b b = v a := by
  rw [swapped]
  split
  · next h => rw [h]
  · exact if_pos rfl

theorem swapped_other (ha : i ≠ a) (hb : i ≠ b) : swapped v a b i = v i := by rw [swapped, if_neg ha, if_neg hb]

namespace Moves

theorem refl (v : Nat → α) (n : Nat) : Moves v v n := ⟨fun i h0 hi => ⟨i, h0, hi, rfl⟩, fun _ _ => rfl⟩

theorem trans (h : Moves v v' n) (h' : Moves v' v'' n) : Moves v v'' n where
  inside i h0 hi := by
    obtain ⟨j, hj0, hj, he⟩ := h'.inside i h0 hi
    obtain ⟨l, hl0, hl, he'⟩ := h.inside j hj0 hj
    exact ⟨l, hl0, hl, he.trans he'⟩
  outside i hi := (h'.outside i hi).trans (h.outside i hi)

theorem swapped (ha : 0 < a) (han : a ≤ n) (hb : 0 < b) (hbn : b ≤ n) : Moves v (swapped v a b) n where
  inside i h0 hi := by
    rw [Heaps.swapped]
    split
    · exact ⟨b, hb, hbn, rfl⟩
    · split
      · exact ⟨a, ha, han, rfl⟩
      · exact ⟨i, h0, hi, rfl⟩
  outside i hi := swapped_other (by omega) (by omega)

end Moves

/-- In a heap the top is not below any entry. -/
theorem HeapFrom.le_top (hrefl : ∀ x, le x x) (htrans : ∀ x y z, le x y → le y z → le x z) (h : HeapFrom le v 1 n)
    (h0 : 0 < i) (hi : i ≤ n) : le (v i) (v 1) := by
  induction i using Nat.strongRecOn with
  | ind i ih =>
    by_cases h1 : i = 1
    · rw [h1]
      exact hrefl _
    · have hparent : le (v (i / 2)) (v 1) := ih (i / 2) (by omega) (by omega) (by omega)
      exact htrans _ _ _ (h i (by omega) hi (by omega)) hparent

theorem HeapFrom.mono {k' n' : Nat} (h : HeapFrom le v k n) (hk : k ≤ k') (hn : n' ≤ n) : HeapFrom le v k' n' :=
  fun i h1 hi hki => h i h1 (Nat.le_trans hi hn) (Nat.le_trans hk hki)

/-- One parent more. -/
theorem HeapFrom.broken (h : HeapFrom le v (k + 1) n) : BrokenBelow le v k n k where
  others j h1 hj hkj hne := h j h1 hj (by omega)
  around hk := by
    intro j h1 hj hjk
    have hzero : k = 0 := by omega
    omega

/-- The last entry is put at the top. -/
theorem HeapFrom.swapTop (h : HeapFrom le v 1 (n + 1)) : BrokenBelow le (swapped v 1 (n + 1)) 1 n 1 := by
  refine HeapFrom.broken fun j h1 hj hkj => ?_
  rw [swapped_other (by omega) (by omega), swapped_other (by omega) (by omega)]
  exact h j h1 (by omega) (by omega)

/-- The greatest child goes up. -/
theorem BrokenBelow.down (h : BrokenBelow le v k n i) (hi : 0 < i) (hc : c / 2 = i) (hcn : c ≤ n)
    (hgreatest : ∀ j, 1 < j → j ≤ n → j / 2 = i → le (v j) (v c)) (hup : le (v i) (v c)) :
    BrokenBelow le (swapped v i c) k n c := by
  have hci : c ≠ i := by omega
  constructor
  · intro j h1 hj hkj hjc
    by_cases hj_i : j = i
    · have hpi : i / 2 ≠ i := by omega
      have hpc : i / 2 ≠ c := by omega
      rw [hj_i, swapped_left, swapped_other hpi hpc]
      exact h.around (hj_i ▸ hkj) c (by omega) hcn hc
    · by_cases hparent : j / 2 = i
      · rw [hparent, swapped_left]
        by_cases hj_c : j = c
        · rw [hj_c, swapped_right]
          exact hup
        · rw [swapped_other hj_i hj_c]
          exact hgreatest j h1 hj hparent
      · have hj_c : j ≠ c := fun hjc' => hparent (hjc' ▸ hc)
        rw [swapped_other hj_i hj_c, swapped_other hparent hjc]
        exact h.others j h1 hj hkj hparent
  · intro hk j h1 hj hjc
    rw [hc, swapped_left, swapped_other (by omega) (by omega)]
    have hjn := h.others j h1 hj (by omega) (by omega)
    rwa [hjc] at hjn

theorem BrokenBelow.stop (h : BrokenBelow le v k n i) (hgreatest : ∀ j, 1 < j → j ≤ n → j / 2 = i → le (v j) (v i)) :
    HeapFrom le v k n := by
  intro j h1 hj hkj
  by_cases hji : j / 2 = i
  · rw [hji]
    exact hgreatest j h1 hj hji
  · exact h.others j h1 hj hkj hji

theorem HeapFrom.brokenAbove (h : HeapFrom le v 1 n) : BrokenAbove le v (n + 1) (n + 1) where
  others j h1 hj hne := h j h1 (by omega) (by omega)
  around h1 := by
    intro j hj1 hj hjn
    omega

theorem BrokenAbove.up (htrans : ∀ x y z, le x y → le y z → le x z) (h : BrokenAbove le v n i) (hi : 1 < i)
    (hin : i ≤ n) (hup : le (v (i / 2)) (v i)) : BrokenAbove le (swapped v i (i / 2)) n (i / 2) where
  others j h1 hj hne := by
    by_cases hji : j = i
    · rw [hji, swapped_left, swapped_right]
      exact hup
    · rw [swapped_other hji hne]
      by_cases hchild : j / 2 = i
      · rw [hchild, swapped_left]
        exact h.around hi j h1 hj hchild
      · by_cases hsibling : j / 2 = i / 2
        · rw [hsibling, swapped_right]
          have hparent := h.others j h1 hj hji
          rw [hsibling] at hparent
          exact htrans _ _ _ hparent hup
        · rw [swapped_other hchild hsibling]
          exact h.others j h1 hj hji
  around h1 := by
    intro j hj1 hj hji
    have htop : le (v (i / 2)) (v (i / 2 / 2)) := h.others (i / 2) h1 (by omega) (by omega)
    have hp1 : i / 2 / 2 ≠ i := by omega
    have hp2 : i / 2 / 2 ≠ i / 2 := by omega
    rw [swapped_other hp1 hp2]
    by_cases hj_i : j = i
    · rw [hj_i, swapped_left]
      exact htop
    · rw [swapped_other hj_i (by omega)]
      have hparent := h.others j hj1 hj hj_i
      rw [hji] at hparent
      exact htrans _ _ _ hparent htop

theorem BrokenAbove.stop (h : BrokenAbove le v n i) (hparent : 1 < i → le (v i) (v (i / 2))) : HeapFrom le v 1 n := by
  intro j h1 hj hkj
  by_cases hji : j = i
  · rw [hji]
    exact hparent (hji ▸ h1)
  · exact h.others j h1 hj hji

end Heaps
