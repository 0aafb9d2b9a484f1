import Mathlib.Tactic.Common

/-!
# Spans of an array

An array as a partial function of an integer index, for code that works on the span
from `l` to `r` of it by swapping entries: what holds of the entries of a span, which
arrays are rearrangements of a span, and runs that are mirrored into one another.
-/
namespace Spans

variable {α : Type}

def entry (s : Array α) (i : Int) : Option α := if 0 ≤ i then s[i.toNat]? else none

/-- The span is part of the array. -/
def Within (l r : Int) (s : Array α) : Prop := ∀ i, l ≤ i → i ≤ r → (entry s i).isSome = true

/-- All entries from `a` up to `b`, and not `b` itself. -/
def AllIn (P : α → Prop) (s : Array α) (a b : Int) : Prop := ∀ i, a ≤ i → i < b → ∀ x ∈ entry s i, P x

def put (s : Array α) (i : Int) (x : α) : Array α := s.setIfInBounds i.toNat x

/-- Both entries exist wherever this is used. -/
def swap (s : Array α) (i j : Int) : Array α := s.swapIfInBounds i.toNat j.toNat

/-- The entries of the span are in another order, and the others are the same. -/
structure Rearranges (l r : Int) (s s' : Array α) : Prop where
  perm : s'.Perm s
  outside : ∀ i, i < l ∨ r < i → entry s' i = entry s i
  inside : ∀ i, l ≤ i → i ≤ r → ∃ j, l ≤ j ∧ j ≤ r ∧ entry s' i = entry s j

def Sorted (le : α → α → Prop) (l r : Int) (s : Array α) : Prop :=
  ∀ i j, l ≤ i → i < j → j ≤ r → ∀ x ∈ entry s i, ∀ y ∈ entry s j, le x y

variable {s s' s'' : Array α} {i j k l r a b : Int} {P Q : α → Prop} {n : Nat}

section Entries

theorem entry_isSome : (entry s i).isSome = true ↔ 0 ≤ i ∧ i.toNat < s.size := by
  unfold entry
  split
  · simp_all
  · simp
    omega

theorem entry_natCast (n : Nat) : entry s n = s[n]? := by simp [entry]

theorem entry_put (hi : (entry s i).isSome = true) {x : α} :
    entry (put s i x) k = if k = i then some x else entry s k := by
  rw [entry_isSome] at hi
  unfold entry put
  by_cases hk : 0 ≤ k
  · simp only [hk, if_true, Array.getElem?_setIfInBounds]
    by_cases heq : k = i
    · simp [heq, hi]
    · have hne : i.toNat ≠ k.toNat := by omega
      simp [heq, hne]
  · have hne : k ≠ i := by omega
    simp [hk, hne]

theorem entry_swap (hi : (entry s i).isSome = true) (hj : (entry s j).isSome = true) :
    entry (swap s i j) k = if k = i then entry s j else if k = j then entry s i else entry s k := by
  rw [entry_isSome] at hi hj
  have hswap : swap s i j = s.swap i.toNat j.toNat hi.2 hj.2 := by
    simp [swap, Array.swapIfInBounds_def, hi.2, hj.2]
  rw [hswap]
  unfold entry
  by_cases hk : 0 ≤ k
  · rw [if_pos hk, Array.getElem?_swap, if_pos hi.1, if_pos hj.1, if_pos hk]
    have hik : i.toNat = k.toNat ↔ k = i := by omega
    have hjk : j.toNat = k.toNat ↔ k = j := by omega
    simp only [hik, hjk, Array.getElem?_eq_getElem hi.2, Array.getElem?_eq_getElem hj.2]
    split <;> split <;> simp_all
  · have hki : k ≠ i := by omega
    have hkj : k ≠ j := by omega
    rw [if_neg hk, if_neg hki, if_neg hkj, if_neg hk]

theorem swap_self (hi : (entry s i).isSome = true) : swap s i i = s := by
  apply Array.ext_getElem?
  intro n
  rw [← entry_natCast, ← entry_natCast, entry_swap hi hi]
  split
  · next h => rw [h]
  · rfl

theorem swap_perm : (swap s i j).Perm s := by
  unfold swap
  rw [Array.swapIfInBounds_def]
  split
  · split
    · exact Array.swap_perm _ _
    · exact .refl _
  · exact .refl _

theorem entry_put_isSome {x : α} : (entry (put s i x) k).isSome = (entry s k).isSome := by
  rw [Bool.eq_iff_iff, entry_isSome, entry_isSome, put, Array.size_setIfInBounds]

/-- A swap by way of a temporary. -/
theorem put_put {x y : α} (hx : entry s i = some x) (hy : entry s j = some y) : put (put s i y) j x = swap s i j := by
  have hi : (entry s i).isSome = true := by simp [hx]
  have hj : (entry s j).isSome = true := by simp [hy]
  apply Array.ext_getElem?
  intro n
  rw [← entry_natCast, ← entry_natCast, entry_put (by rwa [entry_put_isSome]), entry_put hi, entry_swap hi hj, hx, hy]
  split
  · split
    · next h₁ h₂ => rw [h₁] at h₂; rw [h₂, hx] at hy; exact hy
    · rfl
  · rfl

end Entries

section Holds

theorem AllIn.mono (h : AllIn P s a b) {a' b' : Int} (ha : a ≤ a') (hb : b' ≤ b) : AllIn P s a' b' :=
  fun i hi hi' => h i (Int.le_trans ha hi) (Int.lt_of_lt_of_le hi' hb)

theorem AllIn.imp (h : AllIn P s a b) (hPQ : ∀ x, P x → Q x) : AllIn Q s a b :=
  fun i hi hi' x hx => hPQ x (h i hi hi' x hx)

theorem AllIn.append {c : Int} (h : AllIn P s a b) (h' : AllIn P s b c) : AllIn P s a c := by
  intro i hi hi'
  by_cases hb : i < b
  · exact h i hi hb
  · exact h' i (by omega) hi'

theorem AllIn.of_le (h : b ≤ a) : AllIn P s a b := fun i hi hi' => absurd hi' (by omega)

theorem AllIn.congr (h : AllIn P s a b) (he : ∀ i, a ≤ i → i < b → entry s' i = entry s i) : AllIn P s' a b := by
  intro i hi hi' x hx
  rw [he i hi hi'] at hx
  exact h i hi hi' x hx

/-- One entry more. -/
theorem AllIn.snoc (h : AllIn P s a b) (hx : ∀ x ∈ entry s b, P x) : AllIn P s a (b + 1) := by
  refine h.append fun i hi hi' => ?_
  obtain rfl : i = b := by omega
  exact hx

theorem AllIn.cons (h : AllIn P s (a + 1) b) (hx : ∀ x ∈ entry s a, P x) : AllIn P s a b := by
  intro i hi hi'
  by_cases ha : i = a
  · rw [ha]
    exact hx
  · exact h i (by omega) hi'

end Holds

namespace Rearranges

theorem refl (l r : Int) (s : Array α) : Rearranges l r s s := ⟨.refl _, fun _ _ => rfl, fun i hl hr => ⟨i, hl, hr, rfl⟩⟩

theorem trans (h : Rearranges l r s s') (h' : Rearranges l r s' s'') : Rearranges l r s s'' := by
  refine ⟨h'.perm.trans h.perm, fun i hi => (h'.outside i hi).trans (h.outside i hi), fun i hl hr => ?_⟩
  obtain ⟨j, hjl, hjr, hj⟩ := h'.inside i hl hr
  obtain ⟨k, hkl, hkr, hk⟩ := h.inside j hjl hjr
  exact ⟨k, hkl, hkr, hj.trans hk⟩

theorem mono {l' r' : Int} (h : Rearranges l r s s') (hl : l' ≤ l) (hr : r ≤ r') : Rearranges l' r' s s' := by
  refine ⟨h.perm, fun i hi => h.outside i (by omega), fun i hil hir => ?_⟩
  by_cases hout : i < l ∨ r < i
  · exact ⟨i, hil, hir, h.outside i hout⟩
  · obtain ⟨j, hjl, hjr, hj⟩ := h.inside i (by omega) (by omega)
    exact ⟨j, by omega, by omega, hj⟩

theorem swap (hw : Within l r s) (hi : l ≤ i ∧ i ≤ r) (hj : l ≤ j ∧ j ≤ r) : Rearranges l r s (swap s i j) := by
  have hentry (k : Int) := entry_swap (k := k) (hw i hi.1 hi.2) (hw j hj.1 hj.2)
  refine ⟨swap_perm, fun k hk => ?_, fun k hkl hkr => ?_⟩
  · rw [hentry, if_neg (by omega), if_neg (by omega)]
  · rw [hentry]
    split
    · exact ⟨j, hj.1, hj.2, rfl⟩
    · split
      · exact ⟨i, hi.1, hi.2, rfl⟩
      · exact ⟨k, hkl, hkr, rfl⟩

theorem within (h : Rearranges l r s s') {a b : Int} (hw : Within a b s) : Within a b s' := by
  intro i ha hb
  have hsize : s'.size = s.size := h.perm.size_eq
  have := hw i ha hb
  rw [entry_isSome] at this ⊢
  rwa [hsize]

/-- What holds of the whole span still does. -/
theorem allIn (h : Rearranges l r s s') (hP : AllIn P s l (r + 1)) : AllIn P s' l (r + 1) := by
  intro i hi hi' x hx
  obtain ⟨j, hjl, hjr, hj⟩ := h.inside i hi (by omega)
  rw [hj] at hx
  exact hP j hjl (by omega) x hx

theorem allIn_outside (h : Rearranges l r s s') (hP : AllIn P s a b) (hout : b ≤ l ∨ r < a) : AllIn P s' a b :=
  hP.congr fun i hi hi' => h.outside i (by omega)

end Rearranges

/-- The first `n` entries from `a` on have changed places with the last `n` up to `b`, each
with its mirror image; where both runs overlap they are as they were. -/
def Mirrored (a b : Int) (n : Nat) (s s' : Array α) : Prop :=
  ∀ i, entry s' i = if (a ≤ i ∧ i < a + n ↔ b - n < i ∧ i ≤ b) then entry s i else entry s (a + b - i)

theorem Mirrored.zero : Mirrored a b 0 s s := by
  intro i
  rw [if_pos (by omega)]

theorem Mirrored.step (ha : (entry s a).isSome = true) (hb : (entry s b).isSome = true)
    (h : Mirrored (a + 1) (b - 1) n (swap s a b) s') : Mirrored a b (n + 1) s s' := by
  intro i
  rw [h i, entry_swap ha hb, entry_swap ha hb]
  have hsum : a + 1 + (b - 1) - i = a + b - i := by omega
  rw [hsum]
  push_cast
  split <;> split <;> (try split) <;> (try split) <;> first | rfl | omega | (congr 1; omega)

theorem Mirrored.allIn_last (h : Mirrored a b n s s') (hP : AllIn P s a (a + n)) :
    AllIn P s' (b - n + 1) (b + 1) := by
  intro i hi hi' x hx
  rw [h i] at hx
  split at hx
  · exact hP i (by omega) (by omega) x hx
  · exact hP (a + b - i) (by omega) (by omega) x hx

theorem Mirrored.allIn_first (h : Mirrored a b n s s') (hP : AllIn P s (b - n + 1) (b + 1)) :
    AllIn P s' a (a + n) := by
  intro i hi hi' x hx
  rw [h i] at hx
  split at hx
  · exact hP i (by omega) (by omega) x hx
  · exact hP (a + b - i) (by omega) (by omega) x hx

end Spans
