import Crack.Algorithm.Heap

/-!
# Runs of the heap functions

The comparison decides between two entries as the order of the heap does, up to
entries that the order does not tell apart.
-/
namespace Crack

open Heaps (HeapFrom BrokenBelow Moves swapped)
open Fuel (Returns)

namespace HeapBase

variable {σ α : Type} {seqT : SeqT σ α} {cmp : α → α → Int} {S : α → Prop} {le : α → α → Prop}

/-- Among the entries in question the comparison follows the order. -/
structure Follows (S : α → Prop) (le : α → α → Prop) (cmp : α → α → Int) : Prop where
  above : ∀ a b, S a → S b → 0 < cmp a b → le b a
  notAbove : ∀ a b, S a → S b → ¬ 0 < cmp a b → le a b
  trans : ∀ a b c, le a b → le b c → le a c

theorem Follows.refl (h : Follows S le cmp) {a : α} (ha : S a) : le a a := by
  by_cases hc : 0 < cmp a a
  · exact h.above a a ha ha hc
  · exact h.notAbove a a ha ha hc

/-- A sequence with its entries, of which all are in question. -/
structure State (seqT : SeqT σ α) (S : α → Prop) (s : σ) (P : List α) (v : Nat → α) : Prop where
  holds : seqT.Holds s P
  entries : Entries P v
  all : ∀ j, S (v j)

variable {s : σ} {P : List α} {v : Nat → α} {a b i k n count child largest fuel : Nat}

section

variable (h : State seqT S s P v)

include h

theorem State.get (h0 : 0 < i) (hi : i ≤ P.length) : seqT.get s (i - 1) = .ok (v i) :=
  h.entries.get h.holds h0 hi

theorem State.swap (ha : 0 < a) (haP : a ≤ P.length) (hb : 0 < b) (hbP : b ≤ P.length) :
    ∃ s' P', swap seqT s a b = .ok s' ∧ State seqT S s' P' (swapped v a b) ∧ P'.Perm P := by
  obtain ⟨s', P', he, hs', hv', hperm⟩ := h.entries.swap h.holds ha haP hb hbP
  refine ⟨s', P', he, ⟨hs', hv', fun j => ?_⟩, hperm⟩
  rw [swapped]
  split
  · exact h.all b
  · split
    · exact h.all a
    · exact h.all j

theorem State.larger (hcmp : Follows S le cmp) (hcount : count ≤ P.length) (child : Nat) (hc : 0 < child)
    (hl : 0 < largest) (hlP : largest ≤ P.length) :
    ∃ c, larger seqT cmp s count child largest = .ok c ∧ (c = largest ∨ c = child ∧ child ≤ count) ∧
      le (v largest) (v c) ∧ (child ≤ count → le (v child) (v c)) := by
  rw [HeapBase.larger]
  by_cases hle : child ≤ count
  · rw [if_pos hle, h.get hc (by omega), h.get hl hlP]
    by_cases habove : cmp (v child) (v largest) > 0
    · refine ⟨child, ?_, .inr ⟨rfl, hle⟩, hcmp.above _ _ (h.all _) (h.all _) habove, fun _ => hcmp.refl (h.all _)⟩
      simp only [bind, Except.bind, if_pos habove, pure, Except.pure]
    · refine ⟨largest, ?_, .inl rfl, hcmp.refl (h.all _), fun _ => hcmp.notAbove _ _ (h.all _) (h.all _) habove⟩
      simp only [bind, Except.bind, if_neg habove, pure, Except.pure]
  · rw [if_neg hle]
    exact ⟨largest, rfl, .inl rfl, hcmp.refl (h.all _), fun hc => absurd hc hle⟩

/-- The entry at `i` goes down until the part from `k` on is a heap. -/
theorem State.maxHeapify (hcmp : Follows S le cmp) (hcount : count ≤ P.length) (h0 : 0 < i) (hi : i ≤ count)
    (hbroken : BrokenBelow le v k count i) :
    ∃ s' P' v', (∀ fuel, count - i < fuel → maxHeapify seqT cmp count fuel s i = .ok s') ∧ State seqT S s' P' v' ∧
      P'.Perm P ∧ Moves v v' count ∧ HeapFrom le v' k count := by
  induction hn : count - i using Nat.strongRecOn generalizing s P v i with
  | ind n ih =>
    obtain ⟨c₁, hc₁, hcase₁, hup₁, hl⟩ := h.larger hcmp hcount (i * 2) (by omega) h0 (by omega)
    obtain ⟨c, hc, hcase, hup, hr⟩ := h.larger hcmp hcount (i * 2 + 1) (by omega) (by omega : 0 < c₁)
      (by omega)
    have hgreatest : ∀ j, 1 < j → j ≤ count → j / 2 = i → le (v j) (v c) := by
      intro j h1 hj hji
      rcases (by omega : j = i * 2 ∨ j = i * 2 + 1) with rfl | rfl
      · exact hcmp.trans _ _ _ (hl hj) hup
      · exact hr hj
    by_cases hci : c = i
    · refine ⟨s, P, v, fun fuel hfuel => ?_, h, .refl P, Moves.refl v count,
        hbroken.stop fun j h1 hj hji => hci ▸ hgreatest j h1 hj hji⟩
      obtain ⟨fuel, rfl⟩ := Nat.exists_eq_add_of_lt hfuel
      rw [HeapBase.maxHeapify]
      simp only [hc₁, hc, bind, Except.bind, if_neg (not_not_intro hci), pure, Except.pure]
    · have hchild : c / 2 = i ∧ c ≤ count := by omega
      obtain ⟨s₁, P₁, hs₁, h₁, hperm₁⟩ := h.swap h0 (by omega) (b := c) (by omega) (by omega)
      have hdown := hbroken.down h0 hchild.1 hchild.2 hgreatest (hcmp.trans _ _ _ hup₁ hup)
      obtain ⟨s', P', v', he, h', hperm, hmoves, hheap⟩ :=
        ih (count - c) (by omega) h₁ (by rw [hperm₁.length_eq]; exact hcount) (by omega) hchild.2 hdown rfl
      have hmoved : Moves v (swapped v i c) count := .swapped h0 hi (by omega) hchild.2
      refine ⟨s', P', v', fun fuel hfuel => ?_, h', hperm.trans hperm₁, hmoved.trans hmoves, hheap⟩
      obtain ⟨fuel, rfl⟩ := Nat.exists_eq_add_of_lt hfuel
      rw [HeapBase.maxHeapify]
      simp only [hc₁, hc, bind, Except.bind, if_pos hci, hs₁]
      exact he _ (by omega)

theorem State.buildFrom (hcmp : Follows S le cmp) (hcount : count ≤ P.length) (hi : i ≤ count)
    (hheap : HeapFrom le v (i + 1) count) :
    ∃ s' P' v', (∀ fuel, count < fuel → buildFrom seqT cmp fuel count i s = .ok s') ∧ State seqT S s' P' v' ∧
      P'.Perm P ∧ Moves v v' count ∧ HeapFrom le v' 1 count := by
  induction i generalizing s P v with
  | zero => exact ⟨s, P, v, fun _ _ => rfl, h, .refl P, Moves.refl v count, hheap⟩
  | succ i ih =>
    obtain ⟨s₁, P₁, v₁, he₁, h₁, hperm₁, hmoves₁, hheap₁⟩ :=
      h.maxHeapify hcmp hcount (Nat.succ_pos i) hi hheap.broken
    obtain ⟨s', P', v', he, h', hperm, hmoves, hheap'⟩ :=
      ih h₁ (by rw [hperm₁.length_eq]; exact hcount) (by omega) hheap₁
    refine ⟨s', P', v', fun fuel hfuel => ?_, h', hperm.trans hperm₁, hmoves₁.trans hmoves, hheap'⟩
    rw [HeapBase.buildFrom, he₁ fuel (by omega)]
    exact he fuel hfuel

theorem State.buildMaxHeap (hcmp : Follows S le cmp) (hcount : count ≤ P.length) :
    ∃ s' P' v', (∀ fuel, count < fuel → buildMaxHeap seqT cmp fuel s count = .ok s') ∧ State seqT S s' P' v' ∧
      P'.Perm P ∧ Moves v v' count ∧ HeapFrom le v' 1 count :=
  h.buildFrom hcmp hcount (by omega) fun i h1 hi hki => by omega

end

variable (cmp) in
/-- `isMaxHeap` goes through all entries that have a parent. -/
theorem State.isMaxHeap (h : State seqT S s P v) (hi : i ≤ P.length) :
    ∃ b, isMaxHeap seqT cmp s i = .ok b ∧ (b = true ↔ HeapFrom (fun x y => ¬ cmp y x < 0) v 1 i) := by
  induction i with
  | zero => exact ⟨true, rfl, iff_of_true rfl fun i h1 hi => absurd hi (by omega)⟩
  | succ i ih =>
    obtain _ | i := i
    · exact ⟨true, rfl, iff_of_true rfl fun i h1 hi => absurd hi (by omega)⟩
    have hparent : seqT.get s ((i + 2) / 2 - 1) = .ok (v ((i + 2) / 2)) := h.get (by omega) (by omega)
    have hlast : seqT.get s (i + 1) = .ok (v (i + 2)) := h.get (i := i + 2) (Nat.succ_pos _) hi
    rw [HeapBase.isMaxHeap]
    simp only [hparent, hlast, bind, Except.bind]
    by_cases hless : cmp (v ((i + 2) / 2)) (v (i + 2)) < 0
    · rw [if_pos hless]
      refine ⟨false, rfl, iff_of_false Bool.false_ne_true fun hheap => ?_⟩
      exact hheap (i + 2) (by omega) (Nat.le_refl _) (by omega) hless
    · obtain ⟨b, hb, hiff⟩ := ih (by omega)
      rw [if_neg hless]
      refine ⟨b, hb, hiff.trans ⟨fun hheap j h1 hj hkj => ?_, fun hheap => hheap.mono (Nat.le_refl 1) (by omega)⟩⟩
      rcases Nat.lt_or_eq_of_le hj with hj | rfl
      · exact hheap j h1 (by omega) hkj
      · exact hless

/-- What is behind the first `n` entries is in order, and nothing of it is below one of them. -/
structure SortedFrom (le : α → α → Prop) (v : Nat → α) (n size : Nat) : Prop where
  behind : ∀ i j, n < i → i < j → j ≤ size → le (v i) (v j)
  across : ∀ i j, 0 < i → i ≤ n → n < j → j ≤ size → le (v i) (v j)

/-- The top of the heap goes to its end. -/
theorem SortedFrom.take {size : Nat} (hrefl : ∀ x, le x x) (htrans : ∀ x y z, le x y → le y z → le x z)
    (h : SortedFrom le v (n + 1) size) (hheap : HeapFrom le v 1 (n + 1)) {v' : Nat → α}
    (hmoves : Moves (swapped v 1 (n + 1)) v' n) (h0 : 0 < n) : SortedFrom le v' n size := by
  have hlast : v' (n + 1) = v 1 := by rw [hmoves.outside _ (Nat.lt_succ_self n), Heaps.swapped_right]
  have hbehind : ∀ j, n + 1 < j → v' j = v j := by
    intro j hj
    rw [hmoves.outside j (by omega), Heaps.swapped_other (by omega) (by omega)]
  have hfront : ∀ i, 0 < i → i ≤ n → ∃ j, 0 < j ∧ j ≤ n + 1 ∧ v' i = v j := by
    intro i hi0 hi
    obtain ⟨j, hj0, hj, he⟩ := hmoves.inside i hi0 hi
    have hswap : Moves v (swapped v 1 (n + 1)) (n + 1) :=
      .swapped Nat.one_pos (by omega) (Nat.succ_pos n) (Nat.le_refl _)
    obtain ⟨l, hl0, hl, he'⟩ := hswap.inside j hj0 (by omega)
    exact ⟨l, hl0, hl, he.trans he'⟩
  constructor
  · intro i j hi hij hj
    rw [hbehind j (by omega)]
    rcases Nat.lt_or_eq_of_le (Nat.succ_le_of_lt hi) with hi | rfl
    · rw [hbehind i hi]
      exact h.behind i j hi hij hj
    · rw [hlast]
      exact h.across 1 j Nat.one_pos (by omega) (by omega) hj
  · intro i j hi0 hi hij hj
    obtain ⟨l, hl0, hl, he⟩ := hfront i hi0 hi
    rw [he]
    rcases Nat.lt_or_eq_of_le (Nat.succ_le_of_lt hij) with hij | rfl
    · rw [hbehind j hij]
      exact h.across l j hl0 hl (by omega) hj
    · rw [hlast]
      exact hheap.le_top hrefl htrans hl0 hl

theorem SortedFrom.whole {size : Nat} (h : SortedFrom le v n size) (hn : n < 2) (hi : 0 < i) (hij : i < k)
    (hk : k ≤ size) : le (v i) (v k) := by
  by_cases hin : i ≤ n
  · exact h.across i k hi hin (by omega) hk
  · exact h.behind i k (by omega) hij hk

theorem State.heapSortFrom (h : State seqT S s P v) (hcmp : Follows S le cmp) (hrefl : ∀ x, le x x)
    (hn : n ≤ P.length) (hheap : HeapFrom le v 1 n) (hsorted : SortedFrom le v n P.length) :
    ∃ s' P' v', (∀ fuel, n ≤ fuel → heapSortFrom seqT cmp fuel n n s = .ok s') ∧ State seqT S s' P' v' ∧ P'.Perm P ∧
      ∀ i j, 0 < i → i < j → j ≤ P.length → le (v' i) (v' j) := by
  induction n generalizing s P v with
  | zero => exact ⟨s, P, v, fun _ _ => rfl, h, .refl P, fun i j hi hij hj => hsorted.whole (by omega) hi hij hj⟩
  | succ n ih =>
    obtain _ | n := n
    · exact ⟨s, P, v, fun _ _ => rfl, h, .refl P, fun i j hi hij hj => hsorted.whole (by omega) hi hij hj⟩
    obtain ⟨s₁, P₁, he₁, h₁, hperm₁⟩ := h.swap Nat.one_pos (by omega) (b := n + 2) (by omega) hn
    obtain ⟨s₂, P₂, v₂, he₂, h₂, hperm₂, hmoves₂, hheap₂⟩ :=
      h₁.maxHeapify hcmp (by rw [hperm₁.length_eq]; omega) Nat.one_pos (by omega) hheap.swapTop
    have hlen : P₂.length = P.length := (hperm₂.trans hperm₁).length_eq
    obtain ⟨s', P', v', he, h', hperm, hle⟩ :=
      ih h₂ (by omega) hheap₂ (hlen ▸ hsorted.take hrefl hcmp.trans hheap hmoves₂ (by omega))
    refine ⟨s', P', v', fun fuel hfuel => ?_, h', hperm.trans (hperm₂.trans hperm₁), hlen ▸ hle⟩
    rw [HeapBase.heapSortFrom, he₁]
    simp only [bind, Except.bind, Nat.add_sub_cancel, he₂ fuel (by omega)]
    exact he fuel (by omega)

/-- No entry is above its parent. -/
def MaxHeap (le : α → α → Prop) (P : List α) : Prop :=
  ∀ i x y, 0 < i → P[i]? = some x → P[(i + 1) / 2 - 1]? = some y → le x y

theorem Entries.maxHeap_iff (hv : Entries P v) : MaxHeap le P ↔ HeapFrom le v 1 P.length := by
  constructor
  · intro h j h1 hj hkj
    have hx : P[j - 1]? = some (v j) := by
      rw [List.getElem?_eq_getElem (by omega), hv.getElem (by omega), Nat.sub_add_cancel (by omega)]
    have hy : P[j / 2 - 1]? = some (v (j / 2)) := by
      rw [List.getElem?_eq_getElem (by omega), hv.getElem (by omega), Nat.sub_add_cancel hkj]
    refine h (j - 1) _ _ (by omega) hx ?_
    rwa [Nat.sub_add_cancel (by omega)]
  · intro h i x y hi hx hy
    have hlt := (List.getElem?_eq_some_iff.mp hx).1
    have hheap := h (i + 1) (by omega) hlt (by omega)
    have hparent := hv _ _ hy
    rw [Nat.sub_add_cancel (by omega)] at hparent
    rwa [hv _ _ hx, hparent] at hheap

theorem Entries.pairwise (hv : Entries P v) (h : ∀ i j, 0 < i → i < j → j ≤ P.length → le (v i) (v j)) :
    P.Pairwise le := by
  rw [List.pairwise_iff_getElem]
  intro i j hi hj hij
  rw [hv.getElem hi, hv.getElem hj]
  exact h (i + 1) (j + 1) (Nat.succ_pos i) (by omega) hj

theorem heapSortFrom_few (hn : n < 2) : heapSortFrom seqT cmp fuel n k s = .ok s := by
  match n, hn with
  | 0, _ => rfl
  | 1, _ => rfl

theorem State.heapSort (h : State seqT S s P v) (hcmp : Follows S le cmp) (hrefl : ∀ x, le x x)
    (hheap : HeapFrom le v 1 P.length) :
    ∃ s' P', (∀ fuel, P.length ≤ fuel → heapSort seqT cmp fuel s P.length = .ok s') ∧ seqT.Holds s' P' ∧ P'.Perm P ∧
      P'.Pairwise le := by
  have hsorted : SortedFrom le v P.length P.length := ⟨by omega, by omega⟩
  obtain ⟨s', P', v', he, h', hperm, hle⟩ := h.heapSortFrom hcmp hrefl (Nat.le_refl _) hheap hsorted
  refine ⟨s', P', fun fuel hfuel => ?_, h'.holds, hperm, h'.entries.pairwise (hperm.length_eq.symm ▸ hle)⟩
  rw [HeapBase.heapSort]
  split
  · exact he fuel hfuel
  · next hfew =>
    rw [← he fuel hfuel, heapSortFrom_few (by omega)]
    rfl

theorem follows (hcmp : QuickSort.TotalPreorder cmp) : Follows (fun _ => True) (fun x y => ¬ cmp y x < 0) cmp where
  above a b _ _ h := by omega
  notAbove a b _ _ h := by rwa [hcmp.opposite]
  trans a b c hab hbc := by
    rw [hcmp.opposite, Int.not_lt] at hab hbc ⊢
    exact hcmp.trans a b c hab hbc

theorem MaxHeap.nil : MaxHeap le [] := fun _ _ _ _ hx => nomatch hx

/-- A plain array. Any access outside of it is a fault. -/
def arrayT : SeqT (Array α) α where
  get s i := match s[i]? with
    | some x => .ok x
    | none => .error (.fault .wildIndex)
  set s i x := if i < s.size then .ok (s.setIfInBounds i x) else .error (.fault .wildIndex)
  Holds s P := s.toList = P
  get_ok := by
    rintro s P i rfl hi
    rw [Array.getElem?_eq_getElem (by simpa using hi)]
    rfl
  set_ok := by
    rintro s P i x rfl hi
    exact ⟨_, if_pos (by simpa using hi), by simp⟩

end HeapBase

open HeapBase in
/-- `buildMaxHeap` makes a heap of the entries, `isMaxHeap` knows one, and `sort` sorts. -/
theorem heaps_ordered {σ α : Type} (seqT : SeqT σ α) (cmp : α → α → Int) (hcmp : QuickSort.TotalPreorder cmp) (s : σ)
    (P : List α) (h : seqT.Holds s P) :
    (∃ s' P', Returns (fun fuel => buildMaxHeap seqT cmp fuel s P.length) (.ok s') ∧ seqT.Holds s' P' ∧ P'.Perm P ∧
      MaxHeap (fun x y => ¬ cmp y x < 0) P') ∧
    (∃ b, isMaxHeap seqT cmp s P.length = .ok b ∧ (b = true ↔ MaxHeap (fun x y => ¬ cmp y x < 0) P)) ∧
    ∃ s' P', Returns (fun fuel => sort seqT cmp fuel s P.length) (.ok s') ∧ seqT.Holds s' P' ∧ P'.Perm P ∧
      P'.Pairwise fun x y => cmp x y ≤ 0 := by
  by_cases hP : P = []
  · subst hP
    have hmax : isMaxHeap seqT cmp s 0 = .ok true := rfl
    exact ⟨⟨s, [], ⟨0, fun fuel _ => by simp [buildMaxHeap, buildFrom, pure, Except.pure]⟩, h, .refl _, .nil⟩,
      ⟨true, hmax, iff_of_true rfl .nil⟩, ⟨s, [], ⟨0, fun _ _ => rfl⟩, h, .refl _, .nil⟩⟩
  have hfollows := follows hcmp
  obtain ⟨v, hv, -⟩ := exists_entries hP
  have hstate : State seqT (fun _ => True) s P v := ⟨h, hv, fun _ => trivial⟩
  obtain ⟨s₁, P₁, v₁, he₁, h₁, hperm₁, -, hheap₁⟩ := hstate.buildMaxHeap hfollows (Nat.le_refl _)
  obtain ⟨b, hb, hiff⟩ := hstate.isMaxHeap cmp (Nat.le_refl _)
  have hlen₁ := hperm₁.length_eq
  have hrefl : ∀ x, ¬ cmp x x < 0 := fun x hx => absurd ((hcmp.opposite x x).mp hx) (by omega)
  have hpairs : ∀ {Q : List α}, Q.Pairwise (fun x y => ¬ cmp y x < 0) → Q.Pairwise fun x y => cmp x y ≤ 0 := by
    intro Q hQ
    refine hQ.imp fun {x y} hxy => ?_
    rwa [hcmp.opposite, Int.not_lt] at hxy
  refine ⟨⟨s₁, P₁, ⟨P.length + 1, fun fuel hle => he₁ fuel hle⟩, h₁.holds, hperm₁, ?_⟩,
    ⟨b, hb, hiff.trans hv.maxHeap_iff.symm⟩, ?_⟩
  · rw [h₁.entries.maxHeap_iff, hlen₁]
    exact hheap₁
  · cases b with
    | true =>
      obtain ⟨s', P', he, h', hperm, hpairwise⟩ := hstate.heapSort hfollows hrefl (hiff.mp rfl)
      refine ⟨s', P', ⟨P.length, fun fuel hle => ?_⟩, h', hperm, hpairs hpairwise⟩
      simp only [sort, hb, bind, Except.bind, if_true, pure, Except.pure]
      exact he fuel hle
    | false =>
      obtain ⟨s', P', he, h', hperm, hpairwise⟩ := h₁.heapSort hfollows hrefl (hlen₁ ▸ hheap₁)
      refine ⟨s', P', ⟨P.length + 1, fun fuel hle => ?_⟩, h', hperm.trans hperm₁, hpairs hpairwise⟩
      simp only [sort, hb, bind, Except.bind, Bool.false_eq_true, if_false, he₁ fuel hle]
      rw [← hlen₁]
      exact he fuel (by omega)

theorem heaps_ordered_three :
    (∃ s' P', Returns (fun fuel => HeapBase.buildMaxHeap HeapBase.arrayT (fun x y : Int => x - y) fuel #[1, 2, 3] 3)
        (.ok s') ∧ HeapBase.arrayT.Holds s' P' ∧ P'.Perm [1, 2, 3] ∧
          HeapBase.MaxHeap (fun x y : Int => ¬ y - x < 0) P') ∧
    (∃ b, HeapBase.isMaxHeap HeapBase.arrayT (fun x y : Int => x - y) #[1, 2, 3] 3 = .ok b ∧
      (b = true ↔ HeapBase.MaxHeap (fun x y : Int => ¬ y - x < 0) [1, 2, 3])) ∧
    ∃ s' P', Returns (fun fuel => HeapBase.sort HeapBase.arrayT (fun x y : Int => x - y) fuel #[1, 2, 3] 3) (.ok s') ∧
      HeapBase.arrayT.Holds s' P' ∧ P'.Perm [1, 2, 3] ∧ P'.Pairwise fun x y => x - y ≤ 0 :=
  heaps_ordered HeapBase.arrayT (fun x y => x - y) ⟨fun _ _ => by omega, fun _ _ _ _ _ => by omega⟩ #[1, 2, 3]
    [1, 2, 3] rfl

end Crack
