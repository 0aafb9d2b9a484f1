import Crack.Algorithm.QuickSort
import Crack.Lib.Loops

/-!
# Runs of quicksort

The four parts of the span that the partition keeps: equal to the pivot, below it, above
it, and equal again.
-/
namespace Crack

open Spans (entry Within AllIn Rearranges Mirrored Sorted)

namespace QuickSort

variable {α : Type}

/-- The comparison is a total preorder. -/
structure TotalPreorder (cmp : α → α → Int) : Prop where
  opposite : ∀ a b, cmp a b < 0 ↔ 0 < cmp b a
  trans : ∀ a b c, cmp a b ≤ 0 → cmp b c ≤ 0 → cmp a c ≤ 0

section Access

variable {l r i j : Int} {s : Array α} {x : α}

theorem get_ok (hi : l ≤ i ∧ i ≤ r) (hx : entry s i = some x) : get l r s i = .ok x := by
  rw [get, if_pos hi, hx]

theorem swap_ok (hw : Within l r s) (hi : l ≤ i ∧ i ≤ r) (hj : l ≤ j ∧ j ≤ r) :
    swap l r s i j = .ok (Spans.swap s i j) := by
  obtain ⟨x, hx⟩ := Option.isSome_iff_exists.mp (hw i hi.1 hi.2)
  obtain ⟨y, hy⟩ := Option.isSome_iff_exists.mp (hw j hj.1 hj.2)
  have hset (z : α) : set l r (Spans.put s i z) j x = .ok (Spans.put (Spans.put s i z) j x) := by
    rw [set, if_pos ⟨hj.1, hj.2, by rw [Spans.entry_put_isSome]; exact hw j hj.1 hj.2⟩]
  rw [swap, get_ok hi hx]
  change (do let s ← set l r s i (← get l r s j); set l r s j x) = _
  rw [get_ok hj hy]
  change (do let s ← set l r s i y; set l r s j x) = _
  rw [set, if_pos ⟨hi.1, hi.2, hw i hi.1 hi.2⟩]
  exact (hset y).trans (congrArg _ (Spans.put_put hx hy))

end Access

variable {cmp : α → α → Int} {l r : Int} {s s₀ : Array α} {v : α}

section Order

/-- Where an entry stands relative to the pivot. -/
def Below (cmp : α → α → Int) (v x : α) : Prop := cmp x v < 0

def Equal (cmp : α → α → Int) (v x : α) : Prop := cmp x v = 0

def Above (cmp : α → α → Int) (v x : α) : Prop := 0 < cmp x v

variable (hcmp : TotalPreorder cmp) {x y : α}

include hcmp

theorem TotalPreorder.above_iff : cmp v x < 0 ↔ Above cmp v x := hcmp.opposite v x

theorem TotalPreorder.equal_iff : cmp v x = 0 ↔ Equal cmp v x := by
  have h₁ := hcmp.opposite v x
  have h₂ := hcmp.opposite x v
  unfold Equal
  omega

theorem TotalPreorder.equal_self : Equal cmp v v := by
  have h := hcmp.opposite v v
  unfold Equal
  omega

/-- Around the pivot everything is in order. -/
theorem TotalPreorder.le_of_pivot (hx : ¬ Above cmp v x) (hy : ¬ Below cmp v y) : cmp x y ≤ 0 := by
  have h := hcmp.opposite y v
  unfold Above at hx
  unfold Below at hy
  exact hcmp.trans x v y (by omega) (by omega)

end Order

theorem Below.not_above {x : α} (h : Below cmp v x) : ¬ Above cmp v x := by
  unfold Below at h
  unfold Above
  omega

theorem Equal.not_above {x : α} (h : Equal cmp v x) : ¬ Above cmp v x := by
  unfold Equal at h
  unfold Above
  omega

theorem Equal.not_below {x : α} (h : Equal cmp v x) : ¬ Below cmp v x := by
  unfold Equal at h
  unfold Below
  omega

theorem Above.not_below {x : α} (h : Above cmp v x) : ¬ Below cmp v x := by
  unfold Above at h
  unfold Below
  omega

section Scans

theorem scanUp_ok (fuel : Nat) (hw : Within l r s) {m : Int} (hm : m ≤ r)
    (hstop : ∀ x ∈ entry s m, ¬ Below cmp v x) {i : Int} (hl : l ≤ i + 1) (hi : i < m) (hfuel : m - i ≤ fuel) :
    ∃ i', scanUp cmp l r s v fuel i = .ok i' ∧ i < i' ∧ i' ≤ m ∧ AllIn (Below cmp v) s (i + 1) i' ∧
      ∀ x ∈ entry s i', ¬ Below cmp v x := by
  induction fuel generalizing i with
  | zero => omega
  | succ fuel ih =>
    obtain ⟨x, hx⟩ := Option.isSome_iff_exists.mp (hw (i + 1) hl (by omega))
    by_cases hbelow : cmp x v < 0
    · have hne : i + 1 ≠ m := by
        rintro rfl
        exact hstop x hx hbelow
      obtain ⟨i', hrun, hlt, hle, hall, hend⟩ := ih (i := i + 1) (by omega) (by omega) (by omega)
      refine ⟨i', ?_, by omega, hle, ?_, hend⟩
      · rw [scanUp, get_ok ⟨hl, by omega⟩ hx]
        simp only [bind, Except.bind, hbelow, if_true]
        exact hrun
      · refine Spans.AllIn.cons hall ?_
        rw [hx]
        rintro y ⟨⟩
        exact hbelow
    · refine ⟨i + 1, ?_, by omega, by omega, .of_le (Int.le_refl _), ?_⟩
      · rw [scanUp, get_ok ⟨hl, by omega⟩ hx]
        simp only [bind, Except.bind, hbelow, if_false]
        rfl
      · rw [hx]
        rintro y ⟨⟩
        exact hbelow

theorem scanDown_ok (fuel : Nat) (hcmp : TotalPreorder cmp) (hw : Within l r s) {j : Int} (hl : l < j) (hr : j ≤ r)
    (hfuel : j - l ≤ fuel) :
    ∃ j', scanDown cmp l r s v fuel j = .ok j' ∧ l ≤ j' ∧ j' < j ∧ AllIn (Above cmp v) s (j' + 1) j ∧
      (j' = l ∨ ∀ x ∈ entry s j', ¬ Above cmp v x) := by
  induction fuel generalizing j with
  | zero => omega
  | succ fuel ih =>
    obtain ⟨x, hx⟩ := Option.isSome_iff_exists.mp (hw (j - 1) (by omega) (by omega))
    have hget : get l r s (j - 1) = .ok x := get_ok ⟨by omega, by omega⟩ hx
    by_cases habove : cmp v x < 0
    · by_cases hend : j - 1 = l
      · refine ⟨j - 1, ?_, by omega, by omega, .of_le (by omega), .inl hend⟩
        rw [scanDown, hget]
        simp only [bind, Except.bind, habove, hend, if_true]
        rfl
      · obtain ⟨j', hrun, hle, hlt, hall, hstop⟩ := ih (j := j - 1) (by omega) (by omega) (by omega)
        refine ⟨j', ?_, hle, by omega, ?_, hstop⟩
        · rw [scanDown, hget]
          simp only [bind, Except.bind, habove, hend, if_true, if_false]
          exact hrun
        · have hlast : ∀ y ∈ entry s (j - 1), Above cmp v y := by
            rw [hx]
            rintro y ⟨⟩
            exact hcmp.above_iff.mp habove
          have := hall.snoc hlast
          rwa [Int.sub_add_cancel] at this
    · refine ⟨j - 1, ?_, by omega, by omega, .of_le (by omega), .inr ?_⟩
      · rw [scanDown, hget]
        simp only [bind, Except.bind, habove, if_false]
        rfl
      · rw [hx]
        rintro y ⟨⟩
        exact fun h => habove (hcmp.above_iff.mpr h)

end Scans

/-- The invariant of the partition: of the entries that were looked at, those equal to the
pivot are at both ends. -/
structure Parted (cmp : α → α → Int) (v : α) (l r : Int) (s : Array α) (t : Parts α) : Prop where
  l_p : l - 1 ≤ t.p
  p_i : t.p ≤ t.i
  i_j : t.i < t.j
  l_j : l < t.j
  j_q : t.j ≤ t.q
  q_r : t.q ≤ r
  pivot : entry t.seq r = some v
  equalLeft : AllIn (Equal cmp v) t.seq l (t.p + 1)
  below : AllIn (Below cmp v) t.seq (t.p + 1) (t.i + 1)
  above : AllIn (Above cmp v) t.seq t.j t.q
  equalRight : AllIn (Equal cmp v) t.seq t.q r
  moved : Rearranges l r s t.seq

/-- What the loop leaves: the span is split before `i`. -/
structure SplitAt (cmp : α → α → Int) (v : α) (l r : Int) (s : Array α) (t : Parts α) : Prop where
  l_p : l - 1 ≤ t.p
  p_i : t.p < t.i
  i_q : t.i ≤ t.q
  q_r : t.q ≤ r
  pivot : entry t.seq r = some v
  equalLeft : AllIn (Equal cmp v) t.seq l (t.p + 1)
  below : AllIn (Below cmp v) t.seq (t.p + 1) t.i
  notBelow : AllIn (fun x => ¬ Below cmp v x) t.seq t.i t.q
  equalRight : AllIn (Equal cmp v) t.seq t.q r
  moved : Rearranges l r s t.seq

theorem Parted.bounds {t : Parts α} (h : Parted cmp v l r s t) :
    l - 1 ≤ t.p ∧ t.p ≤ t.i ∧ t.i < t.j ∧ l < t.j ∧ t.j ≤ t.q ∧ t.q ≤ r :=
  ⟨h.l_p, h.p_i, h.i_j, h.l_j, h.j_q, h.q_r⟩

section Migration

variable {t : Parts α}

theorem migrateLeft_ok (hw : Within l r t.seq) (hp : l - 1 ≤ t.p) (hi : t.p < t.i) (hr : t.i ≤ r)
    (hequal : AllIn (Equal cmp v) t.seq l (t.p + 1)) (hbelow : AllIn (Below cmp v) t.seq (t.p + 1) t.i)
    (hlast : ∀ x ∈ entry t.seq t.i, ¬ Above cmp v x) :
    ∃ p' s', migrateLeft cmp l r v t = .ok { t with p := p', seq := s' } ∧ t.p ≤ p' ∧ p' ≤ t.i ∧
      AllIn (Equal cmp v) s' l (p' + 1) ∧ AllIn (Below cmp v) s' (p' + 1) (t.i + 1) ∧ Rearranges l t.i t.seq s' := by
  obtain ⟨x, hx⟩ := Option.isSome_iff_exists.mp (hw t.i (by omega) hr)
  have hget : get l r t.seq t.i = .ok x := get_ok ⟨by omega, hr⟩ hx
  by_cases heq : cmp x v = 0
  · have hin : l ≤ t.p + 1 ∧ t.p + 1 ≤ t.i := by omega
    have hentry (k : Int) := Spans.entry_swap (k := k) (hw (t.p + 1) hin.1 (by omega)) (hw t.i (by omega) hr)
    refine ⟨t.p + 1, Spans.swap t.seq (t.p + 1) t.i, ?_, by omega, by omega, ?_, ?_, ?_⟩
    · rw [migrateLeft, hget]
      simp only [bind, Except.bind, heq, if_true, swap_ok hw ⟨hin.1, by omega⟩ ⟨by omega, hr⟩]
      rfl
    · refine (hequal.congr fun k hk hk' => ?_).snoc ?_
      · rw [hentry, if_neg (by omega), if_neg (by omega)]
      · rw [hentry, if_pos rfl, hx]
        rintro y ⟨⟩
        exact heq
    · intro k hk hk' y hy
      rw [hentry, if_neg (by omega)] at hy
      split at hy
      · exact hbelow (t.p + 1) (Int.le_refl _) (by omega) y hy
      · exact hbelow k (by omega) (by omega) y hy
    · exact Rearranges.swap (fun k hk hk' => hw k hk (by omega)) hin ⟨by omega, Int.le_refl _⟩
  · refine ⟨t.p, t.seq, ?_, Int.le_refl _, by omega, hequal, hbelow.snoc ?_, .refl _ _ _⟩
    · rw [migrateLeft, hget]
      simp only [bind, Except.bind, heq, if_false]
      rfl
    · rw [hx]
      rintro y ⟨⟩
      have := hlast x hx
      unfold Above at this
      unfold Below
      omega

theorem migrateRight_ok (hcmp : TotalPreorder cmp) (hw : Within l r t.seq) (hq : t.q ≤ r) (hj : t.j < t.q) (hl : l ≤ t.j)
    (hequal : AllIn (Equal cmp v) t.seq t.q r) (habove : AllIn (Above cmp v) t.seq (t.j + 1) t.q)
    (hfirst : ∀ x ∈ entry t.seq t.j, ¬ Below cmp v x) :
    ∃ q' s', migrateRight cmp l r v t = .ok { t with q := q', seq := s' } ∧ t.j ≤ q' ∧ q' ≤ t.q ∧
      AllIn (Above cmp v) s' t.j q' ∧ AllIn (Equal cmp v) s' q' r ∧ Rearranges t.j (t.q - 1) t.seq s' := by
  obtain ⟨x, hx⟩ := Option.isSome_iff_exists.mp (hw t.j hl (by omega))
  have hget : get l r t.seq t.j = .ok x := get_ok ⟨hl, by omega⟩ hx
  by_cases heq : cmp v x = 0
  · have hin : t.j ≤ t.q - 1 ∧ t.q - 1 ≤ r := by omega
    have hentry (k : Int) := Spans.entry_swap (k := k) (hw t.j hl (by omega)) (hw (t.q - 1) (by omega) hin.2)
    refine ⟨t.q - 1, Spans.swap t.seq t.j (t.q - 1), ?_, by omega, by omega, ?_, ?_, ?_⟩
    · rw [migrateRight, hget]
      simp only [bind, Except.bind, heq, if_true, swap_ok hw ⟨hl, by omega⟩ ⟨by omega, hin.2⟩]
      rfl
    · intro k hk hk' y hy
      rw [hentry] at hy
      split at hy
      · exact habove (t.q - 1) (by omega) (by omega) y hy
      · rw [if_neg (by omega)] at hy
        exact habove k (by omega) (by omega) y hy
    · have hx' : ∀ y ∈ entry t.seq t.j, Equal cmp v y := by
        rw [hx]
        rintro y ⟨⟩
        exact hcmp.equal_iff.mp heq
      intro k hk hk' y hy
      rw [hentry] at hy
      split at hy
      · obtain hlast : t.q - 1 = t.j := by omega
        exact hx' y (hlast ▸ hy)
      · split at hy
        · exact hx' y hy
        · exact hequal k (by omega) hk' y hy
    · exact Rearranges.swap (fun k hk hk' => hw k (by omega) (by omega)) ⟨Int.le_refl _, hin.1⟩ ⟨hin.1, Int.le_refl _⟩
  · refine ⟨t.q, t.seq, ?_, by omega, Int.le_refl _, Spans.AllIn.cons habove ?_, hequal, .refl _ _ _⟩
    · rw [migrateRight, hget]
      simp only [bind, Except.bind, heq, if_false]
      rfl
    · rw [hx]
      rintro y ⟨⟩
      have hne := mt hcmp.equal_iff.mpr heq
      have := hfirst x hx
      unfold Below at this
      unfold Equal at hne
      unfold Above
      omega

end Migration

section Partition

variable {t : Parts α}

theorem Parted.within (h : Parted cmp v l r s t) (hw : Within l r s) : Within l r t.seq := h.moved.within hw

/-- Nothing from `j` on is below the pivot. -/
theorem Parted.notBelow (hcmp : TotalPreorder cmp) (h : Parted cmp v l r s t) :
    AllIn (fun x => ¬ Below cmp v x) t.seq t.j (r + 1) := by
  refine (h.above.imp fun _ => Above.not_below).append ((h.equalRight.imp fun _ => Equal.not_below).snoc ?_)
  rw [h.pivot]
  rintro y ⟨⟩
  exact hcmp.equal_self.not_below

theorem Parted.scans (hcmp : TotalPreorder cmp) (hw : Within l r s) (h : Parted cmp v l r s t) (fuel : Nat)
    (hfuel : t.j - l + 1 ≤ fuel) :
    ∃ i j, scanUp cmp l r t.seq v fuel t.i = .ok i ∧ scanDown cmp l r t.seq v fuel t.j = .ok j ∧
      t.i < i ∧ i ≤ t.j ∧ l ≤ j ∧ j < t.j ∧
      AllIn (Below cmp v) t.seq (t.p + 1) i ∧ (∀ x ∈ entry t.seq i, ¬ Below cmp v x) ∧
      AllIn (Above cmp v) t.seq (j + 1) t.q ∧ (j = l ∨ ∀ x ∈ entry t.seq j, ¬ Above cmp v x) := by
  obtain ⟨hlp, hpi, hij, hlj, hjq, hqr⟩ := h.bounds
  have hstop : ∀ x ∈ entry t.seq t.j, ¬ Below cmp v x := h.notBelow hcmp t.j (Int.le_refl _) (by omega)
  obtain ⟨i, hi, hlt, hle, hbelow, hend⟩ := scanUp_ok fuel (h.within hw) (by omega) hstop (by omega) hij
    (by omega)
  obtain ⟨j, hj, hle', hlt', habove, hend'⟩ := scanDown_ok (v := v) fuel hcmp (h.within hw) hlj (by omega)
    (by omega)
  exact ⟨i, j, hi, hj, hlt, hle, hle', hlt', h.below.append hbelow, hend, habove.append h.above, hend'⟩

/-- A round that swaps two entries keeps the invariant. -/
theorem Parted.round (hcmp : TotalPreorder cmp) (hw : Within l r s) (h : Parted cmp v l r s t) {i j : Int}
    (hi : t.i < i) (hij : i < j) (hj : j < t.j) (hbelow : AllIn (Below cmp v) t.seq (t.p + 1) i)
    (hendi : ∀ x ∈ entry t.seq i, ¬ Below cmp v x) (habove : AllIn (Above cmp v) t.seq (j + 1) t.q)
    (hendj : ∀ x ∈ entry t.seq j, ¬ Above cmp v x) :
    ∃ seq t₁ t₂, swap l r t.seq i j = .ok seq ∧ migrateLeft cmp l r v { t with seq, i, j } = .ok t₁ ∧
      migrateRight cmp l r v t₁ = .ok t₂ ∧ t₂.i = i ∧ t₂.j = j ∧ Parted cmp v l r s t₂ := by
  obtain ⟨hlp, hpi, hij', hlj, hjq, hqr⟩ := h.bounds
  have hpi' : t.p < i := by omega
  have hir : i ≤ r := by omega
  have hjq' : j < t.q := by omega
  have hlj' : l ≤ j := by omega
  have hwt := h.within hw
  have hentry (k : Int) := Spans.entry_swap (k := k) (hwt i (by omega) (by omega)) (hwt j (by omega) (by omega))
  have hother : ∀ k, k ≠ i → k ≠ j → entry (Spans.swap t.seq i j) k = entry t.seq k := by
    intro k hki hkj
    rw [hentry, if_neg hki, if_neg hkj]
  have hswapped : Rearranges l (r - 1) t.seq (Spans.swap t.seq i j) :=
    Rearranges.swap (fun k hk hk' => hwt k hk (by omega)) (by omega) (by omega)
  have hw₀ : Within l r (Spans.swap t.seq i j) := hswapped.within hwt
  obtain ⟨p', s₁, hleft, hp, hp', heq₁, hbelow₁, hmoved₁⟩ := migrateLeft_ok (v := v)
    (t := { t with seq := Spans.swap t.seq i j, i, j }) hw₀ hlp hpi' hir
    (h.equalLeft.congr fun k hk hk' => hother k (by omega) (by omega))
    (hbelow.congr fun k hk hk' => hother k (by omega) (by omega))
    (by rw [hentry, if_pos rfl]; exact hendj)
  change t.p ≤ p' at hp
  change p' ≤ i at hp'
  change AllIn (Below cmp v) s₁ (p' + 1) (i + 1) at hbelow₁
  have hw₁ : Within l r s₁ := hmoved₁.within hw₀
  have hright₁ : ∀ k, i < k → entry s₁ k = entry (Spans.swap t.seq i j) k := fun k hk => hmoved₁.outside k (.inr hk)
  obtain ⟨q', s₂, hright, hq, hq', habove₂, heq₂, hmoved₂⟩ := migrateRight_ok (v := v)
    (t := { seq := s₁, i, j, p := p', q := t.q }) hcmp hw₁ hqr hjq' hlj'
    (h.equalRight.congr fun k hk hk' => (hright₁ k (by omega)).trans (hother k (by omega) (by omega)))
    (habove.congr fun k hk hk' => (hright₁ k (by omega)).trans (hother k (by omega) (by omega)))
    (by rw [hright₁ j hij, hentry, if_neg (by omega), if_pos rfl]; exact hendi)
  change j ≤ q' at hq
  change q' ≤ t.q at hq'
  change Rearranges j (t.q - 1) s₁ s₂ at hmoved₂
  refine ⟨_, _, _, swap_ok hwt (by omega) (by omega), hleft, hright, rfl, rfl, ?_⟩
  have hleft₂ : ∀ k, k < j → entry s₂ k = entry s₁ k := fun k hk => hmoved₂.outside k (.inl hk)
  refine ⟨(by omega : l - 1 ≤ p'), hp', hij, (by omega : l < j), hq, (by omega : q' ≤ r), ?_, ?_, ?_, habove₂, heq₂, ?_⟩
  · rw [hmoved₂.outside r (.inr (by omega)), hright₁ r (by omega), hother r (by omega) (by omega)]
    exact h.pivot
  · exact heq₁.congr fun k hk hk' => hleft₂ k (by omega)
  · exact hbelow₁.congr fun k hk hk' => hleft₂ k (by omega)
  · have hmoved₂ : Rearranges l r s₁ s₂ := hmoved₂.mono hlj' (by omega)
    exact ((h.moved.trans (hswapped.mono (Int.le_refl _) (by omega))).trans
      (hmoved₁.mono (Int.le_refl _) hir)).trans hmoved₂

theorem partitionLoop_ok (fuel : Nat) (hcmp : TotalPreorder cmp) (hw : Within l r s) {t : Parts α}
    (h : Parted cmp v l r s t) (hfuel : t.j - l + 1 < fuel) :
    ∃ t', partitionLoop cmp l r v fuel t = .ok t' ∧ SplitAt cmp v l r s t' := by
  induction fuel generalizing t with
  | zero => 
    obtain ⟨hlp, hpi, hij, hlj, hjq, hqr⟩ := h.bounds
    omega
  | succ fuel ih =>
    obtain ⟨hlp, hpi, hij, hlj, hjq, hqr⟩ := h.bounds
    obtain ⟨i, j, hup, hdown, hi, hi', hj, hj', hbelow, hendi, habove, hendj⟩ :=
      h.scans hcmp hw fuel (by omega)
    by_cases hmet : i ≥ j
    · refine ⟨{ t with i, j }, ?_, hlp, (by omega : t.p < i), (by omega : i ≤ t.q), hqr, h.pivot, h.equalLeft, hbelow,
        ?_, h.equalRight, h.moved⟩
      · rw [partitionLoop, hup]
        simp only [bind, Except.bind, hdown, hmet, if_true]
        rfl
      · intro k hk hk' x hx
        change i ≤ k at hk
        by_cases hki : k = i
        · exact hendi x (hki ▸ hx)
        · exact (habove k (by omega) hk' x hx).not_below
    · obtain ⟨seq, t₁, t₂, hswap, hleft, hright, hi₂, hj₂, h₂⟩ := h.round hcmp hw hi (by omega) hj' hbelow hendi
        habove (hendj.resolve_left (by omega))
      obtain ⟨t', hrun, hsplit⟩ := ih h₂ (by omega)
      refine ⟨t', ?_, hsplit⟩
      rw [partitionLoop, hup]
      simp only [bind, Except.bind, hdown, hmet, if_false, hswap, hleft, hright]
      exact hrun

end Partition

section Gathering

variable {a b : Int} {n : Nat}

theorem gatherLeft_ok (fuel : Nat) (hl : l ≤ a) (hr : b ≤ r) (hw : Within l r s) {p k j : Int}
    (hn : n = (p - k).toNat) (hfuel : n < fuel) (hk : a ≤ k) (hkr : k + n ≤ b + 1) (hj : j ≤ b) (hjl : a ≤ j - n + 1) :
    ∃ s', gatherLeft l r p fuel k j s = .ok (s', j - n) ∧ Mirrored k j n s s' ∧ Rearranges a b s s' := by
  induction fuel generalizing k j n s with
  | zero => omega
  | succ fuel ih =>
    by_cases hkp : k < p
    · obtain ⟨n, rfl⟩ : ∃ m, n = m + 1 := ⟨n - 1, by omega⟩
      have hin : (l ≤ k ∧ k ≤ r) ∧ l ≤ j ∧ j ≤ r := by omega
      have hmoved : Rearranges a b s (Spans.swap s k j) :=
        Rearranges.swap (fun m hm hm' => hw m (by omega) (by omega)) (by omega) (by omega)
      obtain ⟨s', hrun, hmirror, hmoved'⟩ := ih (hmoved.within hw) (k := k + 1) (j := j - 1) (n := n) (by omega)
        (by omega) (by omega) (by omega) (by omega) (by omega)
      refine ⟨s', ?_, hmirror.step (hw k hin.1.1 hin.1.2) (hw j hin.2.1 hin.2.2), hmoved.trans hmoved'⟩
      have hsub : j - 1 - (n : Int) = j - ((n + 1 : Nat) : Int) := by omega
      rw [hsub] at hrun
      rw [gatherLeft, if_pos hkp]
      by_cases hne : k = j
      · -- an entry is not swapped with itself
        rw [← hne, Spans.swap_self (hw k hin.1.1 hin.1.2)] at hrun
        simpa [hne] using hrun
      · simp only [bind, Except.bind, hne, ne_eq, not_false_eq_true, if_true, swap_ok hw hin.1 hin.2]
        exact hrun
    · obtain rfl : n = 0 := by omega
      refine ⟨s, ?_, .zero, .refl _ _ _⟩
      rw [gatherLeft, if_neg hkp]
      simp [pure, Except.pure]

theorem gatherRight_ok (fuel : Nat) (hl : l ≤ a) (hr : b ≤ r) (hw : Within l r s) {q k i : Int}
    (hn : n = (k - q).toNat) (hfuel : n < fuel) (hk : k ≤ b) (hkl : n = 0 ∨ a ≤ k - n + 1) (hi : a ≤ i) (hir : i + n ≤ b + 1) :
    ∃ s', gatherRight l r q fuel k i s = .ok (s', i + n) ∧ Mirrored i k n s s' ∧ Rearranges a b s s' := by
  induction fuel generalizing k i n s with
  | zero => omega
  | succ fuel ih =>
    by_cases hkq : k > q
    · obtain ⟨n, rfl⟩ : ∃ m, n = m + 1 := ⟨n - 1, by omega⟩
      have hin : (l ≤ i ∧ i ≤ r) ∧ l ≤ k ∧ k ≤ r := by omega
      have hmoved : Rearranges a b s (Spans.swap s i k) :=
        Rearranges.swap (fun m hm hm' => hw m (by omega) (by omega)) (by omega) (by omega)
      obtain ⟨s', hrun, hmirror, hmoved'⟩ := ih (hmoved.within hw) (k := k - 1) (i := i + 1) (n := n) (by omega)
        (by omega) (by omega) (by omega) (by omega) (by omega)
      refine ⟨s', ?_, hmirror.step (hw i hin.1.1 hin.1.2) (hw k hin.2.1 hin.2.2), hmoved.trans hmoved'⟩
      have hadd : i + 1 + (n : Int) = i + ((n + 1 : Nat) : Int) := by omega
      rw [hadd] at hrun
      rw [gatherRight, if_pos hkq]
      simp only [bind, Except.bind, swap_ok hw hin.1 hin.2]
      exact hrun
    · obtain rfl : n = 0 := by omega
      refine ⟨s, ?_, .zero, .refl _ _ _⟩
      rw [gatherRight, if_neg hkq]
      simp [pure, Except.pure]

end Gathering

/-- The span before the recursive calls: what is equal to the pivot is in the center, apart
from entries that are sorted with the others. -/
structure Divided (cmp : α → α → Int) (v : α) (l r : Int) (s s' : Array α) (j i : Int) : Prop where
  l_j : l - 1 ≤ j
  j_r : j < r
  l_i : l < i
  j_i : j < i
  i_r : i ≤ r + 1
  low : AllIn (fun x => ¬ Above cmp v x) s' l (j + 1)
  center : AllIn (Equal cmp v) s' (j + 1) i
  high : AllIn (fun x => ¬ Below cmp v x) s' i (r + 1)
  moved : Rearranges l r s s'

theorem SplitAt.divide (hcmp : TotalPreorder cmp) (hw : Within l r s) {t : Parts α} (h : SplitAt cmp v l r s t)
    (fuel : Nat) (hfuel : r - l < fuel) :
    ∃ s₁ s₂ s₃ j i, swap l r t.seq t.i r = .ok s₁ ∧ gatherLeft l r t.p fuel l (t.i - 1) s₁ = .ok (s₂, j) ∧
      gatherRight l r t.q fuel (r - 1) (t.i + 1) s₂ = .ok (s₃, i) ∧ Divided cmp v l r s s₃ j i := by
  have hlp := h.l_p
  have hpi := h.p_i
  have hiq := h.i_q
  have hqr := h.q_r
  have hwt := h.moved.within hw
  have hentry (k : Int) := Spans.entry_swap (k := k) (hwt t.i (by omega) (by omega)) (hwt r (by omega) (by omega))
  have hother : ∀ k, k ≠ t.i → k ≠ r → entry (Spans.swap t.seq t.i r) k = entry t.seq k := by
    intro k hki hkr
    rw [hentry, if_neg hki, if_neg hkr]
  have hmoved₁ : Rearranges l r t.seq (Spans.swap t.seq t.i r) := Rearranges.swap hwt (by omega) (by omega)
  have hw₁ := hmoved₁.within hwt
  obtain ⟨s₂, hleft, hmirror₂, hmoved₂⟩ := gatherLeft_ok (a := l) (b := t.i - 1) fuel (Int.le_refl _)
    (by omega) hw₁ (p := t.p) (k := l) (j := t.i - 1) rfl (by omega) (Int.le_refl _) (by omega) (Int.le_refl _) (by omega)
  have hw₂ := hmoved₂.within hw₁
  obtain ⟨s₃, hright, hmirror₃, hmoved₃⟩ := gatherRight_ok (a := t.i + 1) (b := r) fuel (by omega)
    (Int.le_refl _) hw₂ (q := t.q) (k := r - 1) (i := t.i + 1) rfl (by omega) (by omega) (by omega) (Int.le_refl _) (by omega)
  have hlow : AllIn (fun x => ¬ Above cmp v x) t.seq l t.i :=
    (h.equalLeft.imp fun _ => Equal.not_above).append (h.below.imp fun _ => Below.not_above)
  have hhigh : AllIn (fun x => ¬ Below cmp v x) t.seq t.i (r + 1) := by
    refine h.notBelow.append ((h.equalRight.imp fun _ => Equal.not_below).snoc ?_)
    rw [h.pivot]
    rintro y ⟨⟩
    exact hcmp.equal_self.not_below
  -- after the pivot was moved to the center
  have hmoved₁' : Rearranges t.i r t.seq (Spans.swap t.seq t.i r) :=
    Rearranges.swap (fun k hk hk' => hwt k (by omega) hk') ⟨Int.le_refl _, by omega⟩ ⟨by omega, Int.le_refl _⟩
  have hlow₁ := hmoved₁'.allIn_outside hlow (.inl (Int.le_refl _))
  have hleft₁ := hmoved₁'.allIn_outside h.equalLeft (.inl (by omega))
  have hhigh₁ := hmoved₁'.allIn hhigh
  have hcenter₁ : entry (Spans.swap t.seq t.i r) t.i = some v := by rw [hentry, if_pos rfl, h.pivot]
  have hright₁ : AllIn (Equal cmp v) (Spans.swap t.seq t.i r) (t.q + 1) r :=
    (h.equalRight.mono (by omega) (Int.le_refl _)).congr fun k hk hk' => hother k (by omega) (by omega)
  -- after the entries on the left were moved
  have hlow₂ := hmoved₂.allIn (hlow₁.mono (Int.le_refl _) (by omega))
  have hleft₂ := hmirror₂.allIn_last (hleft₁.mono (Int.le_refl _) (by omega))
  have hhigh₂ := hmoved₂.allIn_outside hhigh₁ (.inr (by omega))
  have hcenter₂ : entry s₂ t.i = some v := (hmoved₂.outside t.i (.inr (by omega))).trans hcenter₁
  have hright₂ := hmoved₂.allIn_outside hright₁ (.inr (by omega))
  -- after the entries on the right were moved
  have hright₃ := hmirror₃.allIn_first (P := Equal cmp v) fun k hk hk' => hright₂ k (by omega) (by omega)
  have hhigh₃ := hmoved₃.allIn (hhigh₂.mono (by omega) (Int.le_refl _))
  have hlow₃ := hmoved₃.allIn_outside hlow₂ (.inl (by omega))
  have hleft₃ := hmoved₃.allIn_outside hleft₂ (.inl (by omega))
  have hcenter₃ : ∀ x ∈ entry s₃ t.i, Equal cmp v x := by
    rw [hmoved₃.outside t.i (.inl (by omega)), hcenter₂]
    rintro y ⟨⟩
    exact hcmp.equal_self
  refine ⟨_, s₂, s₃, _, _, swap_ok hwt (by omega) (by omega), hleft, hright, by omega, by omega, by omega, by omega, by omega,
    hlow₃.mono (Int.le_refl _) (by omega), ?_, hhigh₃.mono (by omega) (Int.le_refl _), ?_⟩
  · rw [Int.sub_add_cancel] at hleft₃
    exact (hleft₃.snoc hcenter₃).append hright₃
  · exact ((h.moved.trans hmoved₁).trans (hmoved₂.mono (Int.le_refl _) (by omega))).trans
      (hmoved₃.mono (by omega) (Int.le_refl _))

theorem Divided.sorted (hcmp : TotalPreorder cmp) {s' s₁ s₂ : Array α} {i j : Int} (h : Divided cmp v l r s s' j i)
    (hmoved₁ : Rearranges l j s' s₁) (hsorted₁ : Sorted (fun x y => cmp x y ≤ 0) l j s₁)
    (hmoved₂ : Rearranges i r s₁ s₂) (hsorted₂ : Sorted (fun x y => cmp x y ≤ 0) i r s₂) :
    Sorted (fun x y => cmp x y ≤ 0) l r s₂ := by
  have hji := h.j_i
  have hlow : AllIn (fun x => ¬ Above cmp v x) s₂ l (j + 1) :=
    hmoved₂.allIn_outside (hmoved₁.allIn h.low) (.inl (by omega))
  have hcenter : AllIn (Equal cmp v) s₂ (j + 1) i :=
    hmoved₂.allIn_outside (hmoved₁.allIn_outside h.center (.inr (by omega))) (.inl (Int.le_refl _))
  have hhigh : AllIn (fun x => ¬ Below cmp v x) s₂ i (r + 1) :=
    hmoved₂.allIn (hmoved₁.allIn_outside h.high (.inr hji))
  have hfirst := hlow.append (hcenter.imp fun _ => Equal.not_above)
  have hlast := (hcenter.imp fun _ => Equal.not_below).append hhigh
  intro a b hla hab hbr x hx y hy
  by_cases hb : b ≤ j
  · rw [hmoved₂.outside a (.inl (by omega))] at hx
    rw [hmoved₂.outside b (.inl (by omega))] at hy
    exact hsorted₁ a b hla hab hb x hx y hy
  · by_cases ha : i ≤ a
    · exact hsorted₂ a b ha hab hbr x hx y hy
    · exact hcmp.le_of_pivot (hfirst a hla (by omega) x hx) (hlast b (by omega) (by omega) y hy)

section Fuel

open Loops (bind_ok)

variable {fuel fuel' : Nat} {u : Array α × Int}

theorem scanUp_mono {i i' : Int} (h : scanUp cmp l r s v fuel i = .ok i') (hle : fuel ≤ fuel') :
    scanUp cmp l r s v fuel' i = .ok i' := by
  induction fuel generalizing i fuel' with
  | zero => cases h
  | succ fuel ih =>
    obtain ⟨fuel', rfl⟩ := Nat.exists_eq_add_one.mpr (Nat.lt_of_lt_of_le (Nat.succ_pos fuel) hle)
    rw [scanUp] at h ⊢
    obtain ⟨x, hx, h⟩ := bind_ok h
    rw [hx]
    by_cases hbelow : cmp x v < 0
    · rw [if_pos hbelow] at h
      exact (if_pos hbelow).trans (ih h (Nat.le_of_succ_le_succ hle))
    · rw [if_neg hbelow] at h
      exact (if_neg hbelow).trans h

theorem scanDown_mono {j j' : Int} (h : scanDown cmp l r s v fuel j = .ok j') (hle : fuel ≤ fuel') :
    scanDown cmp l r s v fuel' j = .ok j' := by
  induction fuel generalizing j fuel' with
  | zero => cases h
  | succ fuel ih =>
    obtain ⟨fuel', rfl⟩ := Nat.exists_eq_add_one.mpr (Nat.lt_of_lt_of_le (Nat.succ_pos fuel) hle)
    rw [scanDown] at h ⊢
    obtain ⟨x, hx, h⟩ := bind_ok h
    rw [hx]
    by_cases hgo : cmp v x < 0 ∧ j - 1 ≠ l
    · rw [if_pos hgo.1, if_neg hgo.2] at h
      exact (if_pos hgo.1).trans ((if_neg hgo.2).trans (ih h (Nat.le_of_succ_le_succ hle)))
    · refine Eq.trans ?_ h
      change (if _ then if _ then _ else _ else _) = if _ then if _ then _ else _ else _
      split
      · rename_i habove
        have hend : j - 1 = l := Decidable.not_not.mp fun hne => hgo ⟨habove, hne⟩
        rw [if_pos hend, if_pos hend]
      · rfl

theorem partitionLoop_mono {t t' : Parts α} (h : partitionLoop cmp l r v fuel t = .ok t') (hle : fuel ≤ fuel') :
    partitionLoop cmp l r v fuel' t = .ok t' := by
  induction fuel generalizing t fuel' with
  | zero => cases h
  | succ fuel ih =>
    obtain ⟨fuel', rfl⟩ := Nat.exists_eq_add_one.mpr (Nat.lt_of_lt_of_le (Nat.succ_pos fuel) hle)
    have hle := Nat.le_of_succ_le_succ hle
    rw [partitionLoop] at h ⊢
    obtain ⟨i, hi, h⟩ := bind_ok h
    obtain ⟨j, hj, h⟩ := bind_ok h
    rw [scanUp_mono hi hle]
    change (scanDown cmp l r t.seq v fuel' t.j >>= _) = _
    rw [scanDown_mono hj hle]
    by_cases hmet : i ≥ j
    · rw [if_pos hmet] at h
      exact (if_pos hmet).trans h
    · rw [if_neg hmet] at h
      refine (if_neg hmet).trans ?_
      obtain ⟨seq, hseq, h⟩ := bind_ok h
      obtain ⟨t₁, ht₁, h⟩ := bind_ok h
      obtain ⟨t₂, ht₂, h⟩ := bind_ok h
      rw [hseq]
      change (migrateLeft cmp l r v _ >>= _) = _
      rw [ht₁]
      change (migrateRight cmp l r v _ >>= _) = _
      rw [ht₂]
      exact ih h hle

theorem gatherLeft_mono {p k j : Int} (h : gatherLeft l r p fuel k j s = .ok u) (hle : fuel ≤ fuel') :
    gatherLeft l r p fuel' k j s = .ok u := by
  induction fuel generalizing k j s fuel' with
  | zero => cases h
  | succ fuel ih =>
    obtain ⟨fuel', rfl⟩ := Nat.exists_eq_add_one.mpr (Nat.lt_of_lt_of_le (Nat.succ_pos fuel) hle)
    have hle := Nat.le_of_succ_le_succ hle
    rw [gatherLeft] at h ⊢
    by_cases hk : k < p
    · rw [if_pos hk] at h ⊢
      by_cases hne : k ≠ j
      · simp only [if_pos hne] at h ⊢
        obtain ⟨s', hs', h⟩ := bind_ok h
        rw [hs']
        exact ih h hle
      · simp only [if_neg hne] at h ⊢
        exact ih h hle
    · rw [if_neg hk] at h ⊢
      exact h

theorem gatherRight_mono {q k i : Int} (h : gatherRight l r q fuel k i s = .ok u) (hle : fuel ≤ fuel') :
    gatherRight l r q fuel' k i s = .ok u := by
  induction fuel generalizing k i s fuel' with
  | zero => cases h
  | succ fuel ih =>
    obtain ⟨fuel', rfl⟩ := Nat.exists_eq_add_one.mpr (Nat.lt_of_lt_of_le (Nat.succ_pos fuel) hle)
    have hle := Nat.le_of_succ_le_succ hle
    rw [gatherRight] at h ⊢
    by_cases hk : k > q
    · rw [if_pos hk] at h ⊢
      obtain ⟨s', hs', h⟩ := bind_ok h
      rw [hs']
      exact ih h hle
    · rw [if_neg hk] at h ⊢
      exact h

/-- What a call does before it calls itself. -/
theorem quickSort3_of_divide {t : Parts α} {s₁ s₂ s₃ s₄ : Array α} {i j : Int} (hlt : l < r) (hv : get l r s r = .ok v)
    (ht : partitionLoop cmp l r v fuel { seq := s, i := l - 1, j := r, p := l - 1, q := r } = .ok t)
    (hs₁ : swap l r t.seq t.i r = .ok s₁) (hs₂ : gatherLeft l r t.p fuel l (t.i - 1) s₁ = .ok (s₂, j))
    (hs₃ : gatherRight l r t.q fuel (r - 1) (t.i + 1) s₂ = .ok (s₃, i))
    (hs₄ : quickSort3 cmp fuel s₃ l j = .ok s₄) :
    quickSort3 cmp (fuel + 1) s l r = quickSort3 cmp fuel s₄ i r := by
  rw [quickSort3, if_neg (by omega)]
  simp only [bind, Except.bind, hv, ht, hs₁, hs₂, hs₃, hs₄]

end Fuel

theorem parted_init (hlt : l < r) (hv : entry s r = some v) :
    Parted cmp v l r s { seq := s, i := l - 1, j := r, p := l - 1, q := r } := by
  refine ⟨Int.le_refl _, Int.le_refl _, (by omega : l - 1 < r), hlt, Int.le_refl _, Int.le_refl _, hv, ?_, ?_, ?_, ?_,
    .refl _ _ _⟩
  all_goals exact .of_le (by simp)

theorem quickSort3_ok (hcmp : TotalPreorder cmp) (hw : Within l r s) :
    ∃ s', (∀ fuel : Nat, 0 < fuel → r - l + 2 < fuel → quickSort3 cmp fuel s l r = .ok s') ∧ Rearranges l r s s' ∧
      Sorted (fun x y => cmp x y ≤ 0) l r s' := by
  induction hn : (r - l).toNat using Nat.strongRecOn generalizing s l r with
  | ind n ih =>
    by_cases hlt : l < r
    · obtain ⟨v, hv⟩ := Option.isSome_iff_exists.mp (hw r (by omega) (Int.le_refl _))
      obtain ⟨t, ht, hsplit⟩ := partitionLoop_ok (r - l + 2).toNat hcmp hw (parted_init hlt hv)
        (show r - l + 1 < _ by omega)
      obtain ⟨s₁, s₂, s₃, j, i, hs₁, hs₂, hs₃, hdiv⟩ := hsplit.divide hcmp hw (r - l + 2).toNat
        (by omega)
      have hlj := hdiv.l_j
      have hjr := hdiv.j_r
      have hli := hdiv.l_i
      have hir := hdiv.i_r
      have hw₃ := hdiv.moved.within hw
      obtain ⟨s₄, hs₄, hmoved₄, hsorted₄⟩ := ih (j - l).toNat (by omega) (l := l) (r := j)
        (fun k hk hk' => hw₃ k hk (by omega)) rfl
      obtain ⟨s₅, hs₅, hmoved₅, hsorted₅⟩ := ih (r - i).toNat (by omega) (l := i) (r := r) (s := s₄)
        (fun k hk hk' => hmoved₄.within hw₃ k (by omega) hk') rfl
      refine ⟨s₅, fun fuel hpos hfuel => ?_, ?_, hdiv.sorted hcmp hmoved₄ hsorted₄ hmoved₅ hsorted₅⟩
      · obtain ⟨fuel, rfl⟩ := Nat.exists_eq_add_one.mpr hpos
        have hle : (r - l + 2).toNat ≤ fuel := by omega
        refine (quickSort3_of_divide hlt (get_ok ⟨by omega, Int.le_refl _⟩ hv) (partitionLoop_mono ht hle) hs₁
          (gatherLeft_mono hs₂ hle) (gatherRight_mono hs₃ hle) (hs₄ fuel (by omega) (by omega))).trans ?_
        exact hs₅ fuel (by omega) (by omega)
      · exact (hdiv.moved.trans (hmoved₄.mono (Int.le_refl _) (by omega))).trans (hmoved₅.mono (by omega) (Int.le_refl _))
    · refine ⟨s, fun fuel hpos _ => ?_, .refl _ _ _, fun a b _ _ _ => by omega⟩
      obtain ⟨fuel, rfl⟩ := Nat.exists_eq_add_one.mpr hpos
      rw [quickSort3, if_pos (by omega)]
      rfl

theorem within_all (s : Array α) : Within 0 (s.size - 1) s := by
  intro i hl hr
  rw [Spans.entry_isSome]
  omega

theorem pairwise_of_sorted {le : α → α → Prop} (h : Sorted le 0 (s.size - 1) s) : s.toList.Pairwise le := by
  rw [List.pairwise_iff_getElem]
  intro i j hi hj hij
  rw [Array.length_toList] at hi hj
  refine h i j (by omega) (by omega) (by omega) _ ?_ _ ?_
  · rw [Spans.entry_natCast, Array.getElem_toList]
    exact Array.getElem?_eq_getElem hi
  · rw [Spans.entry_natCast, Array.getElem_toList]
    exact Array.getElem?_eq_getElem hj

end QuickSort

/-- The sort returns, without an access outside of a span that it is called for, and leaves
the entries in order. -/
theorem quickSort3_sorts {α : Type} (cmp : α → α → Int) (hcmp : QuickSort.TotalPreorder cmp) (seq : Array α) :
    ∃ seq', Fuel.Returns (fun fuel => QuickSort.quickSort3 cmp fuel seq 0 (seq.size - 1)) (.ok seq') ∧
      Fuel.Returns (fun fuel => QuickSort.sort cmp fuel seq) (.ok seq') ∧
      seq'.Perm seq ∧ seq'.toList.Pairwise (fun x y => cmp x y ≤ 0) := by
  obtain ⟨seq', hrun, hmoved, hsorted⟩ := QuickSort.quickSort3_ok hcmp (QuickSort.within_all seq)
  have hreturns : Fuel.Returns (fun fuel => QuickSort.quickSort3 cmp fuel seq 0 (seq.size - 1)) (.ok seq') :=
    ⟨seq.size + 2, fun fuel hle => hrun fuel (by omega) (by omega)⟩
  refine ⟨seq', hreturns, ?_, hmoved.perm, ?_⟩
  · by_cases hsize : seq.size > 1
    · simpa only [QuickSort.sort, hsize, if_true] using hreturns
    · -- a call for one entry or none returns the sequence too
      have hnow : Fuel.Returns (fun fuel => QuickSort.quickSort3 cmp fuel seq 0 (seq.size - 1)) (.ok seq) := by
        refine .now fun fuel => ?_
        rw [QuickSort.quickSort3, if_pos (by omega)]
        rfl
      obtain rfl : seq' = seq := Except.ok.inj (hreturns.unique hnow)
      exact ⟨0, fun fuel _ => if_neg hsize⟩
  · apply QuickSort.pairwise_of_sorted
    rwa [hmoved.perm.size_eq]

theorem quickSort3_sorts_three :
    ∃ seq', Fuel.Returns (fun fuel => QuickSort.quickSort3 (fun x y : Int => x - y) fuel #[2, 1, 2] 0
        ((#[2, 1, 2] : Array Int).size - 1)) (.ok seq') ∧
      Fuel.Returns (fun fuel => QuickSort.sort (fun x y : Int => x - y) fuel #[2, 1, 2]) (.ok seq') ∧
      seq'.Perm #[2, 1, 2] ∧ seq'.toList.Pairwise (fun x y => x - y ≤ 0) :=
  quickSort3_sorts (fun x y => x - y) ⟨fun _ _ => by omega, fun _ _ _ _ _ => by omega⟩ #[2, 1, 2]

end Crack
