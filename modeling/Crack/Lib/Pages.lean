import Mathlib.Tactic.Common

/-!
# Pages

A list in pages of `n`, the last of which may be shorter.
-/
namespace Pages

variable {α : Type} {n k i : Nat} {xs : List α}

def page (n : Nat) (xs : List α) (k : Nat) : List α := (xs.drop (k * n)).take n

/-- How many pages have anything in them. -/
def count (n : Nat) (xs : List α) : Nat := (xs.length + n - 1) / n

theorem lt_count_iff (hn : 0 < n) : k < count n xs ↔ k * n < xs.length := by
  rw [count, Nat.lt_iff_add_one_le, Nat.le_div_iff_mul_le hn, Nat.succ_mul]
  omega

theorem length_le (hn : 0 < n) : xs.length ≤ count n xs * n := by
  by_contra hnot
  exact Nat.lt_irrefl _ ((lt_count_iff hn).mpr (Nat.lt_of_not_le hnot))

theorem getElem?_page (hn : 0 < n) : (page n xs (i / n))[i % n]? = xs[i]? := by
  have hi : i / n * n + i % n = i := Nat.div_add_mod' i n
  rw [page, List.getElem?_take_of_lt (Nat.mod_lt i hn), List.getElem?_drop, hi]

/-- A part of a page is a part of the list. -/
theorem slice_page {o c : Nat} (h : o + c ≤ n) : ((page n xs k).drop o).take c = (xs.drop (k * n + o)).take c := by
  rw [page, List.drop_take, List.take_take, Nat.min_eq_left (by omega), List.drop_drop]

theorem length_page : (page n xs k).length = min n (xs.length - k * n) := by
  rw [page, List.length_take, List.length_drop]

/-- A range ends inside the list or behind its pages, unless it ends with the list at the end of a page. -/
theorem div_lt_count_iff (hn : 0 < n) (hend : i = xs.length → ¬n ∣ i) (hbehind : xs.length < i → count n xs * n ≤ i) :
    i / n < count n xs ↔ i ≤ xs.length := by
  constructor
  · intro hlt
    by_contra hnot
    have hle := hbehind (Nat.lt_of_not_le hnot)
    exact Nat.not_lt_of_le ((Nat.le_div_iff_mul_le hn).mpr hle) hlt
  · intro hle
    refine (lt_count_iff hn).mpr (Nat.lt_of_le_of_ne (Nat.le_trans (Nat.div_mul_le_self i n) hle) fun heq => ?_)
    have hi : i = xs.length := Nat.le_antisymm hle (Nat.le_trans (Nat.le_of_eq heq.symm) (Nat.div_mul_le_self i n))
    exact hend hi ⟨i / n, by rw [Nat.mul_comm, heq, hi]⟩

variable {a b : Nat}

/-- Where a range begins in a page that is not before it. -/
theorem offset_eq (hn : 0 < n) (hi : a / n ≤ i) : (if i = a / n then a % n else 0) = max a (i * n) - i * n := by
  by_cases heq : i = a / n
  · have hbase : i * n + a % n = a := by
      rw [heq]
      exact Nat.div_add_mod' a n
    rw [if_pos heq, Nat.max_eq_left (Nat.le.intro hbase)]
    exact Nat.eq_sub_of_add_eq' hbase
  · have hbefore : a < i * n := Nat.lt_mul_of_div_lt (Nat.lt_of_le_of_ne hi (Ne.symm heq)) hn
    rw [if_neg heq, Nat.max_eq_right (Nat.le_of_lt hbefore), Nat.sub_self]

/-- How much of a range is in a page that is neither before nor behind it. -/
theorem amount_eq (hn : 0 < n) (hab : a ≤ b) (ha : a / n ≤ i) (hb : i ≤ b / n) :
    (if i = a / n then if i = b / n then b - a else n - a % n else if i < b / n then n else b % n) =
      min b ((i + 1) * n) - max a (i * n) := by
  have hnext : (i + 1) * n = i * n + n := Nat.succ_mul i n
  have hlast : (if i < b / n then n else b % n) = min b ((i + 1) * n) - i * n := by
    by_cases hlt : i < b / n
    · have hbehind : (i + 1) * n ≤ b := Nat.le_trans (Nat.mul_le_mul_right n hlt) (Nat.div_mul_le_self b n)
      rw [if_pos hlt, Nat.min_eq_right hbehind, hnext, Nat.add_sub_cancel_left]
    · have hbase : i * n + b % n = b := by
        rw [Nat.le_antisymm hb (Nat.le_of_not_lt hlt)]
        exact Nat.div_add_mod' b n
      have hmod := Nat.mod_lt b hn
      rw [if_neg hlt, Nat.min_eq_left (by omega)]
      exact Nat.eq_sub_of_add_eq' hbase
  by_cases heq : i = a / n
  · have hbase : i * n + a % n = a := by
      rw [heq]
      exact Nat.div_add_mod' a n
    rw [if_pos heq, Nat.max_eq_left (Nat.le.intro hbase)]
    by_cases hend : i = b / n
    · have hmod := Nat.mod_lt b hn
      have hbase' : i * n + b % n = b := by
        rw [hend]
        exact Nat.div_add_mod' b n
      rw [if_pos hend, Nat.min_eq_left (by omega)]
    · rw [if_pos (Nat.lt_of_le_of_ne hb hend)] at hlast
      rw [if_neg hend]
      omega
  · have hbefore : a < i * n := Nat.lt_mul_of_div_lt (Nat.lt_of_le_of_ne ha (Ne.symm heq)) hn
    rw [if_neg heq, hlast, Nat.max_eq_right (Nat.le_of_lt hbefore)]

end Pages
