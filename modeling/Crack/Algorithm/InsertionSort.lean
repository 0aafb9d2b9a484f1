import Crack.Algorithm.QuickSortRuns
import Crack.Lib.Insertions

/-!
# Insertion sort

The sort of a sequence by insertion into its sorted beginning. The index runs down past 0 when the key goes to the
front, and any access outside of the sequence is a fault. Loops take fuel.
-/
namespace Crack

namespace InsertionSort

variable {α : Type}

def get (seq : List α) (i : UInt64) : Except Fault α :=
  match seq[i.toNat]? with
  | some x => .ok x
  | none => .error .wildIndex

def set (seq : List α) (i : UInt64) (x : α) : Except Fault (List α) :=
  if i.toNat < seq.length then .ok (seq.set i.toNat x) else .error .wildIndex

section Calls

variable (cmp : α → α → Int)

/-- Move the elements above the key up by one, from `i` downwards. -/
def shiftLoop (key : α) : Nat → List α → UInt64 → Except Fault (List α × UInt64)
  | 0, _, _ => .error .forever
  | fuel + 1, seq, i => do
    if cmp (← get seq i) key > 0 then
      let seq ← set seq (i + 1) (← get seq i)
      if i = 0 then return (seq, i - 1) else shiftLoop key fuel seq (i - 1)
    else return (seq, i)

def sortLoop (count : UInt64) : Nat → List α → UInt64 → Except Fault (List α)
  | 0, _, _ => .error .forever
  | fuel + 1, seq, j => do
    if j < count then
      let key ← get seq j
      let (seq, i) ← shiftLoop cmp key fuel seq (j - 1)
      let seq ← set seq (i + 1) key
      sortLoop count fuel seq (j + 1)
    else return seq

/-- `_insertionSort` -/
def insertionSort (fuel : Nat) (seq : List α) (count : UInt64) : Except Fault (List α) :=
  if count > 1 then sortLoop cmp count fuel seq 1 else .ok seq

end Calls

variable {cmp : α → α → Int} {key x y : α} {P S : List α} {i j count : UInt64} {fuel : Nat}

theorem get_middle (hi : i.toNat = P.length) : get (P ++ x :: S) i = .ok x := by
  rw [get, hi, List.getElem?_append_right (Nat.le_refl _), Nat.sub_self]
  rfl

theorem set_middle (hi : i.toNat = P.length) (y : α) : set (P ++ x :: S) i y = .ok (P ++ y :: S) := by
  have hlt : i.toNat < (P ++ x :: S).length := by
    rw [hi, List.length_append, List.length_cons]
    omega
  rw [set, if_pos hlt, hi, List.set_append_right _ _ (Nat.le_refl _), Nat.sub_self]
  rfl

theorem toNat_succ (h : i.toNat + 1 < 2 ^ 64) : (i + 1).toNat = i.toNat + 1 := by
  rw [UInt64.toNat_add]
  exact Nat.mod_eq_of_lt h

theorem toNat_pred (h : i ≠ 0) : (i - 1).toNat + 1 = i.toNat := by
  have hpos : i.toNat ≠ 0 := fun h0 => h (UInt64.toNat_inj.mp h0)
  have hlt := i.toNat_lt
  rw [UInt64.toNat_sub]
  change (2 ^ 64 - 1 + i.toNat) % 2 ^ 64 + 1 = _
  omega

/-- The elements above the key at the end of `P` move up into the gap behind it, and the index stops in front of the
new gap. -/
theorem shiftLoop_ok (hP : P ≠ []) (hi : i.toNat + 1 = P.length) (hlen : P.length < 2 ^ 64) (hfuel : P.length ≤ fuel) :
    ∃ i' gap, shiftLoop cmp key fuel (P ++ x :: S) i =
        .ok (P.rdropWhile (cmp · key > 0) ++ gap :: (P.rtakeWhile (cmp · key > 0) ++ S), i') ∧
      (i' + 1).toNat = (P.rdropWhile (cmp · key > 0)).length := by
  induction P using List.reverseRecOn generalizing x S i fuel with
  | nil => exact absurd rfl hP
  | append_singleton P y ih =>
    rw [List.length_append, List.length_singleton] at hi hlen hfuel
    obtain ⟨fuel, rfl⟩ := Nat.exists_eq_add_one.mpr (Nat.lt_of_lt_of_le (Nat.succ_pos _) hfuel)
    have hnext : (i + 1).toNat = (P ++ [y]).length := by
      rw [toNat_succ (by omega), List.length_append, List.length_singleton]
      omega
    have hget : get (P ++ [y] ++ x :: S) i = .ok y := by
      rw [List.append_assoc]
      exact get_middle (by omega)
    have hset : set (P ++ [y] ++ x :: S) (i + 1) y = .ok (P ++ y :: y :: S) := by
      rw [set_middle hnext, List.append_assoc]
      rfl
    rw [shiftLoop, hget]
    by_cases hy : cmp y key > 0
    · have hdrop := List.rdropWhile_concat_pos (cmp · key > 0) P y (decide_eq_true hy)
      have htake := List.rtakeWhile_concat_pos (cmp · key > 0) P y (decide_eq_true hy)
      rw [hdrop, htake]
      change ∃ i' gap, (if cmp y key > 0 then do
        let seq ← set (P ++ [y] ++ x :: S) (i + 1) y
        if i = 0 then return (seq, i - 1) else shiftLoop cmp key fuel seq (i - 1)
        else return (P ++ [y] ++ x :: S, i)) = _ ∧ _
      rw [if_pos hy, hset]
      by_cases h0 : i = 0
      · -- the index goes past the front
        subst h0
        obtain rfl : P = [] := List.eq_nil_of_length_eq_zero (Nat.succ.inj hi).symm
        exact ⟨0 - 1, y, rfl, rfl⟩
      · have hpred := toNat_pred h0
        have hne : P ≠ [] := List.ne_nil_of_length_pos (by omega)
        obtain ⟨i', gap, hloop, hi'⟩ := @ih y (y :: S) (i - 1) fuel hne (by omega) (by omega) (by omega)
        refine ⟨i', gap, ?_, hi'⟩
        change (if i = 0 then _ else _) = _
        rw [if_neg h0, hloop, List.append_assoc]
        rfl
    · have hdrop := List.rdropWhile_concat_neg (cmp · key > 0) P y (fun h => hy (of_decide_eq_true h))
      have htake := List.rtakeWhile_concat_neg (cmp · key > 0) P y (fun h => hy (of_decide_eq_true h))
      rw [hdrop, htake]
      refine ⟨i, x, ?_, hnext⟩
      exact if_neg hy

/-- The elements before `j` are what the insertions of them make. -/
theorem sortLoop_ok (hfuel : P.length + 2 * S.length < fuel) (hP : P ≠ []) (hj : j.toNat = P.length)
    (hcount : count.toNat = (P ++ S).length) :
    sortLoop cmp count fuel (P ++ S) j =
      .ok (S.foldl (Insertions.insert fun x y => decide (cmp x y > 0)) P) := by
  induction S generalizing P j fuel with
  | nil =>
    obtain ⟨fuel, rfl⟩ := Nat.exists_eq_add_one.mpr (Nat.lt_of_le_of_lt (Nat.zero_le _) hfuel)
    have hge : ¬ j < count := by
      rw [UInt64.lt_iff_toNat_lt, hj, hcount, List.append_nil]
      exact Nat.lt_irrefl _
    rw [sortLoop, if_neg hge, List.append_nil]
    rfl
  | cons key S ih =>
    rw [List.length_cons] at hfuel
    rw [List.length_append, List.length_cons] at hcount
    obtain ⟨fuel, rfl⟩ := Nat.exists_eq_add_one.mpr (Nat.lt_of_le_of_lt (Nat.zero_le _) hfuel)
    have hbound := count.toNat_lt
    have hpos := List.length_pos_of_ne_nil hP
    have hlt : j < count := by
      rw [UInt64.lt_iff_toNat_lt, hj, hcount]
      omega
    have hpred : (j - 1).toNat + 1 = P.length := by
      rw [toNat_pred (fun h0 => by rw [h0] at hj; exact absurd hj (Nat.ne_of_lt hpos)), hj]
    obtain ⟨i, gap, hloop, hi⟩ := @shiftLoop_ok _ cmp key key P S (j - 1) fuel hP hpred (by omega) (by omega)
    have hinsert : Insertions.insert (fun x y => decide (cmp x y > 0)) P key =
        P.rdropWhile (cmp · key > 0) ++ key :: P.rtakeWhile (cmp · key > 0) := rfl
    have hlength := (@Insertions.insert_perm _ (fun x y => decide (cmp x y > 0)) P key).length_eq
    rw [List.length_append, List.length_singleton] at hlength
    rw [sortLoop, if_pos hlt, get_middle hj]
    change (do
      let (seq, i) ← shiftLoop cmp key fuel (P ++ key :: S) (j - 1)
      let seq ← set seq (i + 1) key
      sortLoop cmp count fuel seq (j + 1)) = _
    rw [hloop]
    change (do
      let seq ← set _ (i + 1) key
      sortLoop cmp count fuel seq (j + 1)) = _
    rw [set_middle hi, ← List.cons_append, ← List.append_assoc, ← hinsert]
    exact ih (by omega) (List.ne_nil_of_length_pos (by omega)) (by rw [toNat_succ (by omega)]; omega)
      (by rw [List.length_append]; omega)

theorem insertionSort_ok (seq : List α) (count : UInt64) (hcount : count.toNat = seq.length)
    (hfuel : 2 * seq.length ≤ fuel) :
    insertionSort cmp fuel seq count = .ok (Insertions.sort (fun x y => decide (cmp x y > 0)) seq) := by
  rw [insertionSort]
  by_cases hmany : count > 1
  · have hlt : (1 : UInt64).toNat < count.toNat := UInt64.lt_iff_toNat_lt.mp hmany
    rw [if_pos hmany]
    match seq, hcount, hfuel with
    | [], hcount, _ =>
      rw [hcount] at hlt
      exact absurd hlt (Nat.not_lt_zero _)
    | x :: seq, hcount, hfuel =>
      rw [List.length_cons] at hfuel
      have hfuel' : [x].length + 2 * seq.length < fuel := by
        rw [List.length_singleton]
        omega
      exact @sortLoop_ok _ cmp [x] seq 1 count fuel hfuel' (List.cons_ne_nil _ _) rfl hcount
  · rw [if_neg hmany]
    have hle : ¬(1 : UInt64).toNat < count.toNat := fun h => hmany (UInt64.lt_iff_toNat_lt.mpr h)
    match seq, hcount with
    | [], _ => rfl
    | [x], _ => rfl
    | x :: y :: seq, hcount => exact absurd (by rw [hcount]; exact Nat.succ_lt_succ (Nat.succ_pos _)) hle

end InsertionSort

/-- The sort returns, without an access outside of the sequence, and leaves the elements in order, equal ones in the
order in which they were. -/
theorem insertionSort_sorts {α : Type} (cmp : α → α → Int) (hcmp : QuickSort.TotalPreorder cmp) (seq : List α)
    (count : UInt64) (hcount : count.toNat = seq.length) :
    ∃ seq', Fuel.Returns (fun fuel => InsertionSort.insertionSort cmp fuel seq count) (.ok seq') ∧
      seq'.Perm seq ∧ seq'.Pairwise (fun x y => cmp x y ≤ 0) ∧
      ∀ x, seq'.filter (fun y => cmp y x = 0) = seq.filter (fun y => cmp y x = 0) := by
  refine ⟨Insertions.sort (fun x y => decide (cmp x y > 0)) seq, ?_, Insertions.sort_perm, ?_, ?_⟩
  · exact ⟨2 * seq.length, fun fuel hle => InsertionSort.insertionSort_ok seq count hcount hle⟩
  · refine Insertions.sort_sorted (fun x y hxy => ?_) (fun x y hxy => ?_) hcmp.trans
    · exact Int.le_of_lt ((hcmp.opposite y x).mpr (of_decide_eq_true hxy))
    · exact Int.not_lt.mp (of_decide_eq_false hxy)
  · intro x
    refine Insertions.sort_stable fun y z hz hyz => decide_eq_false fun hy => ?_
    have hz : cmp z x = 0 := of_decide_eq_true hz
    have hxz : cmp x z ≤ 0 := Int.not_lt.mp fun h => by
      have hlt := (hcmp.opposite z x).mpr h
      omega
    have hle := hcmp.trans y x z (Int.le_of_eq hy) hxz
    exact absurd (of_decide_eq_true hyz) (Int.not_lt.mpr hle)

/-- Pairs are compared by their first number only. -/
theorem insertionSort_sorts_four :
    ∃ seq', Fuel.Returns (fun fuel => InsertionSort.insertionSort (fun x y : Int × Char => x.1 - y.1) fuel
        [(2, 'a'), (1, 'b'), (2, 'c'), (1, 'd')] 4) (.ok seq') ∧
      seq'.Perm [(2, 'a'), (1, 'b'), (2, 'c'), (1, 'd')] ∧ seq'.Pairwise (fun x y => x.1 - y.1 ≤ 0) ∧
      ∀ x : Int × Char, seq'.filter (fun y => y.1 - x.1 = 0) =
        [(2, 'a'), (1, 'b'), (2, 'c'), (1, 'd')].filter (fun y => y.1 - x.1 = 0) :=
  insertionSort_sorts (fun x y => x.1 - y.1) ⟨fun _ _ => by omega, fun _ _ _ _ _ => by omega⟩
    [(2, 'a'), (1, 'b'), (2, 'c'), (1, 'd')] 4 rfl

end Crack
