import Mathlib.Data.Nat.Digits.Lemmas
import Mathlib.Tactic.Common

/-!
# Numerals

The numeral of a number in some base, its value, and a loop that writes it backwards into a memory.
-/
namespace Positional

variable {β : Type} {b n i : Nat}

/-- The digits of a number, the highest one first, and a zero for zero. -/
def numeral (b n : Nat) : List Nat := if n = 0 then [0] else (b.digits n).reverse

/-- What some digits stand for. -/
def value (b : Nat) (ds : List Nat) : Nat := ds.foldl (fun v d => v * b + d) 0

/-- A numeral of `n`, without leading zeros. -/
structure IsNumeral (b n : Nat) (ds : List Nat) : Prop where
  digits : ∀ d ∈ ds, d < b
  value : value b ds = n
  head : ds.head? = some 0 → ds = [0]
  nonempty : ds ≠ []

theorem numeral_of_pos (h : n ≠ 0) : numeral b n = (b.digits n).reverse := if_neg h

theorem numeral_lt (hb : 1 < b) (n : Nat) : ∀ d ∈ numeral b n, d < b := by
  intro d hd
  rw [numeral] at hd
  split at hd
  · rw [List.mem_singleton.mp hd]
    omega
  · exact Nat.digits_lt_base hb (List.mem_reverse.mp hd)

theorem value_reverse (ds : List Nat) : value b ds.reverse = Nat.ofDigits b ds := by
  induction ds with
  | nil => rfl
  | cons d ds ih =>
    rw [List.reverse_cons, value, List.foldl_append, Nat.ofDigits_cons, ← ih]
    change value b ds.reverse * b + d = _
    rw [Nat.mul_comm, Nat.add_comm]

theorem value_numeral (b n : Nat) : value b (numeral b n) = n := by
  rw [numeral]
  split
  next h =>
    rw [h, value, List.foldl_cons, List.foldl_nil, Nat.zero_mul]
  next h => rw [value_reverse, Nat.ofDigits_digits]

/-- How many digits there are. -/
theorem length_numeral_le_iff (hb : 1 < b) (hi : 0 < i) : (numeral b n).length ≤ i ↔ n < b ^ i := by
  rw [numeral]
  split
  next h =>
    rw [h, List.length_singleton]
    exact iff_of_true hi (Nat.pow_pos (by omega))
  next h => rw [List.length_reverse, Nat.digits_length_le_iff hb]

theorem isNumeral (hb : 1 < b) (n : Nat) : IsNumeral b n (numeral b n) := by
  refine ⟨numeral_lt hb n, value_numeral b n, ?_, ?_⟩
  · intro hhead
    by_cases h : n = 0
    · exact if_pos h
    rw [numeral_of_pos h, List.head?_reverse, List.getLast?_eq_getLast_of_ne_nil (Nat.digits_ne_nil_iff_ne_zero.mpr h)]
      at hhead
    exact absurd (Option.some.inj hhead) (Nat.getLast_digit_ne_zero b h)
  · rw [numeral]
    split
    next => exact List.cons_ne_nil 0 []
    next h => exact fun hnil => Nat.digits_ne_nil_iff_ne_zero.mpr h (List.reverse_eq_nil_iff.mp hnil)

/-- Write the digits of `n` below the place `i`, unless they go below the place 0. -/
def writeDown (digit : Nat → β) (b : Nat) : Nat → Nat → List β → Option (Nat × List β)
  | 0, n, mem => if n = 0 then some (0, mem) else none
  | i + 1, n, mem =>
    if n = 0 then some (i + 1, mem) else writeDown digit b i (n / b) (mem.set i (digit (n % b)))

theorem drop_set_self {xs : List β} (h : i < xs.length) (x : β) : (xs.set i x).drop i = x :: xs.drop (i + 1) := by
  rw [List.drop_set, if_neg (Nat.lt_irrefl i), Nat.sub_self, List.drop_eq_getElem_cons h, List.set_cons_zero]

/-- The digits end at `i`, and the rest of the memory is left alone. -/
theorem writeDown_eq (digit : Nat → β) (hb : 1 < b) {mem : List β} (hi : i ≤ mem.length) (n : Nat) :
    writeDown digit b i n mem =
      if (b.digits n).length ≤ i then
        some (i - (b.digits n).length,
          mem.take (i - (b.digits n).length) ++ (b.digits n).reverse.map digit ++ mem.drop i)
      else none := by
  induction i generalizing n mem with
  | zero =>
    rw [writeDown]
    by_cases h : n = 0
    · rw [if_pos h, h, Nat.digits_zero]
      rfl
    · have hpos := List.length_pos_iff.mpr (Nat.digits_ne_nil_iff_ne_zero (b := b).mpr h)
      rw [if_neg h, if_neg (by omega)]
  | succ i ih =>
    rw [writeDown]
    by_cases h : n = 0
    · rw [if_pos h, h, Nat.digits_zero, List.length_nil, if_pos (Nat.zero_le _), Nat.sub_zero, List.reverse_nil,
        List.map_nil, List.append_nil, List.take_append_drop]
    · have hcons := Nat.digits_eq_cons_digits_div hb h
      rw [if_neg h, ih (by rw [List.length_set]; omega), hcons, List.length_cons]
      by_cases hfits : (b.digits (n / b)).length ≤ i
      · -- the digit that is set here is the last one of all
        rw [if_pos hfits, if_pos (Nat.succ_le_succ hfits), Nat.add_sub_add_right, List.take_set_of_le (Nat.sub_le _ _),
          drop_set_self hi, List.reverse_cons, List.map_append, List.append_assoc, List.append_assoc, List.append_assoc]
        rfl
      · rw [if_neg hfits, if_neg (by omega)]

/-- What was written is found from its start on. -/
theorem written (xs ds ys : List β) (h : i ≤ xs.length) :
    (xs.take i ++ ds ++ ys).drop i = ds ++ ys := by
  rw [List.append_assoc]
  exact List.drop_left' (List.length_take_of_le h)

end Positional
