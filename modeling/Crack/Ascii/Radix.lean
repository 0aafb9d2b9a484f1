import Crack.Lang.Buffers
import Crack.Lib.Positional
import Mathlib.Data.UInt

/-!
# Numbers in a base

`radix` writes its digits from the end of a buffer of 20 bytes downwards.
-/
namespace Crack

namespace Ascii

open Positional

/-- The size of the buffer, whose last byte is a zero. -/
def radixSize : Nat := 20

/-- A digit; from ten on it is a letter. -/
def radixDigit (d : Nat) : UInt8 :=
  let b := UInt8.ofNat d
  if b < 10 then b + 48 else b + (97 - 10)

/-- `radix(uintz val, uint base)` -/
def radix (val : UInt64) (base : UInt32) : Except Stop (List UInt8) :=
  let tempBuf := (List.replicate radixSize 0).set (radixSize - 1) 0
  let cur := radixSize - 2
  if val = 0 then .ok (((tempBuf.set (cur - 1) 48).drop (cur - 1)).take 1)
  else if base = 0 then .error .abort
  else
    match writeDown radixDigit base.toNat cur val.toNat tempBuf with
    | none => .error .wildAccess
    | some (start, tempBuf) => .ok ((tempBuf.drop start).take (cur - start))

/-- The digits and the lower-case letters. -/
def letters : List UInt8 :=
  [48, 49, 50, 51, 52, 53, 54, 55, 56, 57, 97, 98, 99, 100, 101, 102, 103, 104, 105, 106, 107, 108, 109, 110, 111, 112,
    113, 114, 115, 116, 117, 118, 119, 120, 121, 122]

def letter (d : Nat) : UInt8 := letters.getD d 0

variable {val : UInt64} {base : UInt32}

theorem radixDigit_eq : ∀ d < 36, radixDigit d = letter d := by decide

theorem radix_digits (hb : 1 < base.toNat) (h : val ≠ 0) :
    radix val base =
      if (base.toNat.digits val.toNat).length ≤ 18 then .ok ((numeral base.toNat val.toNat).map radixDigit)
      else .error .wildAccess := by
  have hval : val.toNat ≠ 0 := fun hc => h (UInt64.toNat_inj.mp hc)
  have hbase : base ≠ 0 := by
    rintro rfl
    exact absurd hb (by decide)
  have hroom : radixSize - 2 ≤ ((List.replicate radixSize (0 : UInt8)).set (radixSize - 1) 0).length := by decide
  have hdown := writeDown_eq radixDigit hb hroom val.toNat
  have hcur : radixSize - 2 = 18 := rfl
  rw [hcur] at hdown
  unfold radix
  dsimp only
  rw [if_neg h, if_neg hbase, numeral_of_pos hval, hcur]
  by_cases hfits : (base.toNat.digits val.toNat).length ≤ 18
  · rw [if_pos hfits]
    rw [if_pos hfits] at hdown
    rw [hdown]
    dsimp only
    rw [written _ _ _ (Nat.le_trans (Nat.sub_le _ _) (by decide)), Nat.sub_sub_self hfits]
    exact congrArg Except.ok (List.take_left' (by rw [List.length_map, List.length_reverse]))
  · rw [if_neg hfits]
    rw [if_neg hfits] at hdown
    rw [hdown]

/-- The numeral of the value is returned, and nothing is written outside of the buffer. -/
def RadixRight (val : UInt64) (base : UInt32) : Prop :=
  ∃ ds, IsNumeral base.toNat val.toNat ds ∧ radix val base = .ok (ds.map letter)

/-- When the numeral fits into the buffer, with its two last bytes left out. -/
theorem radix_iff (val : UInt64) (base : UInt32) (hbase : 2 ≤ base.toNat ∧ base.toNat ≤ 36) :
    RadixRight val base ↔ val.toNat < base.toNat ^ 18 := by
  have hletters : (numeral base.toNat val.toNat).map radixDigit = (numeral base.toNat val.toNat).map letter :=
    List.map_congr_left fun d hd => radixDigit_eq d (Nat.lt_of_lt_of_le (numeral_lt hbase.1 _ d hd) hbase.2)
  have hnumeral := isNumeral hbase.1 val.toNat
  rw [← length_numeral_le_iff hbase.1 (by decide)]
  by_cases h : val = 0
  · subst h
    exact iff_of_true ⟨_, hnumeral, rfl⟩ (Nat.succ_le_succ (Nat.zero_le 17))
  · have hval : val.toNat ≠ 0 := fun hc => h (UInt64.toNat_inj.mp hc)
    rw [RadixRight, radix_digits hbase.1 h, hletters]
    rw [numeral_of_pos hval, List.length_reverse, ← numeral_of_pos hval]
    split
    next hfits => exact iff_of_true ⟨_, hnumeral, rfl⟩ hfits
    next hlong =>
      refine iff_of_false ?_ hlong
      rintro ⟨ds, -, he⟩
      cases he

theorem radix_hex : RadixRight 26 16 ↔ 26 < 16 ^ 18 := radix_iff 26 16 (by decide)

/-- The nineteen digits of 10 ^ 18 begin before the buffer. -/
theorem radix_too_long : ¬ RadixRight (10 ^ 18) 10 := by
  have hlong : ¬ ((10 : UInt32).toNat.digits (10 ^ 18 : UInt64).toNat).length ≤ 18 := by
    rw [Nat.digits_length_le_iff (by decide)]
    exact Nat.lt_irrefl _
  have h := @radix_digits (10 ^ 18) 10 (by decide) (by decide)
  rw [if_neg hlong] at h
  rintro ⟨ds, -, he⟩
  rw [h] at he
  cases he

end Ascii

end Crack
