import Mathlib.Algebra.Group.Nat.Defs
import Mathlib.Data.Nat.Log
import Mathlib.Data.Int.Order.Basic
import Mathlib.Order.Basic
import Mathlib.Tactic.Common

/-!
# Binary floating point numbers as bit patterns

A pattern is a sign and a magnitude, and the magnitudes go up with the numbers. Beyond that
of the infinity there are only patterns that stand for no number.
-/
namespace Crack

inductive FloatFormat where
  | binary32
  | binary64
  deriving DecidableEq, Repr

namespace FloatFormat

def width : FloatFormat → Nat
  | .binary32 => 32
  | .binary64 => 64

def fractionBits : FloatFormat → Nat
  | .binary32 => 23
  | .binary64 => 52

def bias : FloatFormat → Nat
  | .binary32 => 127
  | .binary64 => 1023

variable (f : FloatFormat)

def infinity : Nat := (2 * f.bias + 1) * 2 ^ f.fractionBits

section

variable (x y : BitVec f.width)

def magnitude : Nat := x.toNat % 2 ^ (f.width - 1)

def isNaN : Bool := f.infinity < f.magnitude x

/-- The place among the patterns, where both zeros share one. -/
def place : Int := if x.msb then -f.magnitude x else f.magnitude x

/-- The ordered comparison, which is false for what is no number. -/
def lt : Bool := !f.isNaN x && !f.isNaN y && f.place x < f.place y

/-- The number without its sign and what comes after the point. -/
def truncated : Nat :=
  let exponent := f.magnitude x / 2 ^ f.fractionBits
  let fraction := f.magnitude x % 2 ^ f.fractionBits
  if exponent < f.bias then 0 else (2 ^ f.fractionBits + fraction) * 2 ^ (exponent - f.bias) / 2 ^ f.fractionBits

/-- The conversion to an unsigned number of `w` bits, for what has one. -/
def toUnsigned (w : Nat) : Option (BitVec w) :=
  if f.magnitude x < f.infinity ∧ (f.truncated x = 0 ∨ x.msb = false ∧ f.truncated x < 2 ^ w) then
    some (BitVec.ofNat w (f.truncated x))
  else none

end

/-- The magnitude of the number that is nearest, and of two that are as near the even one. -/
def nearest (n : Nat) : Nat :=
  let exponent := n.log2
  let base := (exponent + f.bias - 1) * 2 ^ f.fractionBits
  if n = 0 then 0
  else if exponent ≤ f.fractionBits then base + n * 2 ^ (f.fractionBits - exponent)
  else
    let unit := 2 ^ (exponent - f.fractionBits)
    let q := n / unit
    let r := n % unit
    if unit < 2 * r ∨ unit = 2 * r ∧ q % 2 = 1 then base + q + 1 else base + q

def ofInt (n : Int) : BitVec f.width :=
  BitVec.ofNat f.width ((if n < 0 then 2 ^ (f.width - 1) else 0) + f.nearest n.natAbs)

/-- The same number in the larger format; what is no number becomes quiet. -/
def extend (x : BitVec binary32.width) : BitVec binary64.width :=
  let exponent := binary32.magnitude x / 2 ^ 23
  let fraction := binary32.magnitude x % 2 ^ 23
  let sign := if x.msb then 2 ^ 63 else 0
  if exponent = 255 then
    BitVec.ofNat 64 (sign + binary64.infinity + if fraction = 0 then 0 else fraction % 2 ^ 22 * 2 ^ 29 + 2 ^ 51)
  else if exponent = 0 then
    if fraction = 0 then BitVec.ofNat 64 sign
    else BitVec.ofNat 64 (sign + (fraction.log2 + 873) * 2 ^ 52 + fraction * 2 ^ (52 - fraction.log2))
  else BitVec.ofNat 64 (sign + (exponent + 896) * 2 ^ 52 + fraction * 2 ^ 29)

variable {f} {x y z : BitVec f.width}

theorem lt_iff : f.lt x y ↔ f.isNaN x = false ∧ f.isNaN y = false ∧ f.place x < f.place y := by
  simp [lt, and_assoc]

/-- A pattern is its sign and its magnitude. -/
theorem toNat_eq (x : BitVec f.width) : x.toNat = (if x.msb then 2 ^ (f.width - 1) else 0) + f.magnitude x := by
  have hhalf : 2 ^ f.width = 2 * 2 ^ (f.width - 1) := by
    cases f <;> rfl
  have hlt := x.isLt
  rw [magnitude, BitVec.msb_eq_decide]
  by_cases hsign : 2 ^ (f.width - 1) ≤ x.toNat
  · have hmod : x.toNat % 2 ^ (f.width - 1) = x.toNat - 2 ^ (f.width - 1) := by
      rw [Nat.mod_eq_sub_mod hsign, Nat.mod_eq_of_lt (by omega)]
    rw [if_pos (decide_eq_true hsign), hmod]
    omega
  · rw [if_neg (by simpa using hsign), Nat.mod_eq_of_lt (by omega), Nat.zero_add]

/-- Both zeros are at one place, and every other place has one pattern. -/
theorem eq_of_place (h : f.place x = f.place y) : x = y ∨ f.magnitude x = 0 ∧ f.magnitude y = 0 := by
  rw [place, place] at h
  by_cases hsign : x.msb = y.msb
  · left
    have hmagnitude : f.magnitude x = f.magnitude y := by
      rw [hsign] at h
      split at h <;> omega
    apply BitVec.eq_of_toNat_eq
    rw [toNat_eq, toNat_eq, hsign, hmagnitude]
  · right
    cases hx : x.msb <;> cases hy : y.msb <;> rw [hx, hy] at hsign h
    · exact absurd rfl hsign
    · simp only [Bool.false_eq_true, if_false, if_true] at h
      omega
    · simp only [Bool.false_eq_true, if_false, if_true] at h
      omega
    · exact absurd rfl hsign

theorem toUnsigned_of_zero {w : Nat} (h : f.magnitude x = 0) : f.toUnsigned x w = some 0 := by
  have htruncated : f.truncated x = 0 := by
    rw [truncated, h]
    cases f <;> rfl
  have hfinite : f.magnitude x < f.infinity := by
    rw [h]
    cases f <;> decide
  rw [toUnsigned, if_pos ⟨hfinite, .inl htruncated⟩, htruncated]
  rfl

theorem magnitude_extend_of_zero {x : BitVec binary32.width} (h : binary32.magnitude x = 0) :
    binary64.magnitude (extend x) = 0 := by
  rw [extend, h]
  cases x.msb <;> decide

end FloatFormat

end Crack
