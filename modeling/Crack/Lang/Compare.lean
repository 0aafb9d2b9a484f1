import Mathlib.Algebra.Group.Int.Defs
import Mathlib.Tactic.Common

/-!
# The cmp functions of the built-in types

Some of them return the difference, in the width of the type, and others compare. The
result is an `int`, of 32 bits.
-/
namespace Crack

inductive Scalar where
  | bool
  | byte
  | int16
  | int32
  | uint16
  | uint32
  | int64
  | uint64
  | int
  | uint
  | intz
  | uintz
  deriving DecidableEq, Repr

namespace Scalar

def width : Scalar → Nat
  | .bool => 1
  | .byte => 8
  | .int16 | .uint16 => 16
  | .int32 | .uint32 | .int | .uint => 32
  | .int64 | .uint64 | .intz | .uintz => 64

def signed : Scalar → Bool
  | .int16 | .int32 | .int64 | .int | .intz => true
  | _ => false

variable (t : Scalar) (a b : BitVec t.width)

/-- The number that a value stands for; `false` is 0. -/
def val : Int := if t.signed then a.toInt else a.toNat

/-- The conversion to `int` of a value of no more than 32 bits, which fills up with zeros whatever the sign. -/
def toInt32 : BitVec 32 := a.zeroExtend 32

def lightcmp : BitVec 32 := t.toInt32 (a - b)

def heavycmp : BitVec 32 := if t.val a > t.val b then 1 else if t.val a < t.val b then -1 else 0

def boolcmp (a b : BitVec 1) : BitVec 32 := if a = 1 ∧ b = 1 ∨ a ≠ 1 ∧ b ≠ 1 then 0 else 1

def cmp : (t : Scalar) → (a b : BitVec t.width) → BitVec 32
  | .bool, a, b => boolcmp a b
  | .byte, a, b => lightcmp .byte a b
  | .int16, a, b => lightcmp .int16 a b
  | .int32, a, b => lightcmp .int32 a b
  | .uint16, a, b => heavycmp .uint16 a b
  | .uint32, a, b => heavycmp .uint32 a b
  | .int64, a, b => heavycmp .int64 a b
  | .uint64, a, b => heavycmp .uint64 a b
  | .int, a, b => lightcmp .int a b
  | .uint, a, b => heavycmp .uint a b
  | .intz, a, b => heavycmp .intz a b
  | .uintz, a, b => heavycmp .uintz a b

/-- The sign of the result is the one of the difference of the numbers. -/
structure Signs (t : Scalar) (a b : BitVec t.width) : Prop where
  neg : (t.cmp a b).toInt < 0 ↔ t.val a < t.val b
  zero : (t.cmp a b).toInt = 0 ↔ t.val a = t.val b
  pos : 0 < (t.cmp a b).toInt ↔ t.val b < t.val a

/-- When it is. -/
def InRange : (t : Scalar) → (a b : BitVec t.width) → Prop
  | .bool, a, b => ¬(val .bool a < val .bool b)
  | .byte, a, b => val .byte b ≤ val .byte a
  | .int16, a, b => val .int16 b ≤ val .int16 a
  | .int32, a, b => -2 ^ 31 ≤ val .int32 a - val .int32 b ∧ val .int32 a - val .int32 b < 2 ^ 31
  | .int, a, b => -2 ^ 31 ≤ val .int a - val .int b ∧ val .int a - val .int b < 2 ^ 31
  | _, _, _ => True

variable {t a b} {w : Nat}

theorem heavycmp_signs : ((t.heavycmp a b).toInt < 0 ↔ t.val a < t.val b) ∧
    ((t.heavycmp a b).toInt = 0 ↔ t.val a = t.val b) ∧ (0 < (t.heavycmp a b).toInt ↔ t.val b < t.val a) := by
  have hpos : (1 : BitVec 32).toInt = 1 := by decide
  have hneg : (-1 : BitVec 32).toInt = -1 := by decide
  have hzero : (0 : BitVec 32).toInt = 0 := by decide
  rw [heavycmp]
  split
  · rw [hpos]
    omega
  · split
    · rw [hneg]
      omega
    · rw [hzero]
      omega

/-- A signed difference that fits keeps its sign, and one that does not changes it. -/
theorem sub_signs (a b : BitVec 32) :
    (((a - b).zeroExtend 32).toInt < 0 ↔ a.toInt < b.toInt) ∧
      (((a - b).zeroExtend 32).toInt = 0 ↔ a.toInt = b.toInt) ∧
      (0 < ((a - b).zeroExtend 32).toInt ↔ b.toInt < a.toInt) ↔
    -2 ^ 31 ≤ a.toInt - b.toInt ∧ a.toInt - b.toInt < 2 ^ 31 := by
  rw [BitVec.zeroExtend, BitVec.setWidth_eq, BitVec.toInt_sub, Int.bmod_def]
  have ha := BitVec.le_toInt a
  have ha' := BitVec.toInt_lt (x := a)
  have hb := BitVec.le_toInt b
  have hb' := BitVec.toInt_lt (x := b)
  split <;> omega

theorem sub_toNat_eq_zero {a b : BitVec w} : (a - b).toNat = 0 ↔ a = b := by
  constructor
  · intro h
    have h0 : a - b = 0#w := BitVec.eq_of_toNat_eq h
    rw [← BitVec.sub_add_cancel a b, h0, BitVec.zero_add]
  · rintro rfl
    rw [BitVec.sub_self]
    rfl

/-- A difference of fewer bits is never negative. -/
theorem toInt_narrow (hw : w < 32) (a b : BitVec w) : ((a - b).zeroExtend 32).toInt = (a - b).toNat := by
  rw [← BitVec.toInt_setWidth'_of_lt hw, BitVec.setWidth'_eq]

theorem narrow_signs (hw : w < 32) {a b : BitVec w} {val : BitVec w → Int} (hval : val a = val b ↔ a = b) :
    (((a - b).zeroExtend 32).toInt < 0 ↔ val a < val b) ∧
      (((a - b).zeroExtend 32).toInt = 0 ↔ val a = val b) ∧
      (0 < ((a - b).zeroExtend 32).toInt ↔ val b < val a) ↔
    val b ≤ val a := by
  have hzero := sub_toNat_eq_zero.trans hval.symm
  rw [toInt_narrow hw]
  omega

theorem boolcmp_signs (a b : BitVec 1) :
    ((boolcmp a b).toInt < 0 ↔ (a.toNat : Int) < b.toNat) ∧
      ((boolcmp a b).toInt = 0 ↔ (a.toNat : Int) = b.toNat) ∧
      (0 < (boolcmp a b).toInt ↔ (b.toNat : Int) < a.toNat) ↔
    ¬ (a.toNat : Int) < b.toNat := by
  revert a b
  decide

theorem signs_iff_and (t : Scalar) (a b : BitVec t.width) : Signs t a b ↔
    ((t.cmp a b).toInt < 0 ↔ t.val a < t.val b) ∧ ((t.cmp a b).toInt = 0 ↔ t.val a = t.val b) ∧
      (0 < (t.cmp a b).toInt ↔ t.val b < t.val a) :=
  ⟨fun h => ⟨h.neg, h.zero, h.pos⟩, fun h => ⟨h.1, h.2.1, h.2.2⟩⟩

theorem signs_iff (t : Scalar) (a b : BitVec t.width) : Signs t a b ↔ InRange t a b := by
  rw [signs_iff_and]
  cases t with
  | bool => exact boolcmp_signs a b
  | byte => exact narrow_signs (by decide) (Int.natCast_inj.trans BitVec.toNat_inj)
  | int16 => exact narrow_signs (by decide) BitVec.toInt_inj
  | int32 => exact sub_signs a b
  | int => exact sub_signs a b
  | uint16 => exact iff_of_true heavycmp_signs trivial
  | uint32 => exact iff_of_true heavycmp_signs trivial
  | int64 => exact iff_of_true heavycmp_signs trivial
  | uint64 => exact iff_of_true heavycmp_signs trivial
  | uint => exact iff_of_true heavycmp_signs trivial
  | intz => exact iff_of_true heavycmp_signs trivial
  | uintz => exact iff_of_true heavycmp_signs trivial

theorem Signs.le_iff {a b : BitVec t.width} (h : Signs t a b) : (t.cmp a b).toInt ≤ 0 ↔ t.val a ≤ t.val b := by
  rw [← Int.not_lt, h.pos, Int.not_lt]

theorem val_inj {a b : BitVec t.width} : t.val a = t.val b ↔ a = b := by
  rw [val, val]
  split
  · exact BitVec.toInt_inj
  · exact Int.natCast_inj.trans BitVec.toNat_inj

theorem cmp_self (a : BitVec t.width) : t.cmp a a = 0 := by
  have hheavy : t.heavycmp a a = 0 := by
    rw [heavycmp, if_neg (Int.lt_irrefl _), if_neg (Int.lt_irrefl _)]
  have hsub : ∀ {w : Nat} (x : BitVec w), (x - x).zeroExtend 32 = 0 := fun x => by
    rw [BitVec.sub_self]
    simp
  cases t with
  | bool =>
    revert a
    decide
  | byte => exact hsub a
  | int16 => exact hsub a
  | int32 => exact hsub a
  | int => exact hsub a
  | _ => exact hheavy

/-- Whatever the range, only equal values have no difference. -/
theorem eq_of_cmp {a b : BitVec t.width} (h : (t.cmp a b).toInt = 0) : a = b := by
  have hheavy : (t.heavycmp a b).toInt = 0 → a = b := fun h => val_inj.mp (heavycmp_signs.2.1.mp h)
  have hsub : ∀ x y : BitVec 32, ((x - y).zeroExtend 32).toInt = 0 → x = y := by
    intro x y h
    rw [BitVec.zeroExtend, BitVec.setWidth_eq] at h
    rw [← sub_toNat_eq_zero, BitVec.toInt_inj.mp (h.trans BitVec.toInt_zero.symm)]
    rfl
  have hnarrow : ∀ {w : Nat}, w < 32 → ∀ x y : BitVec w, ((x - y).zeroExtend 32).toInt = 0 → x = y := by
    intro w hw x y h
    rw [toInt_narrow hw] at h
    exact sub_toNat_eq_zero.mp (Int.natCast_eq_zero.mp h)
  cases t with
  | bool =>
    revert a b
    decide
  | byte => exact hnarrow (by decide) a b h
  | int16 => exact hnarrow (by decide) a b h
  | int32 => exact hsub a b h
  | int => exact hsub a b h
  | _ => exact hheavy h

end Scalar

open Scalar in
/-- The result of `cmp` has the sign of the difference if and only if the difference is in the
range of what is returned. Values of which this holds are in a total order. -/
theorem cmp_signs_iff (t : Scalar) (a b c : BitVec t.width) :
    (Signs t a b ↔ InRange t a b) ∧
      (InRange t a b → InRange t b a → InRange t b c → InRange t a c →
        ((t.cmp a b).toInt < 0 ↔ 0 < (t.cmp b a).toInt) ∧
          ((t.cmp a b).toInt ≤ 0 → (t.cmp b c).toInt ≤ 0 → (t.cmp a c).toInt ≤ 0)) := by
  refine ⟨signs_iff t a b, fun hab hba hbc hac => ?_⟩
  rw [← signs_iff] at hab hba hbc hac
  refine ⟨hab.neg.trans hba.pos.symm, fun h h' => ?_⟩
  rw [hab.le_iff] at h
  rw [hbc.le_iff] at h'
  rw [hac.le_iff]
  exact Int.le_trans h h'

/-- The byte 1 is below the byte 2. -/
theorem cmp_of_bytes : ¬Scalar.Signs .byte 1 2 := fun h => absurd (h.neg.mpr (by decide)) (by decide)

end Crack
