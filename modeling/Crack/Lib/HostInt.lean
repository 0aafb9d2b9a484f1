import Mathlib.Algebra.Group.Int.Defs
import Mathlib.Algebra.Group.Nat.Defs
import Mathlib.Data.Int.Basic
import Mathlib.Data.Nat.Log
import Mathlib.Tactic.Common

/-!
# Integers and whole floats of the host

The operations of C++ on signed and unsigned integers of `w` bits, over their bit
patterns. An operation that is undefined for its operands has no result. A shift
moves the pattern and is undefined for counts outside `0 .. w - 1`.
-/
namespace HostInt

variable {w : Nat} (x y : BitVec w)

def add : Option (BitVec w) := if x.saddOverflow y then none else some (x + y)

def sub : Option (BitVec w) := if x.ssubOverflow y then none else some (x - y)

def mul : Option (BitVec w) := if x.smulOverflow y then none else some (x * y)

def neg : Option (BitVec w) := if x.negOverflow then none else some (-x)

def sdiv : Option (BitVec w) := if y = 0 ∨ x.sdivOverflow y then none else some (x.sdiv y)

def srem : Option (BitVec w) := if y = 0 ∨ x.sdivOverflow y then none else some (x.srem y)

def udiv : Option (BitVec w) := if y = 0 then none else some (x / y)

def urem : Option (BitVec w) := if y = 0 then none else some (x % y)

/-- A shift count that an operand of `w` bits may have. -/
def IsCount (w : Nat) (n : Int) : Prop := 0 ≤ n ∧ n < w

instance (w : Nat) (n : Int) : Decidable (IsCount w n) := inferInstanceAs (Decidable (_ ∧ _))

def shl (n : Int) : Option (BitVec w) := if IsCount w n then some (x <<< n.toNat) else none

/-- The right shift of an unsigned integer. -/
def lshr (n : Int) : Option (BitVec w) := if IsCount w n then some (x >>> n.toNat) else none

/-- The right shift of a signed integer. -/
def ashr (n : Int) : Option (BitVec w) := if IsCount w n then some (x.sshiftRight n.toNat) else none

variable {x y}

theorem toNat_toInt_of_nonneg (h : 0 ≤ y.toInt) : y.toInt.toNat = y.toNat := by
  have hlt := y.isLt
  rw [BitVec.toInt_eq_toNat_cond] at *
  split at * <;> omega

section Shifts

theorem shl_count (h : IsCount w y.toInt) : shl x y.toInt = some (x <<< y) := by
  rw [shl, if_pos h, toNat_toInt_of_nonneg h.1]
  rfl

theorem lshr_count (h : IsCount w y.toInt) : lshr x y.toInt = some (x >>> y) := by
  rw [lshr, if_pos h, toNat_toInt_of_nonneg h.1]
  rfl

theorem ashr_count (h : IsCount w y.toInt) : ashr x y.toInt = some (x.sshiftRight' y) := by
  rw [ashr, if_pos h, toNat_toInt_of_nonneg h.1]
  rfl

theorem not_saddOverflow_of_isCount {z : BitVec w} (h : IsCount w (y.toInt + z.toInt)) : ¬ y.saddOverflow z := by
  obtain ⟨h₁, h₂⟩ := h
  have hlt : w - 1 < 2 ^ (w - 1) := Nat.lt_two_pow_self
  have hw : w ≤ 2 ^ (w - 1) := by omega
  have hw : (w : Int) ≤ 2 ^ (w - 1) := mod_cast hw
  simp only [BitVec.saddOverflow, Bool.or_eq_true, decide_eq_true_eq]
  omega

end Shifts

/-- Both right shifts agree on a pattern without the sign bit. -/
theorem sshiftRight_eq_ushiftRight (h : x.msb = false) (n : Nat) : x.sshiftRight n = x >>> n :=
  BitVec.sshiftRight_eq_of_msb_false h

/-- A right shift of a pattern with the sign bit shows whether it copies the bit. -/
theorem sshiftRight_ne_ushiftRight (h : x.msb = true) {n : Nat} (hn : n ≠ 0) : x.sshiftRight n ≠ x >>> n := by
  intro he
  have hm := congrArg BitVec.msb he
  rw [BitVec.msb_sshiftRight, BitVec.msb_ushiftRight, h] at hm
  simp [hn] at hm

end HostInt

-- A binary format of `p` significant bits holds a whole number when its bits after the first `p` are
-- zeros. Conversion rounds to the nearest number that is held, and to the even one of two.
namespace HostFloat

/-- A whole number of at most `p` significant bits. -/
def Fits (p n : Nat) : Prop := ∃ m e, n = m * 2 ^ e ∧ m < 2 ^ p

/-- The weight of the last bit that is kept. -/
def ulp (p n : Nat) : Nat := 2 ^ (Nat.log2 n + 1 - p)

def roundNat (p n : Nat) : Nat :=
  let m := n / ulp p n
  let r := n % ulp p n
  if 2 * r < ulp p n ∨ 2 * r = ulp p n ∧ m % 2 = 0 then m * ulp p n else (m + 1) * ulp p n

/-- The conversion of a signed integer. -/
def ofInt (p : Nat) (n : Int) : Int := if n < 0 then -roundNat p n.natAbs else roundNat p n.natAbs

variable {p q n : Nat}

theorem ulp_pos : 0 < ulp p n := Nat.two_pow_pos _

theorem Fits.mono (h : Fits p n) (hpq : p ≤ q) : Fits q n := by
  obtain ⟨m, e, hn, hm⟩ := h
  exact ⟨m, e, hn, Nat.lt_of_lt_of_le hm (Nat.pow_le_pow_right (by decide) hpq)⟩

theorem ulp_dvd (h : Fits p n) : ulp p n ∣ n := by
  obtain ⟨m, e, hn, hm⟩ := h
  by_cases hz : n = 0
  · rw [hz]
    exact Nat.dvd_zero _
  · have hlt : n < 2 ^ (p + e) := by
      rw [Nat.pow_add, hn]
      exact Nat.mul_lt_mul_of_pos_right hm (Nat.two_pow_pos e)
    have hlog : Nat.log2 n < p + e := (Nat.log2_lt hz).mpr hlt
    have hpow : ulp p n ∣ 2 ^ e := Nat.pow_dvd_pow 2 (by omega)
    exact Nat.dvd_trans hpow ⟨m, by rw [hn, Nat.mul_comm]⟩

theorem fits_of_dvd (h : ulp p n ∣ n) : Fits p n := by
  refine ⟨n / ulp p n, Nat.log2 n + 1 - p, (Nat.div_mul_cancel h).symm, ?_⟩
  refine (Nat.div_lt_iff_lt_mul ulp_pos).mpr ?_
  rw [ulp, ← Nat.pow_add]
  exact Nat.lt_of_lt_of_le Nat.lt_log2_self (Nat.pow_le_pow_right (by decide) (by omega))

/-- A number is kept if and only if the format holds it. -/
theorem roundNat_eq_iff : roundNat p n = n ↔ Fits p n := by
  have hpos := ulp_pos (p := p) (n := n)
  have hsum := Nat.div_add_mod n (ulp p n)
  have hlt := Nat.mod_lt n hpos
  rw [Nat.mul_comm] at hsum
  constructor
  · intro h
    refine fits_of_dvd (Nat.dvd_of_mod_eq_zero ?_)
    unfold roundNat at h
    dsimp only at h
    split at h
    · omega
    · rw [Nat.add_mul, Nat.one_mul] at h
      omega
  · intro h
    have hr := Nat.mod_eq_zero_of_dvd (ulp_dvd h)
    unfold roundNat
    dsimp only
    rw [hr, Nat.mul_zero, if_pos (.inl hpos)]
    omega

theorem ofInt_eq_iff {n : Int} : ofInt p n = n ↔ Fits p n.natAbs := by
  rw [← roundNat_eq_iff, ofInt]
  split <;> omega

theorem ofInt_nonpos {n : Int} (h : n ≤ 0) : ofInt p n ≤ 0 := by
  rcases Int.lt_or_eq_of_le h with hneg | rfl
  · rw [ofInt, if_pos hneg]
    omega
  · exact Int.le_of_eq (ofInt_eq_iff.mpr ⟨0, 0, rfl, Nat.two_pow_pos p⟩)

end HostFloat
