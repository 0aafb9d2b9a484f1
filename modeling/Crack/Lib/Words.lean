import Mathlib.Algebra.Group.Nat.Defs
import Mathlib.Tactic.Common

/-!
# Bytes and words

Equal bytes, and properties of all of them; the bytes of a word as its value, and back.
-/
namespace Bytes

variable {m n : Nat} {mask k : UInt8} {w : Nat}

theorem ofNat_eq (h : m % 256 = n % 256) : UInt8.ofNat m = UInt8.ofNat n := by
  rw [← UInt8.toNat_inj, UInt8.toNat_ofNat', UInt8.toNat_ofNat']
  exact h

theorem eq_ofNat {b : UInt8} (h : n % 256 = b.toNat) : UInt8.ofNat n = b := by
  rw [← UInt8.toNat_inj, UInt8.toNat_ofNat']
  exact h

theorem toNat_ofNat_of_lt (h : n < 256) : (UInt8.ofNat n).toNat = n := by
  rw [UInt8.toNat_ofNat']
  exact Nat.mod_eq_of_lt h

theorem forall_byte {p : UInt8 → Prop} (h : ∀ i : Fin 256, p (UInt8.ofNat i)) (b : UInt8) : p b := by
  have hb := h ⟨b.toNat, b.toNat_lt⟩
  rwa [UInt8.ofNat_toNat] at hb

/-- Some bits of a byte, as the lowest ones. -/
theorem bits_right (hmask : mask.toNat >>> (k.toNat % 8) = 2 ^ w - 1) (b : UInt8) :
    (b &&& mask) >>> k = UInt8.ofNat (b.toNat / 2 ^ (k.toNat % 8) % 2 ^ w) := by
  rw [← UInt8.ofNat_toNat (x := (b &&& mask) >>> k), UInt8.toNat_shiftRight, UInt8.toNat_and,
    Nat.shiftRight_and_distrib, hmask, Nat.and_two_pow_sub_one_eq_mod, Nat.shiftRight_eq_div_pow]

/-- The lowest bits of a byte, further up. -/
theorem bits_left (hmask : mask.toNat = 2 ^ w - 1) (b : UInt8) :
    (b &&& mask) <<< k = UInt8.ofNat (b.toNat % 2 ^ w * 2 ^ (k.toNat % 8)) := by
  rw [← UInt8.toNat_inj, UInt8.toNat_shiftLeft, UInt8.toNat_and, hmask, Nat.and_two_pow_sub_one_eq_mod,
    Nat.shiftLeft_eq, UInt8.toNat_ofNat']

end Bytes

namespace Words

/-- The word of four bytes, the highest first. -/
def word32 (a b c d : UInt8) : UInt32 := a.toUInt32 <<< 24 ||| b.toUInt32 <<< 16 ||| c.toUInt32 <<< 8 ||| d.toUInt32

def word16 (a b : UInt8) : UInt16 := a.toUInt16 <<< 8 ||| b.toUInt16

theorem shiftLeft_or {a b : Nat} (k : Nat) (h : b < 2 ^ k) : a <<< k ||| b = 2 ^ k * a + b := by
  rw [Nat.shiftLeft_eq, Nat.mul_comm, Nat.two_pow_add_eq_or_of_lt h]

theorem toNat_word32 (a b c d : UInt8) :
    (word32 a b c d).toNat = 2 ^ 24 * a.toNat + (2 ^ 16 * b.toNat + (2 ^ 8 * c.toNat + d.toNat)) := by
  have ha := a.toNat_lt
  have hb := b.toNat_lt
  have hc := c.toNat_lt
  have hd := d.toNat_lt
  have hshift : ∀ (x : UInt8) (k : UInt32), k.toNat ≤ 24 → (x.toUInt32 <<< k).toNat = x.toNat <<< k.toNat := by
    intro x k hk
    have hx : x.toNat <<< k.toNat < 2 ^ 32 := by
      rw [Nat.shiftLeft_eq]
      calc x.toNat * 2 ^ k.toNat < 2 ^ 8 * 2 ^ k.toNat := Nat.mul_lt_mul_of_pos_right x.toNat_lt (Nat.two_pow_pos _)
        _ ≤ 2 ^ 8 * 2 ^ 24 := Nat.mul_le_mul_left _ (Nat.pow_le_pow_right (by decide) hk)
    rw [UInt32.toNat_shiftLeft, UInt8.toNat_toUInt32, Nat.mod_eq_of_lt (show k.toNat < 32 by omega),
      Nat.mod_eq_of_lt hx]
  rw [word32, UInt32.toNat_or, UInt32.toNat_or, UInt32.toNat_or, hshift a 24 (by decide), hshift b 16 (by decide),
    hshift c 8 (by decide), UInt8.toNat_toUInt32, Nat.or_assoc, Nat.or_assoc]
  change a.toNat <<< 24 ||| (b.toNat <<< 16 ||| (c.toNat <<< 8 ||| d.toNat)) = _
  rw [shiftLeft_or 8 hd, shiftLeft_or 16 (by omega), shiftLeft_or 24 (by omega)]

theorem toNat_word16 (a b : UInt8) : (word16 a b).toNat = 2 ^ 8 * a.toNat + b.toNat := by
  have ha := a.toNat_lt
  have hb := b.toNat_lt
  rw [word16, UInt16.toNat_or, UInt16.toNat_shiftLeft, UInt8.toNat_toUInt16, UInt8.toNat_toUInt16]
  change a.toNat <<< 8 % 2 ^ 16 ||| b.toNat = _
  rw [Nat.mod_eq_of_lt (by rw [Nat.shiftLeft_eq]; omega), shiftLeft_or 8 hb]

theorem toNat_shiftRight (x : UInt32) (k : UInt32) (hk : k.toNat < 32) :
    (x >>> k).toUInt8.toNat = x.toNat / 2 ^ k.toNat % 2 ^ 8 := by
  rw [UInt32.toNat_toUInt8, UInt32.toNat_shiftRight, Nat.mod_eq_of_lt hk, Nat.shiftRight_eq_div_pow]

/-- A word is that of its bytes. -/
theorem word32_bytes (x : UInt32) :
    word32 (x >>> 24).toUInt8 (x >>> 16).toUInt8 (x >>> 8).toUInt8 x.toUInt8 = x := by
  have hx := x.toNat_lt
  rw [← UInt32.toNat_inj, toNat_word32, toNat_shiftRight x 24 (by decide), toNat_shiftRight x 16 (by decide),
    toNat_shiftRight x 8 (by decide), UInt32.toNat_toUInt8]
  change 2 ^ 24 * (x.toNat / 2 ^ 24 % 2 ^ 8) + (2 ^ 16 * (x.toNat / 2 ^ 16 % 2 ^ 8) +
    (2 ^ 8 * (x.toNat / 2 ^ 8 % 2 ^ 8) + x.toNat % 2 ^ 8)) = _
  omega

theorem word16_bytes (x : UInt16) : word16 (x >>> 8).toUInt8 x.toUInt8 = x := by
  have hx := x.toNat_lt
  rw [← UInt16.toNat_inj, toNat_word16, UInt16.toNat_toUInt8, UInt16.toNat_shiftRight, UInt16.toNat_toUInt8]
  change 2 ^ 8 * (x.toNat >>> 8 % 2 ^ 8) + x.toNat % 2 ^ 8 = _
  rw [Nat.shiftRight_eq_div_pow]
  omega

end Words
