import Crack.Lib.Words

/-!
# Bytes in groups of six bits

Three bytes are four numbers below 64. One or two bytes that are left over are two or three of them,
the last one filled up with zeros.
-/
namespace Sextets

open Bytes (eq_ofNat)

def groups : List UInt8 → List Nat
  | [] => []
  | [a] => [a.toNat / 4, a.toNat % 4 * 16]
  | [a, b] => [a.toNat / 4, a.toNat % 4 * 16 + b.toNat / 16, b.toNat % 16 * 4]
  | a :: b :: c :: bs =>
    a.toNat / 4 :: (a.toNat % 4 * 16 + b.toNat / 16) :: (b.toNat % 16 * 4 + c.toNat / 64) :: c.toNat % 64 :: groups bs

/-- A number that is alone is not a group. -/
def bytes : List Nat → List UInt8
  | p :: q :: r :: s :: ns =>
    UInt8.ofNat (p * 4 + q / 16) :: UInt8.ofNat (q * 16 + r / 4) :: UInt8.ofNat (r * 64 + s) :: bytes ns
  | [p, q, r] => [UInt8.ofNat (p * 4 + q / 16), UInt8.ofNat (q * 16 + r / 4)]
  | [p, q] => [UInt8.ofNat (p * 4 + q / 16)]
  | _ => []

/-- Numbers four at a time, and up to three that are left over. -/
@[elab_as_elim]
theorem four_at_a_time {motive : List Nat → Prop} (nil : motive []) (one : ∀ p, motive [p])
    (two : ∀ p q, motive [p, q]) (three : ∀ p q r, motive [p, q, r])
    (four : ∀ p q r s ns, motive ns → motive (p :: q :: r :: s :: ns)) : ∀ ns, motive ns
  | [] => nil
  | [p] => one p
  | [p, q] => two p q
  | [p, q, r] => three p q r
  | p :: q :: r :: s :: ns => four p q r s ns (four_at_a_time nil one two three four ns)

theorem bytes_groups (bs : List UInt8) : bytes (groups bs) = bs := by
  fun_induction groups bs with
  | case1 => rfl
  | case2 a =>
    have ha := a.toNat_lt
    rw [bytes, eq_ofNat (b := a) (by omega)]
  | case3 a b =>
    have ha := a.toNat_lt
    have hb := b.toNat_lt
    rw [bytes, eq_ofNat (b := a) (by omega), eq_ofNat (b := b) (by omega)]
  | case4 a b c bs ih =>
    have ha := a.toNat_lt
    have hb := b.toNat_lt
    have hc := c.toNat_lt
    rw [bytes, ih, eq_ofNat (b := a) (by omega), eq_ofNat (b := b) (by omega), eq_ofNat (b := c) (by omega)]

theorem groups_lt (bs : List UInt8) : ∀ n ∈ groups bs, n < 64 := by
  fun_induction groups bs with
  | case1 => exact fun n hn => absurd hn List.not_mem_nil
  | case2 a =>
    have ha := a.toNat_lt
    simp only [List.mem_cons, List.not_mem_nil, or_false, forall_eq_or_imp, forall_eq]
    omega
  | case3 a b =>
    have ha := a.toNat_lt
    have hb := b.toNat_lt
    simp only [List.mem_cons, List.not_mem_nil, or_false, forall_eq_or_imp, forall_eq]
    omega
  | case4 a b c bs ih =>
    have ha := a.toNat_lt
    have hb := b.toNat_lt
    have hc := c.toNat_lt
    simp only [List.mem_cons, forall_eq_or_imp]
    exact ⟨by omega, by omega, by omega, by omega, ih⟩

theorem length_groups (bs : List UInt8) : (groups bs).length = (4 * bs.length + 2) / 3 := by
  fun_induction groups bs with
  | case1 => rfl
  | case2 a => simp only [List.length_cons, List.length_nil, Nat.reduceAdd, Nat.reduceMul, Nat.reduceDiv]
  | case3 a b => simp only [List.length_cons, List.length_nil, Nat.reduceAdd, Nat.reduceMul, Nat.reduceDiv]
  | case4 a b c bs ih =>
    simp only [List.length_cons, ih]
    omega

end Sextets
