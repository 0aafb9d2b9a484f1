import Crack.Lib.Words
import Mathlib.Tactic.Ring

/-!
# Numbers in groups of seven bits

There is one group in a byte, whose high bit is set when another one follows it.
-/
namespace Varint

theorem low_toNat (b : UInt8) : (b &&& 0x7f).toNat = b.toNat % 128 := by
  rw [UInt8.toNat_and]
  exact Nat.and_two_pow_sub_one_eq_mod b.toNat 7

theorem high_iff (b : UInt8) : b &&& 0x80 ≠ 0 ↔ 128 ≤ b.toNat := by
  refine Bytes.forall_byte (p := fun b => b &&& 0x80 ≠ 0 ↔ 128 ≤ b.toNat) ?_ b
  decide +kernel

/-- The number that the groups of the bytes make, when the lowest one comes first. -/
def value : List UInt8 → Nat
  | [] => 0
  | b :: bs => b.toNat % 128 + 128 * value bs

/-- The high bit is set on each byte but the last. -/
def Terminated : List UInt8 → Prop
  | [] => False
  | [b] => b.toNat < 128
  | b :: c :: bs => 128 ≤ b.toNat ∧ Terminated (c :: bs)

variable {bs : List UInt8} {val o x : Nat}

theorem Terminated.exists_low (h : Terminated bs) : ∃ b ∈ bs, b.toNat < 128 := by
  induction bs with
  | nil => exact absurd h id
  | cons b bs ih =>
    cases bs with
    | nil => exact ⟨b, List.mem_cons_self, h⟩
    | cons c bs =>
      obtain ⟨x, hx, hlow⟩ := ih h.2
      exact ⟨x, List.mem_cons_of_mem _ hx, hlow⟩

theorem Terminated.length_pos (h : Terminated bs) : 0 < bs.length :=
  List.length_pos_iff.mpr fun hnil => by
    subst hnil
    exact h

theorem Terminated.drop {n : Nat} (h : Terminated bs) (hn : n < bs.length) : Terminated (bs.drop n) := by
  induction n generalizing bs with
  | zero => exact h
  | succ n ih =>
    match bs, h with
    | [b], _ => exact absurd hn (Nat.not_lt_of_le (Nat.succ_le_succ (Nat.zero_le n)))
    | b :: c :: bs, h => exact ih h.2 (Nat.lt_of_succ_lt_succ hn)

/-- What is cut off has the high bit everywhere. -/
theorem Terminated.high_of_part {part bs : List UInt8} (h : Terminated bs) (hpart : part <+: bs) (hne : part ≠ bs) :
    ∀ b ∈ part, 128 ≤ b.toNat := by
  induction part generalizing bs with
  | nil => exact fun b hb => absurd hb List.not_mem_nil
  | cons b part ih =>
    obtain ⟨rest, rfl⟩ := hpart
    have hrest : part ++ rest ≠ [] := by
      intro hnil
      obtain ⟨rfl, rfl⟩ := List.append_eq_nil_iff.mp hnil
      exact hne rfl
    obtain ⟨c, cs, hcs⟩ := List.exists_cons_of_ne_nil hrest
    rw [List.cons_append, hcs] at h
    refine List.forall_mem_cons.mpr ⟨h.1, ih (hcs ▸ h.2) (List.prefix_append part rest) ?_⟩
    rintro heq
    rw [List.cons_append, ← heq] at hne
    exact hne rfl

theorem Terminated.not_high {part bs : List UInt8} (h : Terminated part) (hpart : part <+: bs) :
    ¬ ∀ b ∈ bs, 128 ≤ b.toNat := by
  intro hhigh
  obtain ⟨b, hb, hlow⟩ := h.exists_low
  exact absurd (hhigh b (hpart.subset hb)) (Nat.not_le_of_lt hlow)

/-- A number ends at one place only. -/
theorem Terminated.eq_of_prefix {xs ys bs : List UInt8} (hx : Terminated xs) (hy : Terminated ys) (hxs : xs <+: bs)
    (hys : ys <+: bs) : xs = ys := by
  rcases Nat.le_total xs.length ys.length with hle | hle
  · have hpart := List.prefix_of_prefix_length_le hxs hys hle
    by_contra hne
    obtain ⟨b, hb, hlast⟩ := hx.exists_low
    exact absurd (hy.high_of_part hpart hne b hb) (Nat.not_le_of_lt hlast)
  · have hpart := List.prefix_of_prefix_length_le hys hxs hle
    by_contra hne
    obtain ⟨b, hb, hlast⟩ := hy.exists_low
    exact absurd (hx.high_of_part hpart (Ne.symm hne) b hb) (Nat.not_le_of_lt hlast)

/-- A number, or bytes with the high bit up to some place. -/
theorem number_or_high (bs : List UInt8) : (∃ part, part <+: bs ∧ Terminated part) ∨ ∀ b ∈ bs, 128 ≤ b.toNat := by
  induction bs with
  | nil => exact .inr fun b hb => absurd hb List.not_mem_nil
  | cons b bs ih =>
    by_cases hb : b.toNat < 128
    · exact .inl ⟨[b], ⟨bs, rfl⟩, hb⟩
    rcases ih with ⟨part, hpart, hterm⟩ | hall
    · refine .inl ⟨b :: part, List.cons_prefix_cons.mpr ⟨rfl, hpart⟩, ?_⟩
      cases part with
      | nil => exact absurd hterm id
      | cons c part => exact ⟨Nat.le_of_not_lt hb, hterm⟩
    · exact .inr (List.forall_mem_cons.mpr ⟨Nat.le_of_not_lt hb, hall⟩)

/-- Another group on top of the ones that are there. -/
theorem lor_shift (h : val < 2 ^ o) : val ||| x <<< o = val + 2 ^ o * x := by
  rw [Nat.shiftLeft_eq, Nat.mul_comm, Nat.or_comm, ← Nat.two_pow_add_eq_or_of_lt h, Nat.add_comm]

theorem lt_two_pow_add (h : val < 2 ^ o) (hx : x < 128) : val + 2 ^ o * x < 2 ^ (o + 7) := by
  have hle : 2 ^ o * (x + 1) ≤ 2 ^ o * 128 := Nat.mul_le_mul_left _ hx
  rw [Nat.mul_add_one] at hle
  rw [Nat.pow_add]
  omega

/-- A group below the ones that are there. -/
theorem shift_or (x : Nat) : (x >>> 7) <<< 7 ||| x % 128 = x := by
  have hlt : x % 128 < 2 ^ 7 := Nat.mod_lt _ (by decide)
  rw [Nat.shiftLeft_eq, Nat.mul_comm, ← Nat.two_pow_add_eq_or_of_lt hlt, Nat.shiftRight_eq_div_pow]
  exact Nat.div_add_mod x 128

end Varint
