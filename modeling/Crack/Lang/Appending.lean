import Crack.Lang.AppendBuffers
import Crack.Lib.Loops

/-!
# What is appended to a buffer

A function that only appends to an `AppendBuffer`: it appends the same bytes whatever is there, or it
fails because the buffer cannot grow any more. And how often a loop over a size runs.
-/
namespace Crack

/-- How often a loop with an `int i` goes on while `i < size`. The size is compared as an `int`. -/
def intSize (size : Nat) : Nat := if uint size < 2 ^ 31 then uint size else 0

theorem intSize_lt (size : Nat) : intSize size < 2 ^ 31 := by
  rw [intSize]
  split
  next h => exact h
  next => exact Nat.two_pow_pos 31

theorem intSize_of_lt {size : Nat} (h : size < 2 ^ 31) : intSize size = size := by
  have huint : uint size = size := Nat.mod_eq_of_lt (Nat.lt_trans h (by decide))
  rw [intSize, huint, if_pos h]

/-- A size that is an `int` below zero. -/
theorem intSize_of_ge {size : Nat} (h : 2 ^ 31 ≤ size) (hlt : size < 2 ^ 32) : intSize size = 0 := by
  have huint : uint size = size := Nat.mod_eq_of_lt hlt
  rw [intSize, huint, if_neg (Nat.not_lt_of_le h)]

theorem take_intSize {xs : List UInt8} (h : xs.length < 2 ^ 31) : xs.take (intSize xs.length) = xs := by
  rw [intSize_of_lt h, List.take_length]

theorem length_take_intSize (xs : List UInt8) : (xs.take (intSize xs.length)).length < 2 ^ 31 :=
  Nat.lt_of_le_of_lt (List.length_take_le _ _) (intSize_lt _)

namespace ManagedBuffer

open Loops (bind_ok)

variable {b b' : ManagedBuffer} {xs ys : List UInt8} {f g : ManagedBuffer → Except Stop ManagedBuffer}

/-- A buffer whose capacity is a `uint`. -/
def Sound (b : ManagedBuffer) : Prop := b.size ≤ b.cap ∧ b.cap < 2 ^ 32

structure Appends (f : ManagedBuffer → Except Stop ManagedBuffer) (xs : List UInt8) : Prop where
  /-- up to 2 ^ 31 bytes there is always room -/
  total : ∀ b : ManagedBuffer, b.Sound → b.size + xs.length ≤ 2 ^ 31 → ∃ b', f b = .ok b'
  only : ∀ b b' : ManagedBuffer, b.Sound → f b = .ok b' → b'.Sound ∧ b'.data = b.data ++ xs

theorem sound_init {cap : Nat} (h : cap < 2 ^ 32) : Sound (.init cap) :=
  ⟨Nat.zero_le _, Nat.lt_of_le_of_lt (Nat.le_of_eq List.length_replicate) h⟩

theorem of_grow {newCap : Nat} (h : b.size ≤ b.cap) (hcap : newCap < 2 ^ 32) (he : b.grow newCap = .ok b') :
    b'.Sound ∧ b'.data = b.data := by
  have hlen : (b.mem.take b.size).length = b.size := length_data h
  rw [grow] at he
  by_cases habort : newCap ≠ 0 ∧ newCap ≤ uint b.cap
  · rw [if_pos habort] at he
    cases he
  rw [if_neg habort] at he
  dsimp only at he
  have hlt : (if newCap = 0 then 16 else newCap) < 2 ^ 32 := by
    split
    · decide
    · exact hcap
  generalize (if newCap = 0 then 16 else newCap) = cap at he hlt
  by_cases hless : cap < b.size
  · rw [if_pos hless] at he
    cases he
  rw [if_neg hless] at he
  cases he
  have hgrown : (b.mem.take b.size ++ List.replicate (cap - b.size) (0 : UInt8)).length = cap := by
    rw [List.length_append, hlen, List.length_replicate]
    omega
  refine ⟨⟨Nat.le_trans (Nat.le_of_not_lt hless) (Nat.le_of_eq hgrown.symm), ?_⟩, List.take_left' hlen⟩
  exact Nat.lt_of_le_of_lt (Nat.le_of_eq hgrown) hlt

theorem sound_receive (h : b.Sound) (hroom : b.size + xs.length ≤ b.cap) :
    (b.receive b.size xs).Sound ∧ (b.receive b.size xs).data = b.data ++ xs := by
  refine ⟨⟨?_, ?_⟩, data_receive hroom⟩
  · rw [size_receive, cap_receive hroom]
    exact hroom
  · rw [cap_receive hroom]
    exact h.2

theorem appends_nil : Appends .ok [] := by
  refine ⟨fun b _ _ => ⟨b, rfl⟩, fun b b' h he => ?_⟩
  cases he
  exact ⟨h, (List.append_nil _).symm⟩

/-- What was put at the end of a sound buffer. -/
theorem sound_deliver (h : b.Sound) (he : b.deliver b.size xs = .ok b') :
    b' = b.receive b.size xs ∧ b.size + xs.length ≤ b.cap := by
  have hsize : uint b.size = b.size := uint_of_lt (Nat.lt_of_le_of_lt h.1 h.2)
  rw [deliver, hsize] at he
  split at he
  next hin =>
    cases he
    refine ⟨rfl, ?_⟩
    rcases hin with h0 | hin
    · rw [h0]
      exact h.1
    · exact hsize ▸ hin.2
  next => cases he

theorem appends_append (c : UInt8) : Appends (fun b => b.append c) [c] := by
  constructor
  · intro b h hlt
    rw [List.length_singleton] at hlt
    obtain ⟨b₁, hroom, hsize₁, hcap₁, -⟩ := makeByteRoom_ok h.1 (fun heq => heq ▸ hlt)
    refine ⟨b₁.receive b₁.size [c], ?_⟩
    rw [append, hroom]
    exact deliver_ok (.inl (hsize₁ ▸ hlt)) (show b₁.size + 1 ≤ b₁.cap from hsize₁ ▸ hcap₁)
  · intro b b' h he
    obtain ⟨b₁, hroom, he⟩ := bind_ok he
    have h₁ : b₁.Sound ∧ b₁.data = b.data := by
      rw [makeByteRoom] at hroom
      split at hroom
      · exact of_grow h.1 (Nat.mod_lt _ (by decide)) hroom
      · cases hroom
        exact ⟨h, rfl⟩
    obtain ⟨rfl, hfits⟩ := sound_deliver h₁.1 he
    obtain ⟨hsound, hdata⟩ := sound_receive h₁.1 hfits
    exact ⟨hsound, hdata.trans (by rw [h₁.2])⟩

/-- A copy to the end of a sound buffer. -/
theorem sound_memmove (h : b.Sound) (hfits : b.size + xs.length ≤ b.cap) (he : b.memmove b.size xs = .ok b') :
    b'.mem = (b.receive b.size xs).mem := by
  have hlt := h.2
  have hsize : uint b.size = b.size := uint_of_lt (by omega)
  have hcount : uint xs.length = xs.length := uint_of_lt (by omega)
  rw [memmove, hsize, hcount, List.take_length] at he
  split at he <;> cases he
  rfl

/-- What `extend` has done when it returns. -/
theorem of_extend (h : b.Sound) (he : b.extend xs = .ok b') :
    ∃ b₁ b₂ : ManagedBuffer, b₁.Sound ∧ b₁.data = b.data ∧ b₁.size = b.size ∧ b₁.size + xs.length ≤ b₁.cap ∧
      b₁.memmove b₁.size xs = .ok b₂ ∧ b' = ⟨b₂.mem, uint (b.size + xs.length)⟩ := by
  obtain ⟨b₁, hroom, he⟩ := bind_ok he
  have h₁ : b₁.Sound ∧ b₁.data = b.data := by
    rw [makeRoom] at hroom
    split at hroom
    · refine of_grow h.1 ?_ hroom
      split
      · exact Nat.mod_lt _ (by decide)
      · exact Nat.mod_lt _ (by decide)
    · cases hroom
      exact ⟨h, rfl⟩
  have hsize : b₁.size = b.size := by rw [← length_data h₁.1.1, h₁.2, length_data h.1]
  split at he
  next => cases he
  next hfits =>
    obtain ⟨b₂, hmove, he⟩ := bind_ok he
    cases he
    exact ⟨b₁, b₂, h₁.1, h₁.2, hsize, Nat.le_of_not_lt hfits, hmove, rfl⟩

theorem appends_extend (xs : List UInt8) : Appends (fun b => b.extend xs) xs := by
  constructor
  · intro b h hlt
    have hplace : b.size < 2 ^ 31 ∨ xs = [] := by
      rcases Nat.eq_zero_or_pos xs.length with h0 | hpos
      · exact .inr (List.length_eq_zero_iff.mp h0)
      · exact .inl (by omega)
    obtain ⟨b', he, -⟩ := extend_ok h.1 hplace (show b.size + xs.length < 2 ^ 32 by omega)
    exact ⟨b', he⟩
  · intro b b' h he
    obtain ⟨b₁, b₂, h₁, hdata₁, hsize, hle, hmove, rfl⟩ := of_extend h he
    have hmem := sound_memmove h₁ hle hmove
    have hsum : uint (b.size + xs.length) = b₁.size + xs.length := by
      rw [← hsize]
      exact Nat.mod_eq_of_lt (Nat.lt_of_le_of_lt hle h₁.2)
    have heq : (⟨b₂.mem, uint (b.size + xs.length)⟩ : ManagedBuffer) = b₁.receive b₁.size xs := by
      rw [hmem, hsum]
      rfl
    obtain ⟨hsound, hdata⟩ := sound_receive h₁ hle
    exact heq ▸ ⟨hsound, hdata.trans (by rw [hdata₁])⟩

/-- Bytes are only added from an index that is not negative. -/
theorem place_of_extend (h : b.Sound) (he : b.extend xs = .ok b') : b.size < 2 ^ 31 ∨ xs = [] := by
  obtain ⟨b₁, b₂, h₁, -, hsize, hle, hmove, -⟩ := of_extend h he
  have hlt := h₁.2
  have hplace : uint b₁.size = b₁.size := uint_of_lt (by omega)
  have hcount : uint xs.length = xs.length := uint_of_lt (by omega)
  rw [memmove, hcount] at hmove
  split at hmove
  next hin =>
    rcases hin with h0 | hin
    · exact .inr (List.eq_nil_of_length_eq_zero h0)
    · exact .inl (hsize ▸ hplace ▸ hin.1)
  next => cases hmove

/-- One after the other. -/
theorem Appends.bind (hf : Appends f xs) (hg : Appends g ys) : Appends (fun b => f b >>= g) (xs ++ ys) := by
  constructor
  · intro b h hlt
    rw [List.length_append] at hlt
    obtain ⟨b₁, he₁⟩ := hf.total b h (by omega)
    obtain ⟨h₁, hdata⟩ := hf.only b b₁ h he₁
    have hsize : b₁.size = b.size + xs.length := by
      rw [← length_data h₁.1, hdata, List.length_append, length_data h.1]
    obtain ⟨b₂, he₂⟩ := hg.total b₁ h₁ (by omega)
    refine ⟨b₂, ?_⟩
    rw [he₁]
    exact he₂
  · intro b b' h he
    obtain ⟨b₁, he₁, he₂⟩ := bind_ok he
    obtain ⟨h₁, hdata₁⟩ := hf.only b b₁ h he₁
    obtain ⟨h', hdata'⟩ := hg.only b₁ b' h₁ he₂
    exact ⟨h', by rw [hdata', hdata₁, List.append_assoc]⟩

/-- Bytes that are only appended under a condition. -/
theorem Appends.when {p : Prop} [Decidable p] (h : Appends f xs) :
    Appends (fun b => if p then f b else .ok b) (if p then xs else []) := by
  by_cases hp : p
  · simp only [if_pos hp]
    exact h
  · simp only [if_neg hp]
    exact appends_nil

theorem Appends.of_eq (h : Appends f xs) (hxs : xs = ys) : Appends f ys := hxs ▸ h

theorem Appends.of_fun (h : Appends f xs) (hfg : ∀ b, g b = f b) : Appends g xs := funext hfg ▸ h

theorem size_makeByteRoom (he : b.makeByteRoom = .ok b') : b'.size = b.size := by
  rw [makeByteRoom] at he
  split at he
  next => exact size_grow he
  next =>
    cases he
    rfl

theorem size_append {c : UInt8} (he : b.append c = .ok b') : b'.size = b.size + 1 := by
  obtain ⟨b₁, hroom, he⟩ := bind_ok he
  rw [appendByte, deliver] at he
  split at he <;> cases he
  rw [← size_makeByteRoom hroom]
  rfl

theorem size_extend_le (he : b.extend xs = .ok b') : b'.size ≤ b.size + xs.length := by
  obtain ⟨b₁, -, he⟩ := bind_ok he
  split at he
  next => cases he
  next =>
    obtain ⟨b₂, -, he⟩ := bind_ok he
    cases he
    exact uint_le _

/-- What a new buffer holds afterwards. -/
theorem Appends.of_init (h : Appends f xs) (cap : Nat) (hcap : cap < 2 ^ 32) :
    (xs.length ≤ 2 ^ 31 → ∃ b, f (.init cap) = .ok b ∧ b.data = xs) ∧
      ∀ b, f (.init cap) = .ok b → b.data = xs ∧ xs.length < 2 ^ 32 := by
  have hinit : Sound (.init cap) := sound_init hcap
  have honly : ∀ b, f (.init cap) = .ok b → b.data = xs ∧ xs.length < 2 ^ 32 := by
    intro b he
    obtain ⟨hb, hdata⟩ := h.only _ b hinit he
    have hxs : b.data = xs := hdata
    refine ⟨hxs, ?_⟩
    rw [← hxs, length_data hb.1]
    exact Nat.lt_of_le_of_lt hb.1 hb.2
  refine ⟨fun hlt => ?_, honly⟩
  obtain ⟨b, he⟩ := h.total _ hinit (by rw [show size (.init cap) = 0 from rfl]; omega)
  exact ⟨b, he, (honly b he).1⟩

end ManagedBuffer

end Crack
